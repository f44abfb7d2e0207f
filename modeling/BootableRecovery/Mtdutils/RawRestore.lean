import BootableRecovery.Mtdutils.Attempts

/-!
# `mtdutils/mtdutils.c`: `cmd_mtd_restore_raw_partition`

A file is written to a partition in calls of `mtd_write_data`. What does not fill a block
stays in the buffer until `mtd_erase_blocks` and `mtd_write_close`, whose failures are
printed and nothing else: the result is 0.

Main results:
* `restore_raw_partition_iff`: the result 0 means that the whole file is on the flash
  exactly when the last block finds its place in one of the two calls.
* `restore_raw_partition_lost`: the last byte of a file is lost when only a bad block is left.
-/

namespace BootableRecovery.Mtdutils.Attempts

/-! ## The code -/

/-- What succeeds before anything is written, whether `close` succeeds, and the size of the
buffer. -/
structure Restore where
  fopen : Bool
  mtd_scan_partitions : Bool
  mtd_find_partition_by_name : Bool
  opens : Bool
  mtd_write_partition : Bool
  close : Bool
  BUFSIZ : Nat
  bufsiz_pos : 0 < BUFSIZ

/-- The file gets written at all. -/
def Restore.starts (s : Restore) : Bool :=
  s.fopen && s.mtd_scan_partitions && s.mtd_find_partition_by_name && s.opens &&
    s.mtd_write_partition

section Code

variable {p : MtdPartition} (d : Device p) (s : Restore)

/-- The loop over the pieces that `fread` returns; the result is `success`. -/
def restoreLoop : Nat → Bytes → Stream.WriteContext WriteFd →
    Outcome (Bool × Stream.WriteContext WriteFd)
  | fuel, f, ctx =>
    let buffer := f.take s.BUFSIZ
    if 0 < buffer.length then
      match fuel with
      | 0 => .spin
      | fuel + 1 => do
        let (wrote, ctx) ← mtd_write_data d ctx buffer
        if wrote then restoreLoop fuel (f.drop s.BUFSIZ) ctx else .done (false, ctx)
    else .done (true, ctx)

/-- `cmd_mtd_restore_raw_partition` for a file on a partition that holds `flash`. -/
def cmd_mtd_restore_raw_partition (flash : Flash) (time : Nat) (f : Bytes) :
    Outcome (Int × WriteFd) :=
  let ctx := Attempts.mtd_write_partition flash time
  if !s.fopen then .done (-1, ctx.fd)
  else if !s.mtd_scan_partitions then .done (-1, ctx.fd)
  else if !s.mtd_find_partition_by_name then .done (-1, ctx.fd)
  else if !s.opens then .done (-1, ctx.fd)
  else if !s.mtd_write_partition then .done (-1, ctx.fd)
  else do
    let (success, ctx) ← restoreLoop d s f.length f ctx
    if !success then .done (-1, ctx.fd)
    else
      -- The results of the next two calls are printed only.
      let (_, ctx) ← mtd_erase_blocks d ctx (-1)
      let (_, fd) ← mtd_write_close d s.close ctx
      .done (0, fd)

/-! ## What is expected -/

/-- All of the file was written and verified, block after block, and is on the flash. -/
structure Restored (p : MtdPartition) (f : Bytes) (fd : WriteFd) : Prop where
  data : fd.verified.map Prod.snd = BootableRecovery.paddedBlocks p.erase_size 0 f
  order : (fd.verified.map Prod.fst).Pairwise (· < ·)
  inside : ∀ v ∈ fd.verified, InPartition p v.1
  holds : ∀ v ∈ fd.verified, fd.flash v.1 = v.2

/-- The end of the file, which does not fill a block, with its padding. -/
def lastBlock (p : MtdPartition) (f : Bytes) : Bytes :=
  partialBlock p.erase_size f ++
    List.replicate (p.erase_size - (partialBlock p.erase_size f).length) 0

/-- When the blocks before it are stored and there is a last block, it is taken by a block
that follows, or when the blocks are visited a second time from where the offset was
left. -/
def LastBlockFits (time : Nat) (f : Bytes) : Prop :=
  ∀ k, Stores d time 0 (wholeBlocks p.erase_size f) k → partialBlock p.erase_size f ≠ [] →
    ¬ (Full d (time + k) k (lastBlock p f) ∧
      Full d (time + k + (blocks p - k)) (d.leaves (time + k) k (blocks p - k) k) (lastBlock p f))

end Code

variable {p : MtdPartition} {d : Device p} {s : Restore}

/-! ## The loop -/

/-- The loop calls `mtd_write_data` with pieces of the file. -/
theorem restoreLoop_pieces (d : Device p) (s : Restore) (fuel : Nat) : ∀ f : Bytes,
    f.length ≤ fuel → ∃ pieces : List Bytes, pieces.flatten = f ∧ ∀ ctx,
      restoreLoop d s fuel f ctx = Stream.writePieces p.erase_size (write_block d) pieces ctx := by
  have hsize := s.bufsiz_pos
  induction fuel with
  | zero =>
    intro f hfuel
    obtain rfl : f = [] := List.eq_nil_of_length_eq_zero (by omega)
    exact ⟨[], rfl, fun ctx => by simp [restoreLoop, Stream.writePieces]⟩
  | succ fuel ih =>
    intro f hfuel
    have hlen : (f.take s.BUFSIZ).length = min s.BUFSIZ f.length := List.length_take
    by_cases hmore : 0 < (f.take s.BUFSIZ).length
    · obtain ⟨pieces, hflat, heq⟩ := ih (f.drop s.BUFSIZ) (by rw [List.length_drop]; omega)
      refine ⟨f.take s.BUFSIZ :: pieces, ?_, fun ctx => ?_⟩
      · rw [List.flatten_cons, hflat, List.take_append_drop]
      · unfold restoreLoop
        rw [if_pos hmore, Stream.writePieces]
        simp only [heq]
        rfl
    · obtain rfl : f = [] := List.eq_nil_of_length_eq_zero (by omega)
      exact ⟨[], rfl, fun ctx => by simp [restoreLoop, Stream.writePieces]⟩

/-- The loop stores the whole blocks of the file and keeps the rest, or fails. -/
theorem restoreLoop_spec {time : Nat} {fd : WriteFd} (hat : At p time 0 fd)
    (hnone : fd.verified = []) (f : Bytes) :
    (∃ k fd', Stores d time 0 (wholeBlocks p.erase_size f) k ∧ At p time k fd' ∧
      fd'.verified.map Prod.snd = wholeBlocks p.erase_size f ∧
      restoreLoop d s f.length f ⟨[], fd⟩ = .done (true, ⟨partialBlock p.erase_size f, fd'⟩)) ∨
    (∃ ctx, restoreLoop d s f.length f ⟨[], fd⟩ = .done (false, ctx) ∧
      ∀ k, ¬ Stores d time 0 (wholeBlocks p.erase_size f) k) := by
  obtain ⟨pieces, hflat, hloop⟩ := restoreLoop_pieces d s f.length f le_rfl
  have hsettled : Stream.settled
      (Stream.writePieces p.erase_size (write_block d) pieces ⟨[], fd⟩) = _ :=
    Stream.writePieces_eq p.erase_pos pieces ⟨[], fd⟩ p.erase_pos
  obtain ⟨⟨ok, fd'⟩, hfeed, hr⟩ := feed_spec (d := d) (wholeBlocks p.erase_size f) hat
  rw [hloop]
  rw [hflat, List.nil_append, Stream.writeStream, hfeed] at hsettled
  rcases hr with ⟨hok, k, hstores, hat', hdata⟩ | ⟨hok, hno⟩
  · simp only at hok
    subst hok
    rw [hnone] at hdata
    exact .inl ⟨k, fd', hstores, hat', hdata, Stream.settled_eq_inr hsettled⟩
  · simp only at hok
    subst hok
    obtain ⟨ctx, hctx, -⟩ := Stream.settled_eq_inl hsettled
    exact .inr ⟨ctx, hctx, hno⟩

/-! ## The last block -/

section Finish

variable {time k : Nat} {fd fd' : WriteFd} {f : Bytes}

theorem Kept.untouched (h : Kept p k fd) (hsame : Untouched k fd fd') : Kept p k fd' :=
  h.frame hsame.verified hsame.frame

/-- When no block takes the data the second attempt starts at a block that follows. -/
theorem Kept.ranOut (h : Kept p k fd) (hout : RanOut d k k fd fd') :
    Kept p (d.leaves fd.time k (blocks p - k) k) fd' :=
  (h.frame hout.verified hout.frame).mono (Device.le_leaves d _ _ _ _ le_rfl le_rfl)

theorem Kept.restored (h : Kept p k fd)
    (hdata : fd.verified.map Prod.snd = BootableRecovery.paddedBlocks p.erase_size 0 f) :
    Restored p f fd :=
  ⟨hdata, h.order, h.inside, h.holds⟩

theorem paddedBlocks_last (hpart : partialBlock p.erase_size f ≠ []) :
    BootableRecovery.paddedBlocks p.erase_size 0 f =
      wholeBlocks p.erase_size f ++ [lastBlock p f] := by
  rw [BootableRecovery.paddedBlocks, if_neg hpart, lastBlock]

theorem paddedBlocks_none (hpart : partialBlock p.erase_size f = []) :
    BootableRecovery.paddedBlocks p.erase_size 0 f = wholeBlocks p.erase_size f := by
  rw [BootableRecovery.paddedBlocks, if_pos hpart, List.append_nil]

/-- With nothing pending `mtd_write_close` leaves the verified blocks alone. -/
theorem mtd_write_close_empty (hpos : fd.pos = k * p.erase_size) (closes : Bool) :
    ∃ ok fd', mtd_write_close d closes ⟨[], fd⟩ = .done (ok, fd') ∧ Untouched k fd fd' := by
  obtain ⟨r, fd', herase, hsame⟩ := mtd_erase_blocks_empty (d := d) ⟨[], fd⟩ rfl hpos 0
  unfold mtd_write_close
  rw [herase]
  exact ⟨_, _, rfl, hsame⟩

/-- The two calls after the loop. -/
theorem finish_spec (hat : At p time k fd)
    (hdata : fd.verified.map Prod.snd = wholeBlocks p.erase_size f) :
    ∃ fd', (do
      let (_, ctx) ← mtd_erase_blocks d ⟨partialBlock p.erase_size f, fd⟩ (-1)
      let (_, fd) ← mtd_write_close d s.close ctx
      .done ((0 : Int), fd)) = .done (0, fd') ∧
      (Restored p f fd' ↔ (partialBlock p.erase_size f ≠ [] →
        ¬ (Full d (time + k) k (lastBlock p f) ∧
          Full d (time + k + (blocks p - k)) (d.leaves (time + k) k (blocks p - k) k)
            (lastBlock p f)))) := by
  by_cases hpart : partialBlock p.erase_size f = []
  · obtain ⟨r, fd₁, herase, hsame₁⟩ := mtd_erase_blocks_empty (d := d)
      ⟨partialBlock p.erase_size f, fd⟩ hpart hat.pos (-1)
    obtain ⟨ok, fd₂, hclose, hsame₂⟩ := mtd_write_close_empty (d := d)
      (hsame₁.pos.trans hat.pos) s.close
    rw [herase, Outcome.done_bind]
    simp only [hclose, Outcome.done_bind]
    refine ⟨fd₂, rfl, iff_of_true ?_ fun hne => absurd hpart hne⟩
    refine ((hat.kept.untouched hsame₁).untouched hsame₂).restored ?_
    rw [hsame₂.verified, hsame₁.verified, hdata, paddedBlocks_none hpart]
  have htime := hat.time
  rcases mtd_erase_blocks_pending (d := d) ⟨partialBlock p.erase_size f, fd⟩ hpart hat.pos
    rfl (-1) with ⟨b, fd₁, r, fd₂, hfirst, hwrote, herase, hsame⟩ | ⟨fd₁, hfull, hout, herase⟩
  · -- The last block is stored before the rest is erased.
    obtain ⟨ok, fd₃, hclose, hsame₃⟩ := mtd_write_close_empty (d := d)
      (hsame.pos.trans hwrote.pos) s.close
    rw [herase, Outcome.done_bind]
    simp only [hclose, Outcome.done_bind]
    simp only [htime] at hfirst
    refine ⟨fd₃, rfl, iff_of_true ?_ fun _ hno => hfirst.not_full hno.1⟩
    refine (((hat.kept.wrote hfirst hwrote).untouched hsame).untouched hsame₃).restored ?_
    rw [hsame₃.verified, hsame.verified, hwrote.verified, List.map_append, hdata,
      paddedBlocks_last hpart]
    rfl
  · have hkept := hat.kept.ranOut hout
    have htime₁ : fd₁.time = time + k + (blocks p - k) := by rw [hout.time, htime]
    simp only [htime] at hfull hkept
    have hpos₁ := hout.pos
    simp only [htime] at hpos₁
    rw [herase, Outcome.done_bind]
    rcases mtd_erase_blocks_pending (d := d) ⟨partialBlock p.erase_size f, fd₁⟩ hpart
      hpos₁ rfl 0 with ⟨b, fd₂, r, fd₃, hfirst, hwrote, hclose, hsame⟩ | ⟨fd₂, hfull₂, hout₂, hclose⟩
    · -- The second attempt stores it.
      simp only [mtd_write_close, hclose, Outcome.done_bind]
      simp only [htime₁] at hfirst
      refine ⟨fd₃, rfl, iff_of_true ?_ fun _ hno => hfirst.not_full hno.2⟩
      refine ((hkept.wrote hfirst hwrote).untouched hsame).restored ?_
      rw [hsame.verified, hwrote.verified, List.map_append, hout.verified, hdata,
        paddedBlocks_last hpart]
      rfl
    · -- It is lost.
      simp only [mtd_write_close, hclose, Outcome.done_bind]
      simp only [htime₁] at hfull₂
      refine ⟨fd₂, rfl, iff_of_false (fun hrestored => ?_) fun h => h hpart ⟨hfull, hfull₂⟩⟩
      have hall := hrestored.data
      rw [hout₂.verified, hout.verified, hdata, paddedBlocks_last hpart] at hall
      simpa using congrArg List.length hall

end Finish

/-! ## The result -/

/-- The result 0 means that the file is on the flash exactly when its last block finds its
place. -/
theorem restore_raw_partition_iff (d : Device p) (s : Restore) (flash : Flash) (time : Nat)
    (f : Bytes) :
    (∃ r, cmd_mtd_restore_raw_partition d s flash time f = .done r ∧
      (r.1 = 0 → Restored p f r.2)) ↔ (s.starts = true → LastBlockFits d time f) := by
  have hat : At p time 0 ⟨0, flash, [], time, []⟩ :=
    ⟨(Nat.zero_mul _).symm, rfl, List.Pairwise.nil, nofun, nofun, nofun⟩
  by_cases hstarts : s.starts = true
  · have hrun : cmd_mtd_restore_raw_partition d s flash time f = (do
        let (success, ctx) ← restoreLoop d s f.length f (Attempts.mtd_write_partition flash time)
        if !success then .done (-1, ctx.fd)
        else
          let (_, ctx) ← mtd_erase_blocks d ctx (-1)
          let (_, fd) ← mtd_write_close d s.close ctx
          .done (0, fd)) := by
      simp only [Restore.starts, Bool.and_eq_true] at hstarts
      simp [cmd_mtd_restore_raw_partition, hstarts]
    rw [hrun]
    rcases restoreLoop_spec (s := s) hat rfl f with
      ⟨k, fd, hstores, hat', hdata, hloop⟩ | ⟨ctx, hloop, hno⟩
    · obtain ⟨fd', hfinish, hiff⟩ := finish_spec (d := d) (s := s) hat' hdata
      have hresult : (∃ r, (.done (0, fd') : Outcome (Int × WriteFd)) = .done r ∧
          (r.1 = 0 → Restored p f r.2)) ↔ Restored p f fd' :=
        ⟨fun ⟨_, heq, h⟩ => by cases heq; exact h rfl, fun h => ⟨_, rfl, fun _ => h⟩⟩
      rw [Attempts.mtd_write_partition, hloop, Outcome.done_bind]
      simp only [Bool.not_true, Bool.false_eq_true, if_false]
      rw [hfinish, hresult, hiff]
      constructor
      · intro h _ k' hstores'
        rwa [hstores'.unique hstores]
      · exact fun h => h hstarts k hstores
    · rw [Attempts.mtd_write_partition, hloop, Outcome.done_bind]
      simp only [Bool.not_false, if_true]
      exact iff_of_true ⟨_, rfl, nofun⟩ fun _ k hstores => absurd hstores (hno k)
  · refine iff_of_true ?_ fun h => absurd h hstarts
    unfold cmd_mtd_restore_raw_partition
    split
    · exact ⟨_, rfl, nofun⟩
    split
    · exact ⟨_, rfl, nofun⟩
    split
    · exact ⟨_, rfl, nofun⟩
    split
    · exact ⟨_, rfl, nofun⟩
    split
    · exact ⟨_, rfl, nofun⟩
    · simp_all [Restore.starts]

/-- A partition of two blocks of two bytes. -/
def fourBytes : MtdPartition := ⟨4, 2, Nat.two_pos, by decide⟩

/-- The first block takes what is written, the second is bad. -/
def oneGood : Device fourBytes := fun _ b =>
  { badblock := if b = 0 then .good else .bad
    fault := fun _ => .none
    left := fun _ _ => [0, 0]
    left_length := fun _ _ => rfl }

/-- Of a file of three bytes the third finds no block, and the result is 0. -/
theorem restore_raw_partition_lost :
    ∃ fd, cmd_mtd_restore_raw_partition oneGood ⟨true, true, true, true, true, true, 1024, by decide⟩
      (fun _ => [255, 255]) 0 [1, 2, 3] = .done (0, fd) ∧ fd.verified = [(0, [1, 2])] ∧
      ¬ Restored fourBytes [1, 2, 3] fd := by
  have hrun : (do
      let (ret, fd) ← cmd_mtd_restore_raw_partition oneGood
        ⟨true, true, true, true, true, true, 1024, by decide⟩ (fun _ => [255, 255]) 0 [1, 2, 3]
      .done (ret, fd.verified)) = .done (0, [(0, [1, 2])]) := by decide +kernel
  obtain ⟨⟨ret, fd⟩, hcmd, hret⟩ := Outcome.bind_eq_done.mp hrun
  simp only [Outcome.done.injEq, Prod.mk.injEq] at hret
  obtain ⟨rfl, hverified⟩ := hret
  refine ⟨fd, hcmd, hverified, fun hrestored => ?_⟩
  have hdata := hrestored.data
  rw [hverified] at hdata
  revert hdata
  decide

end BootableRecovery.Mtdutils.Attempts
