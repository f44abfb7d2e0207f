import BootableRecovery.Lib.Turns
import BootableRecovery.Dedupe.Extract

/-!
# `dedupe.c`: copying under errors

The loops of `do_sha256sum` and `copy_file` for every sequence of answers that `fread`,
`read` and `write` can give: what they transfer can be short, and each call can fail. A
file is its bytes that were not read yet.

A failed `read` returns -1, which is then the length of the write. As a `size_t` it is
more than `SSIZE_MAX`, and `write` refuses it with -1, so the loop goes on. A `fread`
that fails does not set the end-of-file indicator that `do_sha256sum` waits for.

Main results:
* `do_sha256sum_done`, `copy_file_done`: what is read is everything, and a copy that
  returns 0 is complete.
* `store_file_record`: a record is added only when the blob is stored;
  `store_file_addressed` keeps what this needs of the blobs that are there.
* `copies_safely_iff`: the loops end if and only if the errors do not persist.
-/

namespace BootableRecovery.Dedupe

def BUFSIZ : Nat := 1024

/-- The answers of the calls. A `fread` can fail after some bytes; a `read` and a
`write` fail or have a limit for what they transfer, which is at least one byte for a
`read`. -/
structure Io where
  fopens : Bool
  freads : Nat → Option Nat
  srcOpens : Bool
  dstOpens : Bool
  reads : Nat → Option Nat
  writes : Nat → Option Nat
  stats : Bool
  renames : Bool

namespace Io

variable (io : Io)

/-! ## The code -/

/-- One turn of `do_sha256sum`: the bytes of the file that are left, and those that
`SHA256_Update` got. The loop ends with a `fread` that meets the end of the file. -/
def shaTurn (k : Nat) (s : Bytes × Bytes) : (Bytes × Bytes) ⊕ Bytes :=
  match io.freads k with
  | none =>
    let rdata := s.1.take BUFSIZ
    if rdata.length < BUFSIZ then .inr (s.2 ++ rdata)
    else .inl (s.1.drop BUFSIZ, s.2 ++ rdata)
  | some n =>
    let rdata := s.1.take (min n (BUFSIZ - 1))
    .inl (s.1.drop (min n (BUFSIZ - 1)), s.2 ++ rdata)

def do_sha256sum (sha256 : Bytes → Digest) (fuel : Nat) (mfile : Bytes) : Outcome Digest := do
  let fed ← loop io.shaTurn fuel 0 (mfile, [])
  .done (sha256 fed)

/-- `bytes_read` and what is in `buf`. -/
def read (k : Nat) (srcfd : Bytes) : Int × Bytes :=
  match io.reads k with
  | none => (-1, [])
  | some n =>
    let buf := srcfd.take (min (n + 1) 4096)
    (buf.length, buf)

/-- The result of `write`, and the file. -/
def write (k : Nat) (buf : Bytes) (bytes_read : Int) (dstfd : Bytes) : Int × Bytes :=
  if bytes_read < 0 then (-1, dstfd)
  else
    match io.writes k with
    | none => (-1, dstfd)
    | some n => ((buf.take n).length, dstfd ++ buf.take n)

/-- One turn of `copy_file`: what is left of the source, and the destination. -/
def copyTurn (k : Nat) (s : Bytes × Bytes) : (Bytes × Bytes) ⊕ (Int × Bytes) :=
  let (bytes_read, buf) := io.read k s.1
  if bytes_read = 0 then .inr (0, s.2)
  else
    let (bytes_written, dst) := io.write k buf bytes_read s.2
    if bytes_written ≠ bytes_read then .inr (5, dst)
    else .inl (s.1.drop buf.length, dst)

/-- `copy_file`: its status, and the destination, which was `old` before. -/
def copy_file (fuel : Nat) (src : Bytes) (old : Option Bytes) : Outcome (Int × Option Bytes) :=
  if io.srcOpens then
    if io.dstOpens then do
      let (ret, dst) ← loop io.copyTurn fuel 0 (src, [])
      .done (ret, some dst)
    else .done (4, old)
  else .done (3, old)

/-- The manifest with the record of a file. -/
def addRecord (out_key : Bytes) (st : Stat) (d : Disk) : Disk :=
  { d with manifest := d.manifest ++ fileFields out_key (wrap32 st.st_size) }

/-- `store_file`. A blob of the same size is not copied again. -/
def store_file (sha256 : Bytes → Digest) (fuel : Nat) (st : Stat) (content : Bytes) (d : Disk) :
    Outcome (Int × Disk) :=
  if io.fopens then do
    let sumdata ← io.do_sha256sum sha256 fuel content
    let out_blob := key (hex sumdata.1)
    let file_ok := io.stats ∧
      (d.blobs out_blob).map (fun blob => wrap32 blob.length) = some (wrap32 st.st_size)
    if file_ok then .done (0, addRecord out_blob st d)
    else do
      let (ret, tmp) ← io.copy_file fuel content (d.blobs (tmpName out_blob))
      let copied := d.set (tmpName out_blob) tmp
      if ret ≠ 0 then .done (ret, copied)
      else if io.renames then
        .done (0, addRecord out_blob st ((copied.set (tmpName out_blob) none).set out_blob tmp))
      else .done (-1, copied)
  else .done (1, d)

/-! ## Results that are returned -/

/-- What was taken from the file and what is left of it are the file. -/
def Fed (content : Bytes) (s : Bytes × Bytes) : Prop := s.2 ++ s.1 = content

theorem Fed.advance {content : Bytes} {s : Bytes × Bytes} (h : Fed content s) (n : Nat) :
    Fed content (s.1.drop n, s.2 ++ s.1.take n) := by
  simpa [Fed] using h

theorem shaTurn_eq (k : Nat) (s : Bytes × Bytes) :
    io.shaTurn k s =
      match io.freads k with
      | none =>
        if s.1.length < BUFSIZ then .inr (s.2 ++ s.1)
        else .inl (s.1.drop BUFSIZ, s.2 ++ s.1.take BUFSIZ)
      | some n => .inl (s.1.drop (min n (BUFSIZ - 1)), s.2 ++ s.1.take (min n (BUFSIZ - 1))) := by
  unfold shaTurn
  cases io.freads k with
  | none =>
    simp only [List.length_take]
    by_cases hlt : s.1.length < BUFSIZ
    · rw [if_pos hlt, if_pos (by omega), List.take_of_length_le hlt.le]
    · rw [if_neg hlt, if_neg (by omega)]
  | some n => rfl

/-- `SHA256_Update` has got all of the file. -/
theorem do_sha256sum_done {sha256 : Bytes → Digest} {fuel : Nat} {mfile : Bytes} {digest : Digest}
    (h : io.do_sha256sum sha256 fuel mfile = .done digest) : digest = sha256 mfile := by
  obtain ⟨fed, hloop, hdigest⟩ := Outcome.bind_eq_done.mp h
  have hfed : fed = mfile := by
    have hstart : Fed mfile (mfile, []) := List.nil_append mfile
    refine loop_rule (I := Fed mfile) (Q := fun fed => fed = mfile) ?_ ?_ hstart hloop
    · intro k s s' hs hturn
      rw [shaTurn_eq] at hturn
      split at hturn
      · split at hturn
        · cases hturn
        · exact Sum.inl.inj hturn ▸ hs.advance BUFSIZ
      · exact Sum.inl.inj hturn ▸ hs.advance _
    · intro k s fed hs hturn
      rw [shaTurn_eq] at hturn
      split at hturn
      · split at hturn
        · exact (Sum.inr.inj hturn).symm.trans hs
        · cases hturn
      · cases hturn
  rw [← Outcome.done.inj hdigest, hfed]

/-- What one turn of `copy_file` does: a failed `read` changes nothing, a chunk is written
as a whole, or the loop ends. -/
theorem copyTurn_eq (k : Nat) (s : Bytes × Bytes) :
    io.copyTurn k s =
      match io.reads k with
      | none => .inl s
      | some n =>
        if s.1 = [] then .inr (0, s.2)
        else
          match io.writes k with
          | none => .inr (5, s.2)
          | some m =>
            if (s.1.take (min (n + 1) 4096)).length ≤ m then
              .inl (s.1.drop (min (n + 1) 4096), s.2 ++ s.1.take (min (n + 1) 4096))
            else .inr (5, s.2 ++ (s.1.take (min (n + 1) 4096)).take m) := by
  unfold copyTurn read write
  cases hread : io.reads k with
  | none => simp
  | some n =>
    have hzero : ((s.1.take (min (n + 1) 4096)).length : Int) = 0 ↔ s.1 = [] := by
      rw [Int.natCast_eq_zero, List.length_eq_zero_iff, List.take_eq_nil_iff]
      exact or_iff_right (by omega)
    have hdrop : s.1.drop (s.1.take (min (n + 1) 4096)).length = s.1.drop (min (n + 1) 4096) := by
      rw [List.length_take]
      rcases Nat.le_total (min (n + 1) 4096) s.1.length with hle | hle
      · rw [Nat.min_eq_left hle]
      · rw [Nat.min_eq_right hle, List.drop_length, List.drop_of_length_le hle]
    have hneg : ¬ ((s.1.take (min (n + 1) 4096)).length : Int) < 0 := by omega
    simp only [hzero, hdrop, if_neg hneg]
    split
    · rfl
    · cases hwrite : io.writes k with
      | none =>
        simp only
        rw [if_pos (by omega)]
      | some m =>
        generalize s.1.take (min (n + 1) 4096) = buf
        simp only
        by_cases hle : buf.length ≤ m
        · rw [if_pos hle, List.take_of_length_le hle, if_neg (by simp)]
        · rw [if_neg hle, if_pos (by rw [List.length_take]; omega)]

/-- A copy that returns 0 has all the bytes of the source. -/
theorem copy_file_done {fuel : Nat} {src : Bytes} {old dst : Option Bytes}
    (h : io.copy_file fuel src old = .done (0, dst)) : dst = some src := by
  unfold copy_file at h
  split at h
  · split at h
    · obtain ⟨⟨ret, copied⟩, hloop, hret⟩ := Outcome.bind_eq_done.mp h
      obtain ⟨rfl, rfl⟩ := Prod.mk.inj (Outcome.done.inj hret)
      have hstart : Fed src (src, []) := List.nil_append src
      have hwhole : (0 : Int) = 0 → copied = src := by
        refine loop_rule (I := Fed src) (Q := fun x => x.1 = 0 → x.2 = src) ?_ ?_ hstart hloop
        · intro k s s' hs hturn
          rw [copyTurn_eq] at hturn
          split at hturn
          · exact Sum.inl.inj hturn ▸ hs
          · split at hturn
            · cases hturn
            · split at hturn
              · cases hturn
              · split at hturn
                · exact Sum.inl.inj hturn ▸ hs.advance _
                · cases hturn
        · intro k s x hs hturn hzero
          rw [copyTurn_eq] at hturn
          split at hturn
          · cases hturn
          · split at hturn
            · rename_i hnil
              obtain rfl := Sum.inr.inj hturn
              simpa [Fed, hnil] using hs
            · split at hturn
              · obtain rfl := Sum.inr.inj hturn
                cases hzero
              · split at hturn
                · cases hturn
                · obtain rfl := Sum.inr.inj hturn
                  cases hzero
      rw [hwhole rfl]
    · cases (Prod.mk.inj (Outcome.done.inj h)).1
  · cases (Prod.mk.inj (Outcome.done.inj h)).1

/-- When `store_file` has added a record, a file with the digest of the content is
stored under its name. -/
theorem store_file_record {sha256 : Bytes → Digest} {fuel : Nat} {st : Stat} {content : Bytes}
    {d d' : Disk} {ret : Int} (hd : Addressed sha256 d)
    (h : io.store_file sha256 fuel st content d = .done (ret, d'))
    (hrecord : d'.manifest ≠ d.manifest) :
    ∃ blob, d'.blobs (blobName sha256 content) = some blob ∧ sha256 blob = sha256 content := by
  unfold store_file at h
  split at h
  · obtain ⟨sumdata, hsum, h⟩ := Outcome.bind_eq_done.mp h
    obtain rfl := io.do_sha256sum_done hsum
    simp only at h
    split at h
    · rename_i hok
      obtain ⟨-, rfl⟩ := Prod.mk.inj (Outcome.done.inj h)
      obtain ⟨blob, hblob, -⟩ := Option.map_eq_some_iff.mp hok.2
      have hname := hd _ blob hblob (blobName_not_tmp sha256 content)
      rw [← blobName_eq] at hname
      exact ⟨blob, hblob, (blobName_inj hname).symm⟩
    · obtain ⟨⟨ret', tmp⟩, hcopy, h⟩ := Outcome.bind_eq_done.mp h
      simp only at h
      split at h
      · obtain ⟨-, rfl⟩ := Prod.mk.inj (Outcome.done.inj h)
        exact absurd rfl hrecord
      · rename_i hzero
        obtain rfl : ret' = 0 := not_not.mp hzero
        split at h
        · obtain ⟨-, rfl⟩ := Prod.mk.inj (Outcome.done.inj h)
          obtain rfl := io.copy_file_done hcopy
          exact ⟨content, by simp [addRecord, blobName, Disk.set], rfl⟩
        · obtain ⟨-, rfl⟩ := Prod.mk.inj (Outcome.done.inj h)
          exact absurd rfl hrecord
  · obtain ⟨-, rfl⟩ := Prod.mk.inj (Outcome.done.inj h)
    exact absurd rfl hrecord

/-- The blobs keep the names of their contents, so a blob that is found later is the
blob of its digest. -/
theorem store_file_addressed {sha256 : Bytes → Digest} {fuel : Nat} {st : Stat} {content : Bytes}
    {d d' : Disk} {ret : Int} (hd : Addressed sha256 d)
    (h : io.store_file sha256 fuel st content d = .done (ret, d')) : Addressed sha256 d' := by
  unfold store_file at h
  split at h
  · obtain ⟨sumdata, hsum, h⟩ := Outcome.bind_eq_done.mp h
    obtain rfl := io.do_sha256sum_done hsum
    simp only at h
    split at h
    · obtain ⟨-, rfl⟩ := Prod.mk.inj (Outcome.done.inj h)
      exact hd.manifest _
    · obtain ⟨⟨ret', tmp⟩, hcopy, h⟩ := Outcome.bind_eq_done.mp h
      have hcopied := hd.set_tmp (blobName sha256 content) tmp
      simp only at h
      split at h
      · obtain ⟨-, rfl⟩ := Prod.mk.inj (Outcome.done.inj h)
        exact hcopied
      · rename_i hzero
        obtain rfl : ret' = 0 := not_not.mp hzero
        split at h
        · obtain ⟨-, rfl⟩ := Prod.mk.inj (Outcome.done.inj h)
          obtain rfl := io.copy_file_done hcopy
          exact ((hcopied.set_tmp (blobName sha256 content) none).set_blob content).manifest _
        · obtain ⟨-, rfl⟩ := Prod.mk.inj (Outcome.done.inj h)
          exact hcopied
  · obtain ⟨-, rfl⟩ := Prod.mk.inj (Outcome.done.inj h)
    exact hd

/-! ## Termination -/

/-- What the first `k` calls have taken from the file, when the `j`-th can take
`amount j`. -/
def total (amount : Nat → Nat) (k : Nat) : Nat := ((List.range k).map amount).sum

theorem total_succ (amount : Nat → Nat) (k : Nat) :
    total amount (k + 1) = total amount k + amount k := by
  simp [total, List.range_succ]

/-- The state of a loop before the `k`-th call. -/
def stateAt (amount : Nat → Nat) (content : Bytes) (k : Nat) : Bytes × Bytes :=
  (content.drop (total amount k), content.take (total amount k))

theorem stateAt_succ (amount : Nat → Nat) (content : Bytes) (k : Nat) :
    stateAt amount content (k + 1) = ((stateAt amount content k).1.drop (amount k),
      (stateAt amount content k).2 ++ (stateAt amount content k).1.take (amount k)) := by
  rw [stateAt, total_succ]
  simp only [stateAt, List.drop_drop, List.take_add]

theorem stateAt_length (amount : Nat → Nat) (content : Bytes) (k : Nat) :
    (stateAt amount content k).1.length = content.length - total amount k :=
  List.length_drop

/-- How many bytes a `fread` can take. -/
def freadAmount (k : Nat) : Nat :=
  match io.freads k with
  | none => BUFSIZ
  | some n => min n (BUFSIZ - 1)

/-- How many bytes a `read` can take. -/
def readAmount (k : Nat) : Nat :=
  match io.reads k with
  | none => 0
  | some n => min (n + 1) 4096

/-- From some call on every `fread` fails, and before that none has met the end of the
file. -/
def ShaErrorsPersist (mfile : Bytes) : Prop :=
  ∃ n, (∀ j, n ≤ j → io.freads j ≠ none) ∧
    ∀ k < n, io.freads k = none → total io.freadAmount k + BUFSIZ ≤ mfile.length

/-- Both files are opened, from some call on every `read` fails, and before that none has
met the end of the file and no `write` has failed or been short. -/
def CopyErrorsPersist (src : Bytes) : Prop :=
  (io.srcOpens = true ∧ io.dstOpens = true) ∧ ∃ n, (∀ j, n ≤ j → io.reads j = none) ∧
    ∀ k < n, io.reads k ≠ none → total io.readAmount k < src.length ∧
      ∃ m, io.writes k = some m ∧ min (io.readAmount k) (src.length - total io.readAmount k) ≤ m

theorem shaTurn_goes_on {mfile : Bytes} {k : Nat}
    (h : io.freads k = none → total io.freadAmount k + BUFSIZ ≤ mfile.length) :
    io.shaTurn k (stateAt io.freadAmount mfile k) =
      .inl (stateAt io.freadAmount mfile (k + 1)) := by
  have hlen := stateAt_length io.freadAmount mfile k
  rw [shaTurn_eq, stateAt_succ, freadAmount]
  cases hread : io.freads k with
  | none =>
    have hfull := h hread
    simp only
    rw [if_neg (by omega)]
  | some n => rfl

theorem shaTurn_ends {mfile : Bytes} {k : Nat}
    (h : ¬ (io.freads k = none → total io.freadAmount k + BUFSIZ ≤ mfile.length)) :
    ∃ fed, io.shaTurn k (stateAt io.freadAmount mfile k) = .inr fed := by
  obtain ⟨hread, hend⟩ := Classical.not_imp.mp h
  have hlen := stateAt_length io.freadAmount mfile k
  have hsize : 0 < BUFSIZ := by decide
  rw [shaTurn_eq, hread]
  simp only
  rw [if_pos (by omega)]
  exact ⟨_, rfl⟩

/-- `do_sha256sum` runs forever if and only if the errors persist. -/
theorem do_sha256sum_spins_iff (sha256 : Bytes → Digest) (mfile : Bytes) :
    (∀ fuel, io.do_sha256sum sha256 fuel mfile = .spin) ↔ io.ShaErrorsPersist mfile := by
  have hloop : (∀ fuel, io.do_sha256sum sha256 fuel mfile = .spin) ↔
      ∀ fuel, loop io.shaTurn fuel 0 (stateAt io.freadAmount mfile 0) = .spin := by
    refine forall_congr' fun fuel => ?_
    have hstart : stateAt io.freadAmount mfile 0 = (mfile, []) := rfl
    rw [hstart, do_sha256sum]
    cases loop io.shaTurn fuel 0 (mfile, []) with
    | done fed => simp
    | fault => simp
    | spin => simp
  have hturns := @loop_spins_iff _ _ io.shaTurn (stateAt io.freadAmount mfile) _
    (fun k => io.shaTurn_goes_on) fun k => io.shaTurn_ends
  have hsize : 0 < BUFSIZ := by decide
  rw [hloop, hturns]
  refine forall_goes_on_iff (μ := fun k => mfile.length - total io.freadAmount k) ?_ ?_
  · intro k hread
    refine ⟨fun hnone => absurd hnone hread, ?_⟩
    simp only [total_succ]
    omega
  · intro k hgo hread
    have hnone : io.freads k = none := not_not.mp hread
    have hfull := hgo hnone
    have hamount : io.freadAmount k = BUFSIZ := by simp [freadAmount, hnone]
    simp only [total_succ, hamount]
    omega

theorem copyTurn_goes_on {src : Bytes} {k : Nat}
    (h : io.reads k ≠ none → total io.readAmount k < src.length ∧ ∃ m, io.writes k = some m ∧
      min (io.readAmount k) (src.length - total io.readAmount k) ≤ m) :
    io.copyTurn k (stateAt io.readAmount src k) = .inl (stateAt io.readAmount src (k + 1)) := by
  have hlen := stateAt_length io.readAmount src k
  rw [copyTurn_eq, stateAt_succ]
  cases hread : io.reads k with
  | none => simp [readAmount, hread]
  | some n =>
    obtain ⟨hmore, m, hwrite, hle⟩ := h (by simp [hread])
    have hamount : io.readAmount k = min (n + 1) 4096 := by simp [readAmount, hread]
    have hne : (stateAt io.readAmount src k).1 ≠ [] := fun hnil => by
      rw [hnil, List.length_nil] at hlen
      omega
    rw [hamount] at hle ⊢
    simp only [hwrite]
    rw [if_neg hne, if_pos (by rw [List.length_take, hlen]; exact hle)]

theorem copyTurn_ends {src : Bytes} {k : Nat}
    (h : ¬ (io.reads k ≠ none → total io.readAmount k < src.length ∧ ∃ m, io.writes k = some m ∧
      min (io.readAmount k) (src.length - total io.readAmount k) ≤ m)) :
    ∃ x, io.copyTurn k (stateAt io.readAmount src k) = .inr x := by
  obtain ⟨hread, hend⟩ := Classical.not_imp.mp h
  obtain ⟨n, hn⟩ := Option.ne_none_iff_exists'.mp hread
  have hlen := stateAt_length io.readAmount src k
  have hamount : io.readAmount k = min (n + 1) 4096 := by simp [readAmount, hn]
  rw [copyTurn_eq, hn]
  simp only
  split
  · exact ⟨_, rfl⟩
  · rename_i hne
    have hmore := List.length_pos_of_ne_nil hne
    cases hwrite : io.writes k with
    | none => exact ⟨_, rfl⟩
    | some m =>
      simp only
      rw [if_neg]
      · exact ⟨_, rfl⟩
      · intro hle
        rw [List.length_take, hlen, ← hamount] at hle
        exact hend ⟨by omega, m, hwrite, hle⟩

/-- `copy_file` runs forever if and only if the errors persist. -/
theorem copy_file_spins_iff (src : Bytes) (old : Option Bytes) :
    (∀ fuel, io.copy_file fuel src old = .spin) ↔ io.CopyErrorsPersist src := by
  by_cases hopens : io.srcOpens = true ∧ io.dstOpens = true
  · have hloop : (∀ fuel, io.copy_file fuel src old = .spin) ↔
        ∀ fuel, loop io.copyTurn fuel 0 (stateAt io.readAmount src 0) = .spin := by
      refine forall_congr' fun fuel => ?_
      have hstart : stateAt io.readAmount src 0 = (src, []) := rfl
      rw [hstart, copy_file, if_pos hopens.1, if_pos hopens.2]
      cases loop io.copyTurn fuel 0 (src, []) with
      | done x => simp
      | fault => simp
      | spin => simp
    have hturns := @loop_spins_iff _ _ io.copyTurn (stateAt io.readAmount src) _
      (fun k => io.copyTurn_goes_on) fun k => io.copyTurn_ends
    rw [hloop, hturns, CopyErrorsPersist, and_iff_right hopens]
    refine forall_goes_on_iff (μ := fun k => src.length - total io.readAmount k) ?_ ?_
    · intro k hread
      refine ⟨fun hsome => absurd hread hsome, ?_⟩
      simp only [total_succ]
      omega
    · intro k hgo hread
      obtain ⟨n, hn⟩ := Option.ne_none_iff_exists'.mp hread
      have hmore := (hgo hread).1
      have hamount : io.readAmount k = min (n + 1) 4096 := by simp [readAmount, hn]
      simp only [total_succ, hamount]
      omega
  · refine iff_of_false (fun hspin => ?_) fun h => hopens h.1
    have hreturn := hspin 0
    unfold copy_file at hreturn
    split at hreturn
    · split at hreturn
      · rename_i hsrc hdst
        exact hopens ⟨hsrc, hdst⟩
      · cases hreturn
    · cases hreturn

/-! ## Copying -/

/-- What is expected of the copying of a file: the loops end, a copy that returns 0 is
complete, and a record is added only when its blob is stored. -/
structure CopiesSafely (sha256 : Bytes → Digest) (content : Bytes) (old : Option Bytes) :
    Prop where
  sha_ends : ∃ fuel, io.do_sha256sum sha256 fuel content ≠ .spin
  copy_ends : ∃ fuel, io.copy_file fuel content old ≠ .spin
  whole : ∀ fuel dst, io.copy_file fuel content old = .done (0, dst) → dst = some content
  record : ∀ fuel st d ret d', Addressed sha256 d →
    io.store_file sha256 fuel st content d = .done (ret, d') → d'.manifest ≠ d.manifest →
    ∃ blob, d'.blobs (blobName sha256 content) = some blob ∧ sha256 blob = sha256 content

/-- Copying is safe if and only if neither the errors of `fread` nor those of `read`
persist. -/
theorem copies_safely_iff (sha256 : Bytes → Digest) (content : Bytes) (old : Option Bytes) :
    io.CopiesSafely sha256 content old ↔
      ¬ io.ShaErrorsPersist content ∧ ¬ io.CopyErrorsPersist content := by
  rw [← io.do_sha256sum_spins_iff sha256 content, ← io.copy_file_spins_iff content old]
  constructor
  · exact fun h => ⟨not_forall.mpr h.sha_ends, not_forall.mpr h.copy_ends⟩
  · rintro ⟨hsha, hcopy⟩
    exact ⟨not_forall.mp hsha, not_forall.mp hcopy, fun _ _ => io.copy_file_done,
      fun _ _ _ _ _ => io.store_file_record⟩

/-- A source whose reads all fail, as on a bad sector. -/
def failing : Io where
  fopens := true
  freads := fun _ => some 0
  srcOpens := true
  dstOpens := true
  reads := fun _ => none
  writes := fun _ => some 4096
  stats := true
  renames := true

/-- Both loops run forever on it. -/
theorem copies_safely_failing : (∀ fuel, failing.do_sha256sum emptySha256 fuel [7] = .spin) ∧
    (∀ fuel, failing.copy_file fuel [7] none = .spin) ∧
    ¬ failing.CopiesSafely emptySha256 [7] none := by
  have hsha : failing.ShaErrorsPersist [7] :=
    ⟨0, fun _ _ => by simp [failing], fun k hk => absurd hk (Nat.not_lt_zero k)⟩
  have hcopy : failing.CopyErrorsPersist [7] :=
    ⟨⟨rfl, rfl⟩, 0, fun _ _ => rfl, fun k hk => absurd hk (Nat.not_lt_zero k)⟩
  have hspins := (failing.copy_file_spins_iff [7] none).mpr hcopy
  refine ⟨(failing.do_sha256sum_spins_iff emptySha256 [7]).mpr hsha, hspins, fun h => ?_⟩
  obtain ⟨fuel, hne⟩ := h.copy_ends
  exact hne (hspins fuel)

end Io

end BootableRecovery.Dedupe
