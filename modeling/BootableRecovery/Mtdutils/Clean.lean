import BootableRecovery.Mtdutils.Chunking

/-!
# `mtdutils/mtdutils.c`: a partition without bad blocks

On a partition where no block is bad and nothing fails, the blocks one after the other are an
array of bytes. Reading from the start returns the front of the array, and writing from the
start replaces the front, with zeros up to the end of the last block.

Main results:
* `readFront_spec`: what is read, and when the partition is too short.
* `writePartition_clean`: what the partition holds after a write.
-/

namespace BootableRecovery.Mtdutils

/-- A device without bad blocks, on which nothing fails. -/
def cleanChip : Chip := ⟨some fun _ => false, fun _ _ => .none⟩

/-- The bytes of a partition, block after block. -/
def contents (p : MtdPartition) (flash : Flash) : Bytes :=
  ((List.range' 0 (blocks p)).map flash).flatten

/-- Every block holds as many bytes as its size says. -/
def Whole (p : MtdPartition) (flash : Flash) : Prop := ∀ b, (flash b).length = p.erase_size

variable {p : MtdPartition} {flash : Flash}

theorem blocks_mul_le (p : MtdPartition) : blocks p * p.erase_size < 2 ^ 31 := by
  have hle : blocks p * p.erase_size ≤ (wrap32 p.size).toNat := Nat.div_mul_le_self _ _
  have hlt := (wrap32_range p.size).2
  omega

theorem contents_length (h : Whole p flash) : (contents p flash).length = blocks p * p.erase_size := by
  have hall : ∀ d ∈ (List.range' 0 (blocks p)).map flash, d.length = p.erase_size := by
    intro d hd
    obtain ⟨b, -, rfl⟩ := List.mem_map.mp hd
    exact h b
  rw [contents, flatten_length_eq hall, List.length_map, List.length_range']

/-! ## Reading -/

theorem firstGood_clean {k : Nat} (h : k < blocks p) : FirstGood p (fun _ => false) k k :=
  ⟨le_rfl, inPartition_iff.mpr h, rfl, fun j hj hlt => by omega⟩

theorem clean_reliable (flash : Flash) : (ReadEnv.faultless cleanChip flash).Reliable fun _ => false :=
  faultless_reliable rfl flash

/-- Behind the last block nothing is read. -/
theorem read_block_end {k : Nat} {fd : ReadFd} (hpos : fd.pos = k * p.erase_size)
    (h : blocks p ≤ k) : read_block p (.faultless cleanChip flash) fd = .done none := by
  have hout : ¬ InPartition p k := fun hin => absurd (inPartition_iff.mp hin) (by omega)
  unfold read_block readLoop
  rw [hpos]
  exact (if_neg (by simp [ReadEnv.faultless])).trans (if_neg hout)

/-- The reader delivers the blocks in order. -/
theorem delivers_clean (h : Whole p flash) (n : Nat) : ∀ (k : Nat) (fd : ReadFd),
    fd.pos = k * p.erase_size → k + n = blocks p →
    Stream.Delivers (Stream.deviceReader (.faultless cleanChip flash) h) fd
      ((List.range' k n).map flash) := by
  induction n with
  | zero =>
    intro k fd hpos hk
    exact .stop (read_block_end hpos (by omega))
  | succ n ih =>
    intro k fd hpos hk
    obtain ⟨fd', hread, hpos'⟩ :=
      read_block_spec (clean_reliable flash) hpos (firstGood_clean (p := p) (by omega : k < blocks p))
    rw [List.range'_succ, List.map_cons]
    exact .block hread (ih (k + 1) fd' hpos' (by omega))

/-- A context that was just opened. -/
def openContext (p : MtdPartition) (buffer : { b : Bytes // b.length = p.erase_size }) :
    MtdReadContext := ⟨buffer, p.erase_size, ⟨0, 0, 0⟩⟩

theorem openContext_holds (h : Whole p flash) (buffer : { b : Bytes // b.length = p.erase_size }) :
    (Stream.MtdReadContext.stream (openContext p buffer)).Holds
      (Stream.deviceReader (.faultless cleanChip flash) h) (contents p flash) := by
  have hpos : (openContext p buffer).fd.pos = 0 * p.erase_size := (Nat.zero_mul _).symm
  have hnil : (buffer : Bytes).drop p.erase_size = [] := List.drop_of_length_le buffer.2.le
  refine ⟨⟨buffer.2, le_rfl⟩, _, delivers_clean h (blocks p) 0 _ hpos (Nat.zero_add _), ?_⟩
  have hpending : (Stream.MtdReadContext.stream (openContext p buffer)).pending = [] := hnil
  rw [hpending, List.nil_append]
  rfl

theorem mtd_read_data_clean (h : Whole p flash) (buffer : { b : Bytes // b.length = p.erase_size })
    {size : Nat} (hsize : size < 2 ^ 31) :
    (size ≤ blocks p * p.erase_size ∧ ∃ ctx', mtd_read_data p (.faultless cleanChip flash)
      (openContext p buffer) size = .done (some ((contents p flash).take size, ctx'))) ∨
    (blocks p * p.erase_size < size ∧ mtd_read_data p (.faultless cleanChip flash)
      (openContext p buffer) size = .done none) := by
  have hread := Stream.mtd_read_data_stream (.faultless cleanChip flash) h (openContext p buffer) size
  rw [hread, ← contents_length h]
  rcases Stream.mtd_read_data_holds p.erase_pos hsize (openContext_holds h buffer) with
    ⟨hle, ctx', hdata, -⟩ | ⟨hlt, hnone⟩
  · refine .inl ⟨hle, Stream.ofStream ctx', ?_⟩
    rw [hdata, Outcome.done_bind, Option.map_some]
  · refine .inr ⟨hlt, ?_⟩
    rw [hnone, Outcome.done_bind, Option.map_none]

/-- A size that is negative as an `int` reads nothing. -/
theorem mtd_read_data_negative (env : ReadEnv) (ctx : MtdReadContext) {size : Nat}
    (h : ¬ (0 < wrap32 size)) : mtd_read_data p env ctx size = .done (some ([], ctx)) := by
  unfold mtd_read_data readDataLoop
  exact if_neg h

/-- Open the partition, read `size` bytes and close it; `none` when another number is
returned. The buffer of the context is uninitialised. -/
def readFront (p : MtdPartition) (buffer : { b : Bytes // b.length = p.erase_size }) (flash : Flash)
    (size : Nat) : Outcome (Option Bytes) := do
  let r ← mtd_read_data p (.faultless cleanChip flash) (openContext p buffer) size
  match r with
  | none => .done none
  | some (data, _) => if data.length = size then .done (some data) else .done none

/-- Reading returns the front of the partition, if it is long enough. -/
theorem readFront_spec (h : Whole p flash) (buffer : { b : Bytes // b.length = p.erase_size })
    {size : Nat} (hsize_t : size < 2 ^ 32) :
    readFront p buffer flash size =
      .done (if size ≤ blocks p * p.erase_size then some ((contents p flash).take size)
        else none) := by
  have hcap := blocks_mul_le p
  unfold readFront
  by_cases hsize : size < 2 ^ 31
  · rcases mtd_read_data_clean h buffer hsize with ⟨hle, ctx', hread⟩ | ⟨hlt, hread⟩
    · have hdata : ((contents p flash).take size).length = size := by
        rw [List.length_take, contents_length h]
        exact Nat.min_eq_left hle
      rw [hread, Outcome.done_bind, if_pos hle]
      exact if_pos hdata
    · rw [hread, Outcome.done_bind, if_neg (Nat.not_le.mpr hlt)]
  · have hneg : ¬ 0 < wrap32 size := by
      unfold wrap32
      omega
    have hlong : ¬ size ≤ blocks p * p.erase_size := by
      generalize blocks p * p.erase_size = cap at hcap
      omega
    rw [mtd_read_data_negative _ _ hneg, Outcome.done_bind, if_neg hlong]
    have hne : ¬ ([] : Bytes).length = size := by
      rw [List.length_nil]
      omega
    exact if_neg hne

/-! ## Writing -/

theorem cleanChip_writable (b : Nat) : cleanChip.Writable b := ⟨rfl, .inl rfl⟩

/-- The flash with the blocks `ds` from block `k` on. -/
def writtenFlash (flash : Flash) : Nat → List Bytes → Flash
  | _, [] => flash
  | k, d :: ds => writtenFlash (Function.update flash k d) (k + 1) ds

theorem writtenFlash_below {j k : Nat} (ds : List Bytes) (hj : j < k) :
    writtenFlash flash k ds j = flash j := by
  induction ds generalizing flash k with
  | nil => rfl
  | cons d ds ih =>
    rw [writtenFlash, ih (by omega)]
    exact Function.update_of_ne (by omega) _ _

theorem map_writtenFlash (ds : List Bytes) : ∀ (flash : Flash) (k : Nat),
    (List.range' k ds.length).map (writtenFlash flash k ds) = ds := by
  induction ds with
  | nil => exact fun _ _ => rfl
  | cons d ds ih =>
    intro flash k
    rw [List.length_cons, List.range'_succ, List.map_cons, writtenFlash, ih]
    rw [writtenFlash_below ds (Nat.lt_succ_self k), Function.update_self]

theorem whole_writtenFlash (h : Whole p flash) {ds : List Bytes}
    (hds : ∀ d ∈ ds, d.length = p.erase_size) (k : Nat) : Whole p (writtenFlash flash k ds) := by
  induction ds generalizing flash k with
  | nil => exact h
  | cons d ds ih =>
    refine ih (fun b => ?_) (fun d' hd' => hds d' (List.mem_cons_of_mem _ hd')) (k + 1)
    by_cases hb : b = k
    · subst hb
      rw [Function.update_self]
      exact hds d (List.mem_cons_self ..)
    · rw [Function.update_of_ne hb]
      exact h b

/-- Blocks that fit are written one after the other. -/
theorem writeBlocks_clean (l : Leftover p) (ds : List Bytes) : ∀ (k : Nat) (fd : WriteFd),
    fd.pos = k * p.erase_size → k + ds.length ≤ blocks p →
    ∃ bad, writeBlocks cleanChip l ds fd =
      .done (some ⟨(k + ds.length) * p.erase_size, writtenFlash fd.flash k ds, bad⟩) := by
  induction ds with
  | nil =>
    intro k fd hpos _
    rw [List.length_nil, Nat.add_zero, ← hpos]
    exact ⟨fd.bad_block_offsets, rfl⟩
  | cons d ds ih =>
    intro k fd hpos hfits
    rw [List.length_cons] at hfits
    have hfirst : FirstWritable p cleanChip k k :=
      ⟨le_rfl, inPartition_iff.mpr (by omega), cleanChip_writable k, fun j hj hlt => by omega⟩
    obtain ⟨bad, hwrite⟩ := hfirst.write_block l hpos d
    rw [writeBlocks_cons, hwrite, andThen_some]
    rw [afterWrite_self]
    obtain ⟨bad', hrest⟩ := ih (k + 1) ⟨(k + 1) * p.erase_size, Function.update fd.flash k d, bad⟩
      rfl (by omega)
    refine ⟨bad', ?_⟩
    rw [hrest, List.length_cons, Nat.add_right_comm, Nat.add_assoc]
    rfl

/-- What fits is written to the front of the partition. -/
theorem writePartition_clean (l : Leftover p) (h : Whole p flash) {data : Bytes} (hne : data ≠ [])
    (hfits : data.length ≤ blocks p * p.erase_size) :
    ∃ flash', writePartition cleanChip l flash [data] = .done (some flash') ∧ Whole p flash' ∧
      (contents p flash').take data.length = data := by
  have hpos := p.erase_pos
  have hds := Stream.paddedBlocks_eq p data
  have hcount : (paddedBlocks p data).length = (data.length + p.erase_size - 1) / p.erase_size := by
    rw [hds]
    exact BootableRecovery.paddedBlocks_length 0 hpos
  have hle : (paddedBlocks p data).length ≤ blocks p := by
    rw [hcount]
    refine Nat.le_of_lt_succ ((Nat.div_lt_iff_lt_mul hpos).mpr ?_)
    rw [Nat.succ_mul]
    omega
  have hlt : 0 < (paddedBlocks p data).length := by
    have hlen := List.length_pos_iff.mpr hne
    rw [hcount]
    exact Nat.div_pos (by omega) hpos
  obtain ⟨bad, hwrite⟩ := writeBlocks_clean l (paddedBlocks p data) 0 ⟨0, flash, []⟩
    (Nat.zero_mul _).symm (by omega)
  have hlast : InPartition p ((paddedBlocks p data).length - 1) := inPartition_iff.mpr (by omega)
  have hclose : closeFd p ⟨(0 + (paddedBlocks p data).length) * p.erase_size,
      writtenFlash flash 0 (paddedBlocks p data), bad⟩ =
      .done (some (writtenFlash flash 0 (paddedBlocks p data))) :=
    closeFd_done hlast (by simp only [Nat.zero_add, Nat.sub_add_cancel hlt])
  refine ⟨writtenFlash flash 0 (paddedBlocks p data), ?_,
    whole_writtenFlash h (fun d hd => paddedBlocks_length_eq hd) 0, ?_⟩
  · rw [writePartition_eq, List.flatten_singleton, hwrite, andThen_some]
    exact hclose
  · obtain ⟨n, hflat⟩ := paddedBlocks_flatten (p := p) data
    have hsplit : List.range' 0 (blocks p) = List.range' 0 (paddedBlocks p data).length ++
        List.range' (paddedBlocks p data).length (blocks p - (paddedBlocks p data).length) := by
      have happend := List.range'_append_1 (s := 0) (m := (paddedBlocks p data).length)
        (n := blocks p - (paddedBlocks p data).length)
      rw [Nat.zero_add, Nat.add_sub_cancel' hle] at happend
      exact happend.symm
    rw [contents, hsplit, List.map_append, map_writtenFlash, List.flatten_append, hflat,
      List.append_assoc, List.take_left]

end BootableRecovery.Mtdutils
