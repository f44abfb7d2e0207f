import BootableRecovery.Lib.Machine

/-!
# Byte streams in blocks of one size

A stream is cut into whole blocks and a rest that is shorter than a block.

* `wholeBlocks_append`: whole blocks at the start are cut off as they are.
* `wholeBlocks_flatten`: nothing is lost.
* `paddedBlocks`: the stream in blocks of one size, the last one filled up.
* `overwrite`: a block of a string is replaced. It is read back, and the other
  aligned blocks stay as they are.
-/

namespace BootableRecovery

/-- The first `n` blocks of `size` bytes. -/
def chop (size : Nat) : Nat → Bytes → List Bytes
  | 0, _ => []
  | n + 1, l => l.take size :: chop size n (l.drop size)

/-- The whole blocks at the start of a stream. -/
def wholeBlocks (size : Nat) (l : Bytes) : List Bytes := chop size (l.length / size) l

/-- What follows the whole blocks. -/
def partialBlock (size : Nat) (l : Bytes) : Bytes := l.drop (l.length / size * size)

section

variable {size : Nat} {l : Bytes}

theorem wholeBlocks_of_lt (h : l.length < size) : wholeBlocks size l = [] := by
  rw [wholeBlocks, Nat.div_eq_of_lt h]
  rfl

theorem partialBlock_of_lt (h : l.length < size) : partialBlock size l = l := by
  rw [partialBlock, Nat.div_eq_of_lt h, Nat.zero_mul, List.drop_zero]

theorem div_drop (hsize : 0 < size) (h : size ≤ l.length) :
    l.length / size = (l.drop size).length / size + 1 := by
  rw [List.length_drop, Nat.div_eq_sub_div hsize h]

theorem wholeBlocks_of_le (hsize : 0 < size) (h : size ≤ l.length) :
    wholeBlocks size l = l.take size :: wholeBlocks size (l.drop size) := by
  rw [wholeBlocks, div_drop hsize h]
  rfl

theorem partialBlock_of_le (hsize : 0 < size) (h : size ≤ l.length) :
    partialBlock size l = partialBlock size (l.drop size) := by
  rw [partialBlock, partialBlock, div_drop hsize h, List.drop_drop, Nat.succ_mul, Nat.add_comm]

theorem partialBlock_length_lt (hsize : 0 < size) : (partialBlock size l).length < size := by
  rw [partialBlock, List.length_drop]
  have hdiv := Nat.div_add_mod' l.length size
  have hmod := Nat.mod_lt l.length hsize
  omega

/-- A whole block in front. -/
theorem wholeBlocks_cons {d : Bytes} (hsize : 0 < size) (hd : d.length = size) (l : Bytes) :
    wholeBlocks size (d ++ l) = d :: wholeBlocks size l := by
  rw [wholeBlocks_of_le hsize (by rw [List.length_append]; omega), ← hd, List.take_left,
    List.drop_left]

theorem partialBlock_cons {d : Bytes} (hsize : 0 < size) (hd : d.length = size) (l : Bytes) :
    partialBlock size (d ++ l) = partialBlock size l := by
  rw [partialBlock_of_le hsize (by rw [List.length_append]; omega), ← hd, List.drop_left]

/-- Whole blocks in front. -/
theorem wholeBlocks_append {ds : List Bytes} (hsize : 0 < size) (hd : ∀ d ∈ ds, d.length = size)
    (l : Bytes) : wholeBlocks size (ds.flatten ++ l) = ds ++ wholeBlocks size l := by
  induction ds with
  | nil => rfl
  | cons d ds ih =>
    have hds : ∀ d' ∈ ds, d'.length = size := fun d' h => hd d' (List.mem_cons_of_mem _ h)
    rw [List.flatten_cons, List.append_assoc, wholeBlocks_cons hsize (hd d (List.mem_cons_self ..)),
      ih hds, List.cons_append]

theorem partialBlock_append {ds : List Bytes} (hsize : 0 < size) (hd : ∀ d ∈ ds, d.length = size)
    (l : Bytes) : partialBlock size (ds.flatten ++ l) = partialBlock size l := by
  induction ds with
  | nil => rfl
  | cons d ds ih =>
    have hds : ∀ d' ∈ ds, d'.length = size := fun d' h => hd d' (List.mem_cons_of_mem _ h)
    rw [List.flatten_cons, List.append_assoc,
      partialBlock_cons hsize (hd d (List.mem_cons_self ..)), ih hds]

theorem chop_length_eq (n : Nat) : ∀ l : Bytes, n * size ≤ l.length →
    ∀ d ∈ chop size n l, d.length = size := by
  induction n with
  | zero =>
    intro l _ d hd
    cases hd
  | succ n ih =>
    intro l hl d hd
    rw [Nat.succ_mul] at hl
    rcases List.mem_cons.mp hd with rfl | hd
    · rw [List.length_take]
      omega
    · exact ih (l.drop size) (by rw [List.length_drop]; omega) d hd

theorem wholeBlocks_length_eq {d : Bytes} (hd : d ∈ wholeBlocks size l) : d.length = size :=
  chop_length_eq _ l (Nat.div_mul_le_self _ _) d hd

theorem chop_flatten (n : Nat) : ∀ l : Bytes, (chop size n l).flatten ++ l.drop (n * size) = l := by
  induction n with
  | zero =>
    intro l
    simp [chop]
  | succ n ih =>
    intro l
    have hdrop : l.drop ((n + 1) * size) = (l.drop size).drop (n * size) := by
      rw [List.drop_drop, Nat.succ_mul, Nat.add_comm]
    rw [chop, List.flatten_cons, List.append_assoc, hdrop, ih, List.take_append_drop]

/-- The blocks and the rest are the stream. -/
theorem wholeBlocks_flatten (size : Nat) (l : Bytes) :
    (wholeBlocks size l).flatten ++ partialBlock size l = l :=
  chop_flatten _ l

/-- A stream that has a whole block is longer than its rest. -/
theorem partialBlock_length_add (hsize : 0 < size) (h : size ≤ l.length) :
    (partialBlock size l).length + size ≤ l.length := by
  rw [partialBlock, List.length_drop]
  have hdiv : 1 ≤ l.length / size := (Nat.one_le_div_iff hsize).mpr h
  have hmul : 1 * size ≤ l.length / size * size := Nat.mul_le_mul_right size hdiv
  omega

end

/-! ## Padding -/

/-- The blocks of a stream, the last one filled up with a byte. -/
def paddedBlocks (size : Nat) (fill : UInt8) (l : Bytes) : List Bytes :=
  wholeBlocks size l ++
    if partialBlock size l = [] then []
    else [partialBlock size l ++ List.replicate (size - (partialBlock size l).length) fill]

section

variable {size : Nat} (fill : UInt8) {l : Bytes}

theorem paddedBlocks_length_eq {fill} (hsize : 0 < size) {d : Bytes}
    (hd : d ∈ paddedBlocks size fill l) : d.length = size := by
  have hlt := partialBlock_length_lt hsize (l := l)
  rcases List.mem_append.mp hd with hd | hd
  · exact wholeBlocks_length_eq hd
  · split at hd
    · exact absurd hd List.not_mem_nil
    · rw [List.mem_singleton.mp hd, List.length_append, List.length_replicate]
      omega

theorem chop_length (n : Nat) : ∀ l : Bytes, (chop size n l).length = n := by
  induction n with
  | zero => exact fun l => rfl
  | succ n ih => exact fun l => by rw [chop, List.length_cons, ih]

/-- As many blocks as are needed for the stream. -/
theorem paddedBlocks_length (hsize : 0 < size) :
    (paddedBlocks size fill l).length = (l.length + size - 1) / size := by
  have hmod := Nat.mod_lt l.length hsize
  have hdiv := Nat.div_add_mod' l.length size
  have hwhole : (wholeBlocks size l).length = l.length / size := chop_length _ l
  have hpart : (partialBlock size l).length = l.length % size := by
    rw [partialBlock, List.length_drop]
    omega
  unfold paddedBlocks
  rw [List.length_append, hwhole]
  split
  · rename_i hnil
    rw [hnil, List.length_nil] at hpart
    rw [List.length_nil, Nat.add_zero, eq_comm]
    exact Nat.div_eq_of_lt_le (by omega) (by rw [Nat.succ_mul]; omega)
  · rename_i hne
    have hpos := List.length_pos_iff.mpr hne
    rw [List.length_singleton, eq_comm]
    exact Nat.div_eq_of_lt_le (by rw [Nat.succ_mul]; omega) (by rw [Nat.succ_mul, Nat.succ_mul]; omega)

/-- The stream, followed by the padding. -/
theorem paddedBlocks_flatten (hsize : 0 < size) :
    (paddedBlocks size fill l).flatten =
      l ++ List.replicate ((l.length + size - 1) / size * size - l.length) fill := by
  have hlen : (paddedBlocks size fill l).length = (l.length + size - 1) / size :=
    paddedBlocks_length fill hsize
  have hflat := wholeBlocks_flatten size l
  have hall : (paddedBlocks size fill l).flatten.length = (l.length + size - 1) / size * size := by
    rw [List.length_flatten, List.map_congr_left fun d hd => paddedBlocks_length_eq hsize hd,
      List.map_const', List.sum_replicate, hlen, smul_eq_mul]
  have hshape : ∃ n, (paddedBlocks size fill l).flatten = l ++ List.replicate n fill := by
    unfold paddedBlocks
    split
    · rename_i hnil
      rw [hnil, List.append_nil] at hflat
      exact ⟨0, by simp [hflat]⟩
    · refine ⟨size - (partialBlock size l).length, ?_⟩
      rw [List.flatten_append, List.flatten_singleton, ← List.append_assoc, hflat]
  obtain ⟨n, hn⟩ := hshape
  rw [hn, List.length_append, List.length_replicate] at hall
  rw [hn, ← hall, Nat.add_sub_cancel_left]

/-- Whole blocks need no padding. -/
theorem paddedBlocks_whole (hsize : 0 < size) {ds : List Bytes}
    (hd : ∀ d ∈ ds, d.length = size) : paddedBlocks size fill ds.flatten = ds := by
  have hwhole := wholeBlocks_append hsize hd []
  have hpart := partialBlock_append hsize hd []
  rw [List.append_nil, wholeBlocks_of_lt (l := []) hsize, List.append_nil] at hwhole
  rw [List.append_nil, partialBlock_of_lt (l := []) hsize] at hpart
  rw [paddedBlocks, hwhole, hpart, if_pos rfl, List.append_nil]

end

/-! ## Replacing a block -/

/-- Replace the bytes from offset `pos` on by a block. -/
def overwrite (content : Bytes) (pos : Nat) (block : Bytes) : Bytes :=
  content.take pos ++ (block ++ content.drop (pos + block.length))

section

variable {content block : Bytes} {pos : Nat}

theorem overwrite_length (h : pos + block.length ≤ content.length) :
    (overwrite content pos block).length = content.length := by
  simp only [overwrite, List.length_append, List.length_take, List.length_drop]
  omega

theorem slice_overwrite (h : pos + block.length ≤ content.length) :
    slice (overwrite content pos block) pos block.length = block :=
  slice_of_append rfl (by rw [List.length_take]; omega) rfl

/-- Bytes before or behind the block. -/
theorem slice_overwrite_of_disjoint (h : pos + block.length ≤ content.length) {q n : Nat}
    (hq : q + n ≤ pos ∨ pos + block.length ≤ q) :
    slice (overwrite content pos block) q n = slice content q n := by
  have htake : (content.take pos).length = pos := by
    rw [List.length_take]
    omega
  unfold slice overwrite
  rcases hq with hq | hq
  · rw [List.drop_append_of_le_length (by omega), List.take_append_of_le_length (by
      rw [List.length_drop]
      omega), List.drop_take, List.take_take]
    congr 1
    omega
  · rw [List.drop_append, List.drop_of_length_le (by omega), List.nil_append, List.drop_append,
      List.drop_of_length_le (by omega), List.nil_append, List.drop_drop]
    congr 2
    omega

/-- The second block of two at the same place is left. -/
theorem overwrite_overwrite {block' : Bytes} (h : pos + block.length ≤ content.length)
    (hlen : block'.length = block.length) :
    overwrite (overwrite content pos block) pos block' = overwrite content pos block' := by
  have htake : (content.take pos).length = pos := by
    rw [List.length_take]
    omega
  unfold overwrite
  rw [List.take_append_of_le_length (by omega), List.take_take, Nat.min_self, List.drop_append,
    List.drop_of_length_le (by omega), List.nil_append, List.drop_append,
    List.drop_of_length_le (by omega), List.nil_append, List.drop_drop]
  congr 3
  omega

end

end BootableRecovery
