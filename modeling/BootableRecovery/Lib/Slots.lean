import BootableRecovery.Lib.Blocks

/-!
# Slots of one size in a byte string

A list of slots says where blocks of one size lie in a string. `fill` writes a
block into each of them, one after the other.

* `slice_fill_of_disjoint`: what lies outside the slots stays as it is.
* `fill_eq_of_agree`: the result does not depend on what the slots held.
* `fill_fill`: the second of two fillings is left.
* `slice_fill`: slots that do not overlap hold what was written into them.
-/

namespace BootableRecovery

theorem overwrite_getElem? {content block : Bytes} {pos : Nat}
    (h : pos + block.length ≤ content.length) (j : Nat) :
    (overwrite content pos block)[j]? =
      if pos ≤ j ∧ j < pos + block.length then block[j - pos]? else content[j]? := by
  have htake : (content.take pos).length = pos := by
    rw [List.length_take]
    omega
  rw [overwrite, List.getElem?_append, htake]
  by_cases hlow : j < pos
  · rw [if_pos hlow, if_neg (by omega), List.getElem?_take_of_lt hlow]
  rw [if_neg hlow, List.getElem?_append]
  by_cases hin : j < pos + block.length
  · rw [if_pos (by omega), if_pos ⟨by omega, hin⟩]
  · rw [if_neg (by omega), if_neg (by omega), List.getElem?_drop]
    congr 1
    omega

/-- Write `val i` at `pos i` for each slot `i` of the list. -/
def fill {ι : Type} (pos : ι → Nat) (val : ι → Bytes) : List ι → Bytes → Bytes
  | [], content => content
  | i :: is, content => fill pos val is (overwrite content (pos i) (val i))

section

variable {ι : Type} {pos : ι → Nat} {val val' : ι → Bytes} {size : Nat}

/-- The slots lie in a string of `n` bytes. -/
def Inside (pos : ι → Nat) (size n : Nat) (is : List ι) : Prop := ∀ i ∈ is, pos i + size ≤ n

theorem Inside.head {n : Nat} {i : ι} {is : List ι} (h : Inside pos size n (i :: is)) :
    pos i + size ≤ n := h i List.mem_cons_self

theorem Inside.tail {n : Nat} {i : ι} {is : List ι} (h : Inside pos size n (i :: is)) :
    Inside pos size n is := fun j hj => h j (List.mem_cons_of_mem i hj)

/-- The block of the first slot fits. -/
theorem Inside.fit (hval : ∀ i, (val i).length = size) {n : Nat} {i : ι} {is : List ι}
    (h : Inside pos size n (i :: is)) : pos i + (val i).length ≤ n := by
  rw [hval]
  exact h.head

/-- After the first write the other slots are still inside. -/
theorem Inside.next (hval : ∀ i, (val i).length = size) {content : Bytes} {i : ι} {is : List ι}
    (h : Inside pos size content.length (i :: is)) :
    Inside pos size (overwrite content (pos i) (val i)).length is := by
  rw [overwrite_length (h.fit hval)]
  exact h.tail

theorem fill_length (hval : ∀ i, (val i).length = size) {is : List ι} {content : Bytes}
    (hin : Inside pos size content.length is) :
    (fill pos val is content).length = content.length := by
  induction is generalizing content with
  | nil => rfl
  | cons i is ih =>
    rw [fill, ih (hin.next hval), overwrite_length (hin.fit hval)]

/-- A byte outside the slots. -/
theorem fill_getElem?_of_disjoint (hval : ∀ i, (val i).length = size) {is : List ι}
    {content : Bytes} (hin : Inside pos size content.length is) {j : Nat}
    (hj : ∀ i ∈ is, ¬(pos i ≤ j ∧ j < pos i + size)) :
    (fill pos val is content)[j]? = content[j]? := by
  induction is generalizing content with
  | nil => rfl
  | cons i is ih =>
    rw [fill, ih (hin.next hval) fun k hk => hj k (List.mem_cons_of_mem i hk),
      overwrite_getElem? (hin.fit hval), hval, if_neg (hj i List.mem_cons_self)]

/-- Only what lies outside the slots enters the result. -/
theorem fill_eq_of_agree (hval : ∀ i, (val i).length = size) {is : List ι}
    {content content' : Bytes} (hin : Inside pos size content.length is)
    (hlen : content'.length = content.length)
    (hagree : ∀ j, (∃ i ∈ is, pos i ≤ j ∧ j < pos i + size) ∨ content'[j]? = content[j]?) :
    fill pos val is content' = fill pos val is content := by
  induction is generalizing content content' with
  | nil =>
    refine List.ext_getElem? fun j => ?_
    rcases hagree j with ⟨i, hi, -⟩ | heq
    · cases hi
    · exact heq
  | cons i is ih =>
    have hfit := hin.fit hval
    have hfit' : pos i + (val i).length ≤ content'.length := by rwa [hlen]
    refine ih (hin.next hval) ?_ fun j => ?_
    · rw [overwrite_length hfit', overwrite_length hfit, hlen]
    rw [overwrite_getElem? hfit, overwrite_getElem? hfit', hval]
    by_cases hj : pos i ≤ j ∧ j < pos i + size
    · right
      rw [if_pos hj, if_pos hj]
    rw [if_neg hj, if_neg hj]
    rcases hagree j with ⟨k, hk, hkj⟩ | heq
    · rcases List.mem_cons.mp hk with rfl | hk
      · exact absurd hkj hj
      · exact .inl ⟨k, hk, hkj⟩
    · exact .inr heq

/-- Filling the same slots a second time. -/
theorem fill_fill (hval : ∀ i, (val i).length = size) (hval' : ∀ i, (val' i).length = size)
    {is : List ι} {content : Bytes} (hin : Inside pos size content.length is) :
    fill pos val' is (fill pos val is content) = fill pos val' is content := by
  refine fill_eq_of_agree hval' hin (fill_length hval hin) fun j => ?_
  by_cases hj : ∃ i ∈ is, pos i ≤ j ∧ j < pos i + size
  · exact .inl hj
  · exact .inr (fill_getElem?_of_disjoint hval hin fun i hi hij => hj ⟨i, hi, hij⟩)

/-- A part of the string that no slot touches. -/
theorem slice_fill_of_disjoint (hval : ∀ i, (val i).length = size) {is : List ι}
    {content : Bytes} (hin : Inside pos size content.length is) {q n : Nat}
    (hq : ∀ i ∈ is, q + n ≤ pos i ∨ pos i + size ≤ q) :
    slice (fill pos val is content) q n = slice content q n := by
  induction is generalizing content with
  | nil => rfl
  | cons i is ih =>
    have hout : q + n ≤ pos i ∨ pos i + (val i).length ≤ q := by
      rw [hval]
      exact hq i List.mem_cons_self
    rw [fill, ih (hin.next hval) fun k hk => hq k (List.mem_cons_of_mem i hk),
      slice_overwrite_of_disjoint (hin.fit hval) hout]

/-- No two slots overlap. -/
def Apart (pos : ι → Nat) (size : Nat) (is : List ι) : Prop :=
  is.Pairwise fun i k => pos i + size ≤ pos k ∨ pos k + size ≤ pos i

/-- A slot holds what was written into it. -/
theorem slice_fill (hval : ∀ i, (val i).length = size) {is : List ι} {content : Bytes}
    (hin : Inside pos size content.length is) (hapart : Apart pos size is) {i : ι}
    (hi : i ∈ is) : slice (fill pos val is content) (pos i) size = val i := by
  induction is generalizing content with
  | nil => cases hi
  | cons k is ih =>
    obtain ⟨hhead, htail⟩ := List.pairwise_cons.mp hapart
    rw [fill]
    rcases List.mem_cons.mp hi with rfl | hi
    · -- the later slots lie elsewhere
      rw [slice_fill_of_disjoint hval (hin.next hval) fun k hk => hhead k hk]
      have hback := slice_overwrite (hin.fit hval)
      rwa [hval] at hback
    · exact ih (hin.next hval) htail hi

end

end BootableRecovery
