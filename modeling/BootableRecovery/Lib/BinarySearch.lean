import BootableRecovery.Lib.Machine

/-!
# Binary search with a three-way comparison

The loop `low <= high` over a sorted array that ends at an equal element or,
when there is none, between the smaller and the larger ones. `cmp e` is the
comparison of the element `e` with the key.

* `bsearch_spec`: the loop ends, and the place behind its last `high` divides
  the array: nothing before it is larger than the key, nothing after it is
  smaller, and if an element is equal then one is before it.
-/

namespace BootableRecovery

variable {α : Type}

/-- The loop. The result is the last value of `high`. -/
def bsearch (cmp : α → Int) (l : List α) : Nat → Int → Int → Outcome Int
  | fuel, low, high =>
    if low ≤ high then
      match fuel with
      | 0 => .spin
      | fuel + 1 =>
        let mid := low + (high - low) / 2
        match l[mid.toNat]? with
        | none => .fault
        | some e =>
          if cmp e < 0 then bsearch cmp l fuel (mid + 1) high
          else if cmp e > 0 then bsearch cmp l fuel low (mid - 1)
          else .done mid
    else .done high

/-- The elements are in the order of their comparison with the key. -/
def SignSorted (cmp : α → Int) (l : List α) : Prop :=
  l.Pairwise fun a b => (cmp a).sign ≤ (cmp b).sign

/-- What the position behind `high` means. -/
structure Divides (cmp : α → Int) (l : List α) (target : Nat) : Prop where
  le : target ≤ l.length
  before : ∀ e ∈ l.take target, cmp e ≤ 0
  after : ∀ e ∈ l.drop target, 0 ≤ cmp e
  equal : (∃ e ∈ l.take target, cmp e = 0) ∨ ∀ e ∈ l, cmp e ≠ 0

theorem SignSorted.of_lt {cmp : α → Int} {l : List α} (h : SignSorted cmp l) {i j : Nat}
    {a b : α} (hij : i < j) (ha : l[i]? = some a) (hb : l[j]? = some b) :
    (cmp a).sign ≤ (cmp b).sign := by
  obtain ⟨hi, rfl⟩ := List.getElem?_eq_some_iff.mp ha
  obtain ⟨hj, rfl⟩ := List.getElem?_eq_some_iff.mp hb
  exact List.pairwise_iff_getElem.mp h i j hi hj hij

theorem mem_take_getElem? {l : List α} {n : Nat} {e : α} :
    e ∈ l.take n ↔ ∃ i, i < n ∧ l[i]? = some e := by
  rw [List.mem_iff_getElem?]
  constructor
  · rintro ⟨i, hi⟩
    rw [List.getElem?_take] at hi
    split at hi
    · rename_i hlt
      exact ⟨i, hlt, hi⟩
    · cases hi
  · rintro ⟨i, hlt, hi⟩
    exact ⟨i, by rw [List.getElem?_take, if_pos hlt, hi]⟩

theorem mem_drop_getElem? {l : List α} {n : Nat} {e : α} :
    e ∈ l.drop n ↔ ∃ i, n ≤ i ∧ l[i]? = some e := by
  rw [List.mem_iff_getElem?]
  constructor
  · rintro ⟨i, hi⟩
    rw [List.getElem?_drop] at hi
    exact ⟨n + i, by omega, hi⟩
  · rintro ⟨i, hle, hi⟩
    exact ⟨i - n, by rw [List.getElem?_drop, show n + (i - n) = i by omega, hi]⟩

/-- An equal element divides the array behind itself. -/
theorem divides_of_eq {cmp : α → Int} {l : List α} (h : SignSorted cmp l) {mid : Nat} {e : α}
    (he : l[mid]? = some e) (hzero : cmp e = 0) : Divides cmp l (mid + 1) := by
  obtain ⟨hlt, -⟩ := List.getElem?_eq_some_iff.mp he
  refine ⟨hlt, ?_, ?_, .inl ⟨e, mem_take_getElem?.mpr ⟨mid, by omega, he⟩, hzero⟩⟩
  · intro a ha
    obtain ⟨i, hi, hget⟩ := mem_take_getElem?.mp ha
    rcases Nat.lt_succ_iff_lt_or_eq.mp hi with hi | rfl
    · have hsign := h.of_lt hi hget he
      rw [hzero, Int.sign_zero] at hsign
      exact Int.sign_nonpos_iff.mp hsign
    · rw [he] at hget
      cases hget
      exact hzero.le
  · intro a ha
    obtain ⟨i, hi, hget⟩ := mem_drop_getElem?.mp ha
    have hsign := h.of_lt (show mid < i by omega) he hget
    rw [hzero, Int.sign_zero] at hsign
    exact Int.sign_nonneg_iff.mp hsign

/-- The invariant of the loop: everything below `low` is smaller than the key
and everything above `high` is larger. -/
structure Bounds (cmp : α → Int) (l : List α) (low high : Int) : Prop where
  low_nonneg : 0 ≤ low
  high_lt : high < l.length
  le : low ≤ high + 1
  below : ∀ (i : Nat) e, l[i]? = some e → (i : Int) < low → cmp e < 0
  above : ∀ (i : Nat) e, l[i]? = some e → high < i → 0 < cmp e

/-- Without an interval left, `low` divides the array and nothing is equal. -/
theorem Bounds.divides {cmp : α → Int} {l : List α} {low : Nat} {high : Int}
    (h : Bounds cmp l low high) (hend : ¬ (low : Int) ≤ high) : Divides cmp l low := by
  have hle := h.le
  have hlt := h.high_lt
  refine ⟨by omega, ?_, ?_, .inr ?_⟩
  · intro e he
    obtain ⟨i, hi, hget⟩ := mem_take_getElem?.mp he
    exact (h.below i e hget (by omega)).le
  · intro e he
    obtain ⟨i, hi, hget⟩ := mem_drop_getElem?.mp he
    exact (h.above i e hget (by omega)).le
  · intro e he
    obtain ⟨i, hget⟩ := List.mem_iff_getElem?.mp he
    by_cases hi : (i : Int) < low
    · exact (h.below i e hget hi).ne
    · exact (h.above i e hget (by omega)).ne'

/-- The loop finds a dividing position. -/
theorem bsearch_divides {cmp : α → Int} {l : List α} (h : SignSorted cmp l) (fuel : Nat) :
    ∀ low high : Int, Bounds cmp l low high → high - low < fuel →
      ∃ target : Nat, bsearch cmp l fuel low high = .done (target - 1) ∧ Divides cmp l target := by
  induction fuel with
  | zero =>
    intro low high hb hfuel
    have hle := hb.le
    obtain ⟨target, rfl⟩ : ∃ n : Nat, low = n := ⟨low.toNat, by have := hb.low_nonneg; omega⟩
    refine ⟨target, ?_, hb.divides (by omega)⟩
    unfold bsearch
    rw [if_neg (by omega)]
    congr 1
    omega
  | succ fuel ih =>
    intro low high hb hfuel
    have hlow := hb.low_nonneg
    have hle := hb.le
    have hhigh := hb.high_lt
    unfold bsearch
    by_cases hgo : low ≤ high
    · obtain ⟨mid, hmid⟩ : ∃ n : Nat, low + (high - low) / 2 = n :=
        ⟨(low + (high - low) / 2).toNat, by omega⟩
      have hlt : mid < l.length := by omega
      have hget : l[mid]? = some l[mid] := List.getElem?_eq_getElem hlt
      simp only [if_pos hgo, hmid, Int.toNat_natCast, hget]
      by_cases hneg : cmp l[mid] < 0
      · rw [if_pos hneg]
        refine ih (mid + 1) high ⟨by omega, hhigh, by omega, ?_, hb.above⟩ (by omega)
        intro i e hi hilt
        rcases Nat.lt_succ_iff_lt_or_eq.mp (show i < mid + 1 by omega) with hi' | rfl
        · have hsign := h.of_lt hi' hi hget
          rw [Int.sign_eq_neg_one_of_neg hneg] at hsign
          exact Int.sign_neg_iff.mp (by omega)
        · rw [hget] at hi
          cases hi
          exact hneg
      · rw [if_neg hneg]
        by_cases hpos : cmp l[mid] > 0
        · rw [if_pos hpos]
          refine ih low (mid - 1) ⟨hlow, by omega, by omega, hb.below, ?_⟩ (by omega)
          intro i e hi hilt
          rcases (show mid < i ∨ i = mid by omega) with hi' | rfl
          · have hsign := h.of_lt hi' hget hi
            rw [Int.sign_eq_one_of_pos hpos] at hsign
            exact Int.sign_pos_iff.mp (by omega)
          · rw [hget] at hi
            cases hi
            exact hpos
        · rw [if_neg hpos]
          exact ⟨mid + 1, by push_cast; congr 1; omega, divides_of_eq h hget (by omega)⟩
    · obtain ⟨target, rfl⟩ : ∃ n : Nat, low = n := ⟨low.toNat, by omega⟩
      refine ⟨target, ?_, hb.divides hgo⟩
      rw [if_neg hgo]
      congr 1
      omega

theorem bsearch_spec {cmp : α → Int} {l : List α} (h : SignSorted cmp l) :
    ∃ target : Nat, bsearch cmp l l.length 0 (l.length - 1) = .done (target - 1) ∧
      Divides cmp l target := by
  refine bsearch_divides h l.length 0 (l.length - 1)
    ⟨by omega, by omega, by omega, ?_, ?_⟩ (by omega)
  · intro i e _ hi
    omega
  · intro i e hget hi
    have := (List.getElem?_eq_some_iff.mp hget).1
    omega

end BootableRecovery
