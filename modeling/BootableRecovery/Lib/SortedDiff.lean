import Mathlib.Data.List.Basic

/-!
# The difference of two sorted lists

One walk through both lists: for each element of the second list, the elements of
the first list that are smaller are passed over, and the element is in the first
list if and only if it is what the walk stops at. Both lists can have an element
more than once.

* `mem_dropWhile_lt_iff`: passing over the smaller elements loses no other.
* `sortedDiff_eq_filter`: the walk finds the elements of the second list that are
  not in the first.

Nothing in this module mentions the programs that are verified.
-/

namespace BootableRecovery

variable {α : Type} [LE α] [LT α] [DecidableLT α] [Std.IsLinearOrder α] [Std.LawfulOrderLT α]

/-- In a sorted list the smaller elements stand in front. -/
theorem mem_dropWhile_lt_iff {us : List α} (h : us.Pairwise (· ≤ ·)) {x a : α} :
    a ∈ us.dropWhile (fun u => decide (u < x)) ↔ a ∈ us ∧ x ≤ a := by
  induction us with
  | nil => simp
  | cons u us ih =>
    obtain ⟨hle, hus⟩ := List.pairwise_cons.mp h
    by_cases hlt : u < x
    · rw [List.dropWhile_cons_of_pos (by simpa using hlt), ih hus]
      constructor
      · exact fun ⟨hmem, hx⟩ => ⟨List.mem_cons_of_mem _ hmem, hx⟩
      · rintro ⟨hmem, hx⟩
        rcases List.mem_cons.mp hmem with rfl | hmem
        · exact absurd hlt (Std.not_lt.mpr hx)
        · exact ⟨hmem, hx⟩
    · rw [List.dropWhile_cons_of_neg (by simpa using hlt)]
      have hxu : x ≤ u := Std.not_lt.mp hlt
      refine ⟨fun hmem => ⟨hmem, ?_⟩, fun hmem => hmem.1⟩
      rcases List.mem_cons.mp hmem with rfl | hmem
      · exact hxu
      · exact Std.le_trans hxu (hle a hmem)

/-- The walk stops at an element exactly if it is there. -/
theorem head?_dropWhile_lt_iff {us : List α} (h : us.Pairwise (· ≤ ·)) {x : α} :
    (us.dropWhile fun u => decide (u < x)).head? = some x ↔ x ∈ us := by
  constructor
  · exact fun hhead => ((mem_dropWhile_lt_iff h).mp (List.mem_of_head? hhead)).1
  · intro hmem
    have hstay := (mem_dropWhile_lt_iff h).mpr ⟨hmem, Std.le_refl x⟩
    have hsorted := h.sublist (List.dropWhile_sublist fun u => decide (u < x))
    have hfirst := List.head?_dropWhile_not (fun u => decide (u < x)) us
    generalize us.dropWhile (fun u => decide (u < x)) = rest at *
    cases rest with
    | nil => exact absurd hstay List.not_mem_nil
    | cons u rest =>
      have hxu : x ≤ u := Std.not_lt.mp (by simpa using hfirst)
      rcases List.mem_cons.mp hstay with rfl | hin
      · rfl
      · have hux := (List.pairwise_cons.mp hsorted).1 x hin
        rw [List.head?_cons, Std.le_antisymm hux hxu]

variable [DecidableEq α]

/-- The elements of the second list that the walk does not stop at in the first. -/
def sortedDiff : List α → List α → List α
  | _, [] => []
  | us, x :: xs =>
    if (us.dropWhile fun u => decide (u < x)).head? = some x then
      sortedDiff (us.dropWhile fun u => decide (u < x)) xs
    else x :: sortedDiff (us.dropWhile fun u => decide (u < x)) xs

/-- The walk through two sorted lists finds their difference. -/
theorem sortedDiff_eq_filter {us xs : List α} (hus : us.Pairwise (· ≤ ·))
    (hxs : xs.Pairwise (· ≤ ·)) : sortedDiff us xs = xs.filter fun x => decide (x ∉ us) := by
  induction xs generalizing us with
  | nil => rfl
  | cons x xs ih =>
    obtain ⟨hle, hxs⟩ := List.pairwise_cons.mp hxs
    have hrest := ih (hus.sublist (List.dropWhile_sublist fun u => decide (u < x))) hxs
    -- what was passed over is smaller than all that is still to come
    have hsame : (xs.filter fun y => decide (y ∉ us.dropWhile fun u => decide (u < x))) =
        xs.filter fun y => decide (y ∉ us) := by
      refine List.filter_congr fun y hy => ?_
      have hiff := mem_dropWhile_lt_iff hus (x := x) (a := y)
      simp [hiff, hle y hy]
    rw [sortedDiff, hrest, hsame, List.filter_cons]
    by_cases hmem : x ∈ us
    · rw [if_pos ((head?_dropWhile_lt_iff hus).mpr hmem), if_neg (by simpa using hmem)]
    · rw [if_neg fun hhead => hmem ((head?_dropWhile_lt_iff hus).mp hhead),
        if_pos (by simpa using hmem)]

end BootableRecovery
