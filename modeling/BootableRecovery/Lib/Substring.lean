import Mathlib.Data.List.Infix

/-!
# Searching for a substring

`strstr` finds the first place where a list occurs in another one.

* `strstr_eq_some_iff`: the text in front of the place, and that no other place is in front of it.
* `strstr_append`, `strstr_of_append`: what is behind the place does not matter.

Nothing in this module mentions the programs that are verified.
-/

namespace BootableRecovery

variable {α : Type} [DecidableEq α]

/-- The offset of the first occurrence of `sub`. -/
def strstr (sub : List α) : List α → Option Nat
  | [] => if sub = [] then some 0 else none
  | c :: s => if sub <+: c :: s then some 0 else (strstr sub s).map Nat.succ

variable {sub s z : List α} {i : Nat}

theorem strstr_front (h : sub <+: s) : strstr sub s = some 0 := by
  cases s with
  | nil => rw [strstr, if_pos (List.prefix_nil.mp h)]
  | cons c s => rw [strstr, if_pos h]

theorem strstr_eq_none_iff : strstr sub s = none ↔ ¬ sub <:+: s := by
  induction s with
  | nil => simp [strstr]
  | cons c s ih =>
    rw [strstr, List.infix_cons_iff]
    split
    · simp [*]
    · simp [*]

/-- The search finds a place, and nothing in front of it. -/
theorem strstr_eq_some_iff :
    strstr sub s = some i ↔
      ∃ u z, s = u ++ (sub ++ z) ∧ u.length = i ∧
        ∀ u' z', s = u' ++ (sub ++ z') → i ≤ u'.length := by
  induction s generalizing i with
  | nil =>
    simp only [strstr, Option.ite_none_right_eq_some, Option.some.injEq]
    constructor
    · rintro ⟨rfl, rfl⟩
      exact ⟨[], [], rfl, rfl, fun _ _ _ => Nat.zero_le _⟩
    · rintro ⟨u, z, heq, rfl, -⟩
      have hnil := List.append_eq_nil_iff.mp heq.symm
      exact ⟨(List.append_eq_nil_iff.mp hnil.2).1, by rw [hnil.1]; rfl⟩
  | cons c s ih =>
    by_cases hpre : sub <+: c :: s
    · rw [strstr_front hpre, Option.some.injEq]
      obtain ⟨z, hz⟩ := hpre
      constructor
      · rintro rfl
        exact ⟨[], z, hz.symm, rfl, fun _ _ _ => Nat.zero_le _⟩
      · rintro ⟨u, z', -, -, hfirst⟩
        exact (Nat.le_zero.mp (hfirst [] z hz.symm)).symm
    · -- The place is behind the first element.
      have hbehind : ∀ u z, c :: s = u ++ (sub ++ z) →
          ∃ u', u = c :: u' ∧ s = u' ++ (sub ++ z) := by
        intro u z heq
        cases u with
        | nil => exact absurd ⟨z, heq.symm⟩ hpre
        | cons d u =>
          obtain ⟨rfl, hs⟩ := List.cons.inj heq
          exact ⟨u, rfl, hs⟩
      rw [strstr, if_neg hpre, Option.map_eq_some_iff]
      constructor
      · rintro ⟨j, hj, rfl⟩
        obtain ⟨u, z, heq, rfl, hfirst⟩ := ih.mp hj
        refine ⟨c :: u, z, by rw [heq]; rfl, rfl, fun u' z' heq' => ?_⟩
        obtain ⟨v, rfl, hv⟩ := hbehind u' z' heq'
        exact Nat.succ_le_succ (hfirst v z' hv)
      · rintro ⟨u, z, heq, rfl, hfirst⟩
        obtain ⟨v, rfl, hv⟩ := hbehind u z heq
        refine ⟨v.length, ih.mpr ⟨v, z, hv, rfl, fun u' z' heq' => ?_⟩, rfl⟩
        exact Nat.le_of_succ_le_succ (hfirst (c :: u') z' (congrArg (c :: ·) heq'))

/-- The text around the place that is found. -/
theorem strstr_split (h : strstr sub s = some i) :
    s = s.take i ++ (sub ++ s.drop (i + sub.length)) := by
  obtain ⟨u, z, rfl, rfl, -⟩ := strstr_eq_some_iff.mp h
  rw [List.take_left, ← List.drop_drop, List.drop_left, List.drop_left]

theorem strstr_append (h : strstr sub s = some i) (z : List α) : strstr sub (s ++ z) = some i := by
  obtain ⟨u, after, rfl, rfl, hfirst⟩ := strstr_eq_some_iff.mp h
  refine strstr_eq_some_iff.mpr ⟨u, after ++ z, by simp, rfl, fun u' z' heq => ?_⟩
  by_contra hlt
  -- A place in front of `u` ends in front of `z`.
  have hpre : u' ++ sub <+: u ++ (sub ++ after) := by
    have hwhole : u' ++ sub <+: u ++ (sub ++ after) ++ z := ⟨z', by rw [heq, List.append_assoc]⟩
    refine List.prefix_of_prefix_length_le hwhole (List.prefix_append _ _) ?_
    simp only [List.length_append]
    omega
  obtain ⟨z'', hz⟩ := hpre
  exact hlt (hfirst u' z'' (by rw [← hz, List.append_assoc]))

/-- The place is found without the text behind it. -/
theorem strstr_of_append (h : strstr sub (s ++ z) = some i) (hle : i + sub.length ≤ s.length) :
    strstr sub s = some i := by
  obtain ⟨u, after, heq, rfl, hfirst⟩ := strstr_eq_some_iff.mp h
  have hpre : u ++ sub <+: s := by
    have hwhole : u ++ sub <+: s ++ z := ⟨after, by rw [heq, List.append_assoc]⟩
    refine List.prefix_of_prefix_length_le hwhole (List.prefix_append _ _) ?_
    rw [List.length_append]
    exact hle
  obtain ⟨after', rfl⟩ := hpre
  refine strstr_eq_some_iff.mpr ⟨u, after', List.append_assoc _ _ _, rfl, fun u' z' heq' => ?_⟩
  exact hfirst u' (z' ++ z) (by rw [heq']; simp)

end BootableRecovery
