import Mathlib.Data.List.SplitBy

/-!
# Runs of related neighbours

`List.splitBy r` cuts a list into its longest runs of neighbours that `r` relates. A
list is compacted when each run becomes one element.

* `splitBy_cons`: the first run is as long as `runLength` counts.
* `splitBy_map`: the runs of the images under a map that the relation respects.
* `splitBy_singletons`: a list without related neighbours has runs of length one.
* `compact`: the list with one element for each run. What every element of a run
  contributes is kept (`compact_flatMap`), and no related neighbours are left when the
  elements take over the ends of their runs (`compact_isChain`).
-/

namespace BootableRecovery.Runs

variable {α β : Type}

/-- How many elements of the list continue a run that ends with `a`. -/
def runLength (r : α → α → Bool) : α → List α → Nat
  | _, [] => 0
  | a, b :: l => if r a b then runLength r b l + 1 else 0

theorem runLength_le (r : α → α → Bool) (a : α) (l : List α) : runLength r a l ≤ l.length := by
  induction l generalizing a with
  | nil => exact le_rfl
  | cons b l ih =>
    rw [runLength]
    split_ifs
    · exact Nat.succ_le_succ (ih b)
    · exact Nat.zero_le _

theorem isChain_run (r : α → α → Bool) (a : α) (l : List α) :
    (a :: l.take (runLength r a l)).IsChain fun x y => r x y := by
  induction l generalizing a with
  | nil => exact .singleton a
  | cons b l ih =>
    rw [runLength]
    split_ifs with h
    · rw [List.take_succ_cons]
      exact (ih b).cons_cons h
    · rw [List.take_zero]
      exact .singleton a

/-- The element behind the run does not continue it. -/
theorem run_end (r : α → α → Bool) (a : α) (l : List α) :
    ∀ x ∈ (a :: l.take (runLength r a l)).getLast?, ∀ y ∈ (l.drop (runLength r a l)).head?,
      r x y = false := by
  induction l generalizing a with
  | nil =>
    intro x _ y hy
    exact nomatch hy
  | cons b l ih =>
    rw [runLength]
    split_ifs with h
    · rw [List.take_succ_cons, List.drop_succ_cons, List.getLast?_cons_cons]
      exact ih b
    · intro x hx y hy
      obtain rfl : a = x := by simpa using hx
      obtain rfl : b = y := by simpa using hy
      exact Bool.eq_false_iff.mpr h

/-- The first run, and those of the rest. -/
theorem splitBy_cons (r : α → α → Bool) (a : α) (l : List α) :
    (a :: l).splitBy r =
      (a :: l.take (runLength r a l)) :: (l.drop (runLength r a l)).splitBy r := by
  have hsplit : a :: l = (a :: l.take (runLength r a l)) ++ l.drop (runLength r a l) := by
    rw [List.cons_append, List.take_append_drop]
  conv_lhs => rw [hsplit]
  rw [List.splitBy_append (run_end r a l),
    List.splitBy_of_isChain (List.cons_ne_nil _ _) (isChain_run r a l)]
  rfl

theorem runLength_map {r : α → α → Bool} {s : β → β → Bool} (f : α → β) {a : α} {l : List α}
    (h : (a :: l).IsChain fun x y => r x y = s (f x) (f y)) :
    runLength s (f a) (l.map f) = runLength r a l := by
  induction l generalizing a with
  | nil => rfl
  | cons b l ih =>
    rw [List.map_cons, runLength, runLength, ← h.rel, ih h.tail]

/-- Where the relation is one on the images under `f`, the runs of the images are the
images of the runs. -/
theorem splitBy_map {r : α → α → Bool} {s : β → β → Bool} (f : α → β) {l : List α}
    (h : l.IsChain fun x y => r x y = s (f x) (f y)) :
    (l.map f).splitBy s = (l.splitBy r).map (List.map f) := by
  induction hn : l.length using Nat.strong_induction_on generalizing l with
  | _ n ih =>
    subst hn
    cases l with
    | nil => rfl
    | cons a l =>
      have hshort : (l.drop (runLength r a l)).length < (a :: l).length := by
        rw [List.length_drop, List.length_cons]
        exact Nat.lt_succ_of_le (Nat.sub_le _ _)
      have hrest : (l.drop (runLength r a l)).IsChain fun x y => r x y = s (f x) (f y) :=
        h.tail.suffix (List.drop_suffix _ _)
      rw [List.map_cons, splitBy_cons, splitBy_cons, runLength_map f h, ← List.map_take,
        ← List.map_drop, ih _ hshort hrest rfl]
      rfl

/-- Where no neighbours are related, every element is a run. -/
theorem splitBy_singletons {r : α → α → Bool} {l : List α} (h : l.IsChain fun x y => r x y = false) :
    l.splitBy r = l.map fun x => [x] := by
  induction l with
  | nil => rfl
  | cons a l ih =>
    have hzero : runLength r a l = 0 := by
      cases l with
      | nil => rfl
      | cons b l => rw [runLength, if_neg (by rw [h.rel]; exact Bool.false_ne_true)]
    rw [splitBy_cons, hzero, List.take_zero, List.drop_zero, ih h.tail]
    rfl

/-! ## Compacting the runs -/

/-- One element for each run, made by `g` from the run and an element of `olds`. -/
def compact (r : α → α → Bool) (g : α → List α → α) (olds l : List α) : List α :=
  List.zipWith g olds (l.splitBy r)

theorem length_splitBy_le (r : α → α → Bool) (l : List α) : (l.splitBy r).length ≤ l.length := by
  induction hn : l.length using Nat.strong_induction_on generalizing l with
  | _ n ih =>
    subst hn
    cases l with
    | nil => exact le_rfl
    | cons a l =>
      have hdrop : (l.drop (runLength r a l)).length ≤ l.length := by
        rw [List.length_drop]
        exact Nat.sub_le _ _
      rw [splitBy_cons, List.length_cons, List.length_cons]
      exact Nat.succ_le_succ ((ih _ (Nat.lt_succ_of_le hdrop) _ rfl).trans hdrop)

section Compact

variable {r : α → α → Bool} {g : α → List α → α} {olds l : List α}

theorem flatMap_zipWith {f : α → List β} {runs : List (List α)} (hlen : runs.length ≤ olds.length)
    (h : ∀ old, ∀ run ∈ runs, f (g old run) = run.flatMap f) :
    (List.zipWith g olds runs).flatMap f = runs.flatten.flatMap f := by
  induction runs generalizing olds with
  | nil => rw [List.zipWith_nil_right]; rfl
  | cons run runs ih =>
    cases olds with
    | nil => exact absurd hlen (by simp)
    | cons old olds =>
      rw [List.zipWith_cons_cons, List.flatMap_cons, List.flatten_cons, List.flatMap_append,
        h old run List.mem_cons_self, ih (Nat.le_of_succ_le_succ hlen)
          fun old run hrun => h old run (List.mem_cons_of_mem _ hrun)]

/-- What the elements of a run contribute together is kept, when its element contributes it. -/
theorem compact_flatMap {f : α → List β} (hlen : l.length ≤ olds.length)
    (h : ∀ old run, run ≠ [] → run.IsChain (fun x y => r x y) → f (g old run) = run.flatMap f) :
    (compact r g olds l).flatMap f = l.flatMap f := by
  rw [compact, flatMap_zipWith ((length_splitBy_le r l).trans hlen), List.flatten_splitBy]
  intro old run hrun
  exact h old run (List.ne_nil_of_mem_splitBy hrun) (List.isChain_of_mem_splitBy hrun)

theorem compact_filter {p : α → Bool} (hlen : l.length ≤ olds.length)
    (h : ∀ old run, run ≠ [] → run.IsChain (fun x y => r x y) →
      [g old run].filter p = run.filter p) :
    (compact r g olds l).filter p = l.filter p := by
  have hmap : ∀ m : List α, m.filter p = m.flatMap fun a => [a].filter p := by
    intro m
    rw [← List.filter_flatMap, List.flatMap_singleton']
  rw [hmap, hmap l]
  refine compact_flatMap hlen fun old run hne hchain => ?_
  rw [h old run hne hchain, hmap]

theorem map_zipWith {f : α → β} {k : List α → β} {runs : List (List α)}
    (hlen : runs.length ≤ olds.length) (h : ∀ old, ∀ run ∈ runs, f (g old run) = k run) :
    (List.zipWith g olds runs).map f = runs.map k := by
  induction runs generalizing olds with
  | nil => rw [List.zipWith_nil_right]; rfl
  | cons run runs ih =>
    cases olds with
    | nil => exact absurd hlen (by simp)
    | cons old olds =>
      rw [List.zipWith_cons_cons, List.map_cons, List.map_cons, h old run List.mem_cons_self,
        ih (Nat.le_of_succ_le_succ hlen) fun old run hrun => h old run (List.mem_cons_of_mem _ hrun)]

theorem compact_map {f : α → β} {k : List α → β} (hlen : l.length ≤ olds.length)
    (h : ∀ old run, run ≠ [] → run.IsChain (fun x y => r x y) → f (g old run) = k run) :
    (compact r g olds l).map f = (l.splitBy r).map k := by
  refine map_zipWith ((length_splitBy_le r l).trans hlen) fun old run hrun => ?_
  exact h old run (List.ne_nil_of_mem_splitBy hrun) (List.isChain_of_mem_splitBy hrun)

theorem isChain_zipWith {s : List α → List α → Prop} {t : α → α → Prop} {runs : List (List α)}
    (hruns : runs.IsChain s)
    (h : ∀ old old', ∀ a ∈ runs, ∀ b ∈ runs, s a b → t (g old a) (g old' b)) :
    (List.zipWith g olds runs).IsChain t := by
  induction runs generalizing olds with
  | nil => rw [List.zipWith_nil_right]; exact .nil
  | cons a runs ih =>
    cases olds with
    | nil => exact .nil
    | cons old olds =>
      have hrest := @ih olds hruns.tail fun old old' a ha b hb =>
        h old old' a (List.mem_cons_of_mem _ ha) b (List.mem_cons_of_mem _ hb)
      cases runs with
      | nil => rw [List.zipWith_cons_cons, List.zipWith_nil_right]; exact .singleton _
      | cons b runs =>
        cases olds with
        | nil => exact .singleton _
        | cons old' olds =>
          refine hrest.cons_cons (h old old' a List.mem_cons_self b ?_ hruns.rel)
          exact List.mem_cons_of_mem _ List.mem_cons_self

/-- No related neighbours are left, when the element of a run is related to others as the
ends of the run are. -/
theorem compact_isChain
    (h : ∀ old old' a b (ha : a ≠ []) (hb : b ≠ []), a.IsChain (fun x y => r x y) →
      b.IsChain (fun x y => r x y) → r (g old a) (g old' b) = r (a.getLast ha) (b.head hb)) :
    (compact r g olds l).IsChain fun x y => r x y = false := by
  refine isChain_zipWith (List.isChain_getLast_head_splitBy r l) ?_
  rintro old old' a ha b hb ⟨hane, hbne, hab⟩
  rw [h old old' a b hane hbne (List.isChain_of_mem_splitBy ha) (List.isChain_of_mem_splitBy hb), hab]

/-- Where there are no related neighbours, nothing changes. -/
theorem compact_of_isChain (hg : ∀ old x, g old [x] = x)
    (h : l.IsChain fun x y => r x y = false) : compact r g l l = l := by
  rw [compact, splitBy_singletons h]
  clear h
  induction l with
  | nil => rfl
  | cons a l ih => rw [List.map_cons, List.zipWith_cons_cons, hg, ih]

end Compact

end BootableRecovery.Runs
