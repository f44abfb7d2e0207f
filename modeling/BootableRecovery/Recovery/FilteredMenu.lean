import Mathlib.Data.List.Basic
import BootableRecovery.Lib.Machine

/-!
# `extendedcommands.c`: menus with gaps

`get_filtered_menu_selection` shows the labels of an array that has gaps, where an item
is `NULL`. It moves the labels to the front of the caller's array and keeps a table of
the positions that they had, so a second call finds the array as the first one left it.
The table comes from `malloc` with any content. The array has some elements in front of
`items_count`, and others behind.

Main results:
* `filterLoop_spec`: the loop compacts the array and tells the positions.
* `filters_safely_iff`: the positions, the highlighted label and the writes are right in
  every sequence of calls if and only if all gaps are behind the labels, and there is
  one.
-/

namespace BootableRecovery.Recovery

variable {L : Type}

/-! ## The code -/

/-- The array, the table, `offset`, and the elements of the array that were written. -/
structure Filter (L : Type) where
  items : List (Option L)
  translate_table : Nat → Int
  offset : Nat
  writes : List Nat

/-- One turn of the loop; `offset` is never behind `index`. -/
def filterStep (index : Nat) (f : Filter L) : Outcome (Filter L) :=
  match f.items[index]? with
  | none => .fault
  | some none => .done f
  | some (some item) =>
    .done
      { items := (f.items.set index none).set f.offset (some item)
        translate_table := Function.update f.translate_table f.offset index
        offset := f.offset + 1
        writes := f.writes ++ [index, f.offset] }

/-- `n` turns, from `index` on. -/
def filterLoop : Nat → Nat → Filter L → Outcome (Filter L)
  | 0, _, f => .done f
  | n + 1, index, f => do
    let f ← filterStep index f
    filterLoop n (index + 1) f

/-- What a call does: the array it leaves, the selection it starts the menu with, its
result, and the elements it has written. -/
structure Selection (L : Type) where
  items : List (Option L)
  initial_selection : Int
  ret : Int
  writes : List Nat

/-- `get_filtered_menu_selection`; `answer` is what `get_menu_selection` returns, and
`table` what the memory of the table held before. -/
def get_filtered_menu_selection (table : Nat → Int) (items : List (Option L))
    (initial_selection : Int) (items_count : Nat) (answer : Int) : Outcome (Selection L) := do
  let f ← filterLoop items_count 0 ⟨items, table, 0, []⟩
  if f.offset < f.items.length then
    if 0 ≤ initial_selection ∧ initial_selection < items_count then
      .done
        { items := f.items.set f.offset none
          initial_selection := f.translate_table initial_selection.toNat
          ret := if answer < 0 ∨ f.offset ≤ answer then answer
            else f.translate_table answer.toNat
          writes := f.writes ++ [f.offset] }
    else .fault
  else .fault

/-! ## Labels and gaps -/

/-- The labels of an array. -/
def labels (items : List (Option L)) : List L := items.filterMap id

/-- The positions of the labels, where the first element has position `k`. -/
def positions : Nat → List (Option L) → List Nat
  | _, [] => []
  | k, none :: items => positions (k + 1) items
  | k, some _ :: items => k :: positions (k + 1) items

theorem positions_append (k : Nat) (items items' : List (Option L)) :
    positions k (items ++ items') = positions k items ++ positions (k + items.length) items' := by
  induction items generalizing k with
  | nil => rfl
  | cons item items ih =>
    have hnext : k + 1 + items.length = k + (items.length + 1) := by omega
    cases item with
    | none => rw [List.cons_append, positions, positions, ih, List.length_cons, hnext]
    | some label =>
      rw [List.cons_append, positions, positions, ih, List.length_cons, hnext, List.cons_append]

theorem positions_length (k : Nat) (items : List (Option L)) :
    (positions k items).length = (labels items).length := by
  induction items generalizing k with
  | nil => rfl
  | cons item items ih =>
    cases item with
    | none => simpa [positions, labels] using ih (k + 1)
    | some label => simpa [positions, labels] using ih (k + 1)

theorem labels_length_le (items : List (Option L)) : (labels items).length ≤ items.length :=
  List.length_filterMap_le _ _

/-- The labels in front, and the gaps behind them. -/
def compacted (items : List (Option L)) : List (Option L) :=
  (labels items).map some ++ List.replicate (items.length - (labels items).length) none

theorem compacted_length (items : List (Option L)) : (compacted items).length = items.length := by
  have hle := labels_length_le items
  simp only [compacted, List.length_append, List.length_map, List.length_replicate]
  omega

theorem labels_map_some (ls : List L) (g : Nat) :
    labels (ls.map some ++ List.replicate g none) = ls := by
  simp [labels, List.filterMap_append, List.filterMap_map]

theorem labels_compacted (items : List (Option L)) : labels (compacted items) = labels items :=
  labels_map_some _ _

theorem positions_replicate_none (k g : Nat) :
    positions k (List.replicate g (none : Option L)) = [] := by
  induction g generalizing k with
  | zero => rfl
  | succ g ih => exact ih (k + 1)

/-- Labels without gaps between them stand at consecutive positions. -/
theorem positions_map_some (k : Nat) (ls : List L) :
    positions k (ls.map some) = List.range' k ls.length := by
  induction ls generalizing k with
  | nil => rfl
  | cons label ls ih => rw [List.map_cons, positions, ih, List.length_cons, List.range'_succ]

theorem positions_compacted (items : List (Option L)) :
    positions 0 (compacted items) = List.range (labels items).length := by
  rw [compacted, positions_append, positions_map_some, positions_replicate_none, List.append_nil,
    List.range_eq_range']

theorem le_of_mem_positions {k p : Nat} {items : List (Option L)} (h : p ∈ positions k items) :
    k ≤ p := by
  induction items generalizing k with
  | nil => exact absurd h List.not_mem_nil
  | cons item items ih =>
    cases item with
    | none => exact (Nat.le_succ k).trans (ih h)
    | some label =>
      rcases List.mem_cons.mp h with rfl | h
      · exact le_rfl
      · exact (Nat.le_succ k).trans (ih h)

/-- Only in an array whose gaps are behind the labels these are where they would be moved
to. -/
theorem eq_compacted_of_positions {k : Nat} {items : List (Option L)}
    (h : positions k items = List.range' k (labels items).length) : items = compacted items := by
  induction items generalizing k with
  | nil => rfl
  | cons item items ih =>
    cases item with
    | some label =>
      have hlabels : labels (some label :: items) = label :: labels items := rfl
      rw [positions, hlabels, List.length_cons, List.range'_succ] at h
      have hrest := ih (List.cons.inj h).2
      have hcompacted : compacted (some label :: items) = some label :: compacted items := by
        simp [compacted, hlabels]
      rw [hcompacted, ← hrest]
    | none =>
      have hlabels : labels (none :: items) = labels items := rfl
      rw [positions, hlabels] at h
      have hnil : labels items = [] := by
        by_contra hne
        obtain ⟨n, hn⟩ : ∃ n, (labels items).length = n + 1 :=
          ⟨_, (Nat.succ_pred (List.length_pos_of_ne_nil hne).ne').symm⟩
        rw [hn, List.range'_succ] at h
        have hle : k + 1 ≤ k := le_of_mem_positions (h ▸ List.mem_cons_self)
        omega
      have hrest : items = compacted items := ih (k := k + 1) (by rw [h, hnil]; rfl)
      have hgaps : compacted items = List.replicate items.length none := by simp [compacted, hnil]
      rw [hgaps] at hrest
      simp only [compacted, hlabels, hnil, List.map_nil, List.nil_append, List.length_nil,
        Nat.sub_zero, List.length_cons, List.replicate_succ]
      rw [← hrest]

/-! ## The loop -/

theorem filterLoop_succ (n index : Nat) (f : Filter L) :
    filterLoop (n + 1) index f = filterLoop n index f >>= filterStep (index + n) := by
  induction n generalizing index f with
  | zero =>
    rw [filterLoop]
    cases hstep : filterStep index f with
    | done f' => simp [filterLoop, hstep]
    | fault => simp [filterLoop, hstep]
    | spin => simp [filterLoop, hstep]
  | succ n ih =>
    have hnext : index + 1 + n = index + (n + 1) := by omega
    rw [filterLoop, filterLoop]
    cases filterStep index f with
    | done f' => simp only [Outcome.done_bind, ih, hnext]
    | fault => rfl
    | spin => rfl

/-- After the first elements of the array: they are compacted, and the table has the
positions of their labels. -/
structure Passed (front back : List (Option L)) (f : Filter L) : Prop where
  items_eq : f.items = compacted front ++ back
  offset_eq : f.offset = (labels front).length
  table_eq : ∀ j p : Nat, (positions 0 front)[j]? = some p → f.translate_table j = p
  writes_lt : ∀ i ∈ f.writes, i < front.length

theorem compacted_concat_none (front : List (Option L)) :
    compacted (front ++ [none]) = compacted front ++ [none] := by
  have hlabels : labels (front ++ [none]) = labels front := by simp [labels]
  have hle := labels_length_le front
  have hgaps : (front ++ [none]).length - (labels front).length =
      front.length - (labels front).length + 1 := by
    rw [List.length_append, List.length_singleton]
    omega
  rw [compacted, hlabels, hgaps, List.replicate_succ', compacted, List.append_assoc]

theorem compacted_concat_some (front back : List (Option L)) (item : L) :
    ((compacted front ++ some item :: back).set front.length none).set (labels front).length
      (some item) = compacted (front ++ [some item]) ++ back := by
  have hlabels : labels (front ++ [some item]) = labels front ++ [item] := by simp [labels]
  have hle := labels_length_le front
  have hgaps : (front ++ [some item]).length - (labels front ++ [item]).length =
      front.length - (labels front).length := by
    simp only [List.length_append, List.length_singleton]
    omega
  have hlast : (compacted front ++ some item :: back).set front.length none =
      compacted front ++ none :: back := by
    rw [List.set_append_right _ _ (compacted_length front).le, compacted_length, Nat.sub_self]
    rfl
  -- the gap that is left behind joins the others
  have hshift : compacted front ++ none :: back = (labels front).map some ++ none ::
      (List.replicate (front.length - (labels front).length) none ++ back) := by
    rw [compacted, List.append_assoc, ← List.singleton_append (x := none), ← List.append_assoc
      (List.replicate _ _), ← List.replicate_succ', List.replicate_succ, List.cons_append]
  have hfirst : ∀ rest : List (Option L), ((labels front).map some ++ none :: rest).set
      (labels front).length (some item) = (labels front).map some ++ some item :: rest := by
    intro rest
    rw [List.set_append_right _ _ (by simp), List.length_map, Nat.sub_self]
    rfl
  rw [hlast, hshift, hfirst, compacted, hlabels, hgaps]
  simp

/-- One turn passes one more element. -/
theorem Passed.step {front back : List (Option L)} {item : Option L} {f : Filter L}
    (h : Passed front (item :: back) f) :
    ∃ f', filterStep front.length f = .done f' ∧ Passed (front ++ [item]) back f' := by
  have hitem : f.items[front.length]? = some item := by
    rw [h.items_eq, List.getElem?_append_right (compacted_length front).le, compacted_length,
      Nat.sub_self]
    rfl
  have hlt : ∀ i ∈ f.writes, i < (front ++ [item]).length := fun i hi => by
    have := h.writes_lt i hi
    rw [List.length_append, List.length_singleton]
    omega
  unfold filterStep
  rw [hitem]
  cases item with
  | none =>
    refine ⟨f, rfl, ?_, ?_, ?_, hlt⟩
    · rw [h.items_eq, compacted_concat_none, List.append_assoc, List.singleton_append]
    · rw [h.offset_eq]
      simp [labels]
    · rw [positions_append]
      simpa [positions] using h.table_eq
  | some label =>
    have hle := labels_length_le front
    refine ⟨_, rfl, ?_, ?_, ?_, ?_⟩
    · rw [h.items_eq, h.offset_eq, compacted_concat_some]
    · simp [h.offset_eq, labels]
    · intro j p hj
      rw [positions_append, Nat.zero_add, positions, positions] at hj
      have hlen : (positions 0 front).length = f.offset := by rw [positions_length, h.offset_eq]
      simp only
      rcases Nat.lt_trichotomy j f.offset with hlt' | rfl | hgt
      · rw [List.getElem?_append_left (by omega)] at hj
        rw [Function.update_of_ne (by omega)]
        exact h.table_eq j p hj
      · rw [List.getElem?_append_right (by omega), hlen, Nat.sub_self] at hj
        obtain rfl : front.length = p := by simpa using hj
        rw [Function.update_self]
      · rw [List.getElem?_eq_none (by simp; omega)] at hj
        cases hj
    · intro i hi
      rcases List.mem_append.mp hi with hi | hi
      · exact hlt i hi
      · rw [List.length_append, List.length_singleton]
        rcases List.mem_pair.mp hi with rfl | rfl
        · omega
        · rw [h.offset_eq]
          omega

/-- The loop over the first elements of an array compacts them. -/
theorem filterLoop_spec (table : Nat → Int) (front back : List (Option L)) :
    ∃ f, filterLoop front.length 0 ⟨front ++ back, table, 0, []⟩ = .done f ∧
      Passed front back f := by
  induction front using List.reverseRecOn generalizing back with
  | nil => exact ⟨_, rfl, by simp [compacted, labels], rfl, by simp [positions], by simp⟩
  | append_singleton front item ih =>
    obtain ⟨f, hloop, hpassed⟩ := ih (item :: back)
    obtain ⟨f', hstep, hpassed'⟩ := hpassed.step
    refine ⟨f', ?_, hpassed'⟩
    rw [List.length_append, List.length_singleton, List.append_assoc, List.singleton_append,
      filterLoop_succ, hloop, Outcome.done_bind, Nat.zero_add, hstep]

/-! ## Sequences of calls -/

/-- A call: its initial selection, what the memory of the table held, and what the menu
returns. -/
structure Call (items_count : Nat) where
  initial_selection : Fin items_count
  table : Nat → Int
  answer : Int

/-- The result of a call, by what the loop leaves. -/
def Filter.select {n : Nat} (f : Filter L) (c : Call n) : Selection L where
  items := f.items.set f.offset none
  initial_selection := f.translate_table c.initial_selection
  ret := if c.answer < 0 ∨ f.offset ≤ c.answer then c.answer else f.translate_table c.answer.toNat
  writes := f.writes ++ [f.offset]

theorem call_eq (front back : List (Option L)) {n : Nat} (hn : front.length = n) (c : Call n) :
    ∃ f, Passed front back f ∧
      get_filtered_menu_selection c.table (front ++ back) c.initial_selection n c.answer =
        if f.offset < f.items.length then .done (f.select c) else .fault := by
  subst hn
  obtain ⟨f, hloop, hpassed⟩ := filterLoop_spec c.table front back
  refine ⟨f, hpassed, ?_⟩
  have hbounds : (0 : Int) ≤ (c.initial_selection : Nat) ∧
      ((c.initial_selection : Nat) : Int) < front.length := by
    have := c.initial_selection.isLt
    omega
  rw [get_filtered_menu_selection, hloop, Outcome.done_bind, if_pos hbounds]
  rfl

/-- With a gap among the first elements the terminator is written over a gap. -/
theorem Passed.select_items {front back : List (Option L)} {f : Filter L} (h : Passed front back f)
    (hgap : (labels front).length < front.length) {n : Nat} (c : Call n) :
    (f.select c).items = compacted front ++ back := by
  obtain ⟨g, hg⟩ : ∃ g, front.length - (labels front).length = g + 1 :=
    ⟨front.length - (labels front).length - 1, by omega⟩
  simp only [Filter.select]
  rw [h.items_eq, h.offset_eq, compacted, hg, List.replicate_succ, List.append_assoc,
    List.set_append_right _ _ (by simp), List.length_map, Nat.sub_self]
  rfl

/-- What a call has to do, for the array as the caller filled it: the result is the
position of the label that the menu returns, the menu starts at the label that the
initial selection names, only elements in front of `items_count` are written, and the
menu shows the labels. -/
structure RightCall (front : List (Option L)) (c : Call front.length) (s : Selection L) : Prop where
  ret_eq : ∀ j p : Nat, c.answer = j → (positions 0 front)[j]? = some p → s.ret = p
  initial_eq : ∀ j p : Nat, c.initial_selection = p → (positions 0 front)[j]? = some p →
    s.initial_selection = j
  writes_lt : ∀ i ∈ s.writes, i < front.length
  shown_eq : s.items.takeWhile Option.isSome = (labels front).map some

/-- Calls one after another on the same array. -/
def RightCalls (front : List (Option L)) : List (Option L) → List (Call front.length) → Prop
  | _, [] => True
  | items, c :: cs => ∃ s,
    get_filtered_menu_selection c.table items c.initial_selection front.length c.answer = .done s ∧
      RightCall front c s ∧ RightCalls front s.items cs

theorem takeWhile_labels (ls : List L) {g : Nat} (back : List (Option L)) :
    (ls.map some ++ List.replicate (g + 1) none ++ back).takeWhile Option.isSome = ls.map some := by
  rw [List.append_assoc, List.takeWhile_append_of_pos (by simp), List.replicate_succ,
    List.cons_append, List.takeWhile_cons_of_neg (by simp), List.append_nil]

/-- A call on an array whose gaps are behind its labels is right and leaves the array as it
is. -/
theorem rightCall_of_compacted {front : List (Option L)} (h : compacted front = front)
    (hgap : (labels front).length < front.length) (back : List (Option L))
    (c : Call front.length) :
    ∃ s, get_filtered_menu_selection c.table (front ++ back) c.initial_selection front.length
      c.answer = .done s ∧ RightCall front c s ∧ s.items = front ++ back := by
  obtain ⟨f, hpassed, hcall⟩ := call_eq front back rfl c
  have hitems : (f.select c).items = front ++ back := by rw [hpassed.select_items hgap, h]
  have hpositions : positions 0 front = List.range (labels front).length := by
    rw [← positions_compacted, h]
  have hentry : ∀ j p : Nat, (positions 0 front)[j]? = some p → j = p ∧ j < f.offset := by
    intro j p hj
    rw [hpositions] at hj
    obtain ⟨hlt, heq⟩ := List.getElem?_eq_some_iff.mp hj
    rw [List.length_range, ← hpassed.offset_eq] at hlt
    exact ⟨by simpa using heq, hlt⟩
  have hlength : f.offset < f.items.length := by
    rw [hpassed.offset_eq, hpassed.items_eq, List.length_append, compacted_length]
    omega
  rw [if_pos hlength] at hcall
  refine ⟨_, hcall, ⟨?_, ?_, ?_, ?_⟩, hitems⟩
  · intro j p hanswer hj
    have hlt := (hentry j p hj).2
    simp only [Filter.select, hanswer, Int.toNat_natCast]
    rw [if_neg (by omega)]
    exact hpassed.table_eq j p hj
  · intro j p hinit hj
    obtain ⟨rfl, -⟩ := hentry j p hj
    simp only [Filter.select, hinit]
    exact hpassed.table_eq j j hj
  · intro i hi
    rcases List.mem_append.mp hi with hi | hi
    · exact hpassed.writes_lt i hi
    · rw [List.mem_singleton.mp hi, hpassed.offset_eq]
      exact hgap
  · obtain ⟨g, hg⟩ : ∃ g, front.length - (labels front).length = g + 1 :=
      ⟨front.length - (labels front).length - 1, by omega⟩
    rw [hitems, ← h, compacted, hg, takeWhile_labels, labels_map_some]

/-- Every call is right, in every sequence of calls on the array. -/
def FiltersSafely (front back : List (Option L)) : Prop :=
  ∀ cs, RightCalls front (front ++ back) cs

theorem gap_of_filtersSafely {front back : List (Option L)} (h : FiltersSafely front back)
    (c : Call front.length) : (labels front).length < front.length := by
  obtain ⟨s, hcall, hright, -⟩ := h [c]
  obtain ⟨f, hpassed, hcall'⟩ := call_eq front back rfl c
  rw [hcall'] at hcall
  split at hcall
  · obtain rfl := Outcome.done.inj hcall
    rw [← hpassed.offset_eq]
    exact hright.writes_lt _ (List.mem_append_right _ List.mem_cons_self)
  · cases hcall

/-- The second call of a sequence finds the compacted array, and its result is the
position there. -/
theorem position_of_filtersSafely {front back : List (Option L)} (h : FiltersSafely front back)
    (i : Fin front.length) {j p : Nat} (hj : (positions 0 front)[j]? = some p) : j = p := by
  have hgap := gap_of_filtersSafely h ⟨i, fun _ => 0, j⟩
  obtain ⟨s, hfirst, -, s', hsecond, hright, -⟩ := h [⟨i, fun _ => 0, j⟩, ⟨i, fun _ => 0, j⟩]
  obtain ⟨f, hpassed, hcall⟩ := call_eq front back rfl ⟨i, fun _ => 0, j⟩
  rw [hcall] at hfirst
  split at hfirst
  · obtain rfl := Outcome.done.inj hfirst
    rw [hpassed.select_items hgap] at hsecond
    obtain ⟨f', hpassed', hcall'⟩ :=
      call_eq (compacted front) back (compacted_length front) ⟨i, fun _ => 0, j⟩
    rw [hcall'] at hsecond
    split at hsecond
    · obtain rfl := Outcome.done.inj hsecond
      have hlt : j < (labels front).length := by
        obtain ⟨hlt, -⟩ := List.getElem?_eq_some_iff.mp hj
        rwa [positions_length] at hlt
      have hentry : f'.translate_table j = j := by
        refine hpassed'.table_eq j j ?_
        rw [positions_compacted, List.getElem?_range hlt]
      have hret := hright.ret_eq j p rfl hj
      have hoffset : f'.offset = (labels front).length := by
        rw [hpassed'.offset_eq, labels_compacted]
      simp only [Filter.select, Int.toNat_natCast] at hret
      rw [if_neg (by omega), hentry] at hret
      exact_mod_cast hret
    · cases hsecond
  · cases hfirst

/-- Filtered menus are right in every sequence of calls if and only if the array starts
with its labels and has a gap behind them. -/
theorem filters_safely_iff (front back : List (Option L)) : FiltersSafely front back ↔
    front = [] ∨ ∃ (ls : List L) (g : Nat), front = ls.map some ++ List.replicate (g + 1) none := by
  constructor
  · intro h
    rcases List.eq_nil_or_concat front with hnil | ⟨init, item, hfront⟩
    · exact .inl hnil
    · have hpos : 0 < front.length := by simp [hfront]
      have hgap := gap_of_filtersSafely h ⟨⟨0, hpos⟩, fun _ => 0, -1⟩
      have hpositions : positions 0 front = List.range' 0 (labels front).length := by
        rw [← List.range_eq_range']
        refine List.ext_getElem? fun j => ?_
        cases hj : (positions 0 front)[j]? with
        | some p =>
          obtain rfl := position_of_filtersSafely h ⟨0, hpos⟩ hj
          obtain ⟨hlt, -⟩ := List.getElem?_eq_some_iff.mp hj
          rw [positions_length] at hlt
          rw [List.getElem?_range hlt]
        | none =>
          rw [List.getElem?_eq_none_iff, positions_length] at hj
          rw [List.getElem?_eq_none (by simpa using hj)]
      obtain ⟨g, hg⟩ : ∃ g, front.length - (labels front).length = g + 1 :=
        ⟨front.length - (labels front).length - 1, by omega⟩
      refine .inr ⟨labels front, g, ?_⟩
      rw [← hg]
      exact eq_compacted_of_positions hpositions
  · rintro (rfl | ⟨ls, g, hfront⟩) cs
    · cases cs with
      | nil => trivial
      | cons c cs => exact c.initial_selection.elim0
    · have hlabels : labels front = ls := by rw [hfront, labels_map_some]
      have hlen : front.length = ls.length + (g + 1) := by simp [hfront]
      have hcompacted : compacted front = front := by
        rw [compacted, hlabels, hlen, Nat.add_sub_cancel_left, ← hfront]
      induction cs with
      | nil => trivial
      | cons c cs ih =>
        obtain ⟨s, hcall, hright, hitems⟩ :=
          rightCall_of_compacted hcompacted (by rw [hlabels, hlen]; omega) back c
        exact ⟨s, hcall, hright, hitems ▸ ih⟩

/-- The menu without the sixth label, "Free unused backup data", and with the labels for
another card: the second call turns "Backup to internal sdcard" into the position of the
gap. -/
def nandroidList : List (Option String) :=
  [some "Backup", some "Restore", some "Delete old backups", some "Advanced Backup",
    some "Advanced Restore", none, some "Backup to internal sdcard",
    some "Restore from internal sdcard", some "Delete from internal sdcard",
    some "Advanced backup to internal sdcard", some "Advanced restore from internal sdcard",
    none, none]

theorem filters_safely_nandroid : ¬ FiltersSafely nandroidList [] := by
  intro h
  have hpos := position_of_filtersSafely h ⟨0, by decide⟩
    (show (positions 0 nandroidList)[5]? = some 6 by decide)
  omega

end BootableRecovery.Recovery
