import BootableRecovery.Lib.Probing

/-!
# `minzip/Hash.c`: the hash table

An open-addressed table with tombstones. The size of the table is a power of
two; collisions are resolved by probing the following slots, wrapping around;
a removed item leaves a tombstone that probes step over. When live and dead
entries together exceed 5/8 of the table it is rebuilt at twice the size.

Allocation is taken to succeed. A failing `assert` is a `fault`.

Main results:
* `HashTable.Inv`: the invariant. It holds after `mzHashTableCreate`
  (`create_inv`) and every operation keeps it.
* `lookup_spec`, `remove_spec`, `clear_spec`: one specification for each
  operation, in terms of the live items of the table.
* `hashTable_refines`: over any sequence of operations the table behaves as a
  finite map (`Spec`).
-/

namespace BootableRecovery.Minzip
open Probing

/-! ## The table -/

/-- The `data` pointer of a slot. -/
inductive Data (Item : Type) where
  | null
  | tombstone
  | item (x : Item)
  deriving DecidableEq, Repr

/-- `HashEntry`. -/
structure HashEntry (Item : Type) where
  hashValue : UInt32
  data : Data Item
  deriving DecidableEq, Repr

/-- `HashTable`. The field `tableSize` of the source is the length of
`pEntries`. -/
structure HashTable (Item : Type) where
  pEntries : List (HashEntry Item)
  numEntries : Nat
  numDeadEntries : Nat
  deriving DecidableEq, Repr

def LOAD_NUMER : Nat := 5

def LOAD_DENOM : Nat := 8

section Code

variable {Item : Type}

def HashTable.tableSize (t : HashTable Item) : Nat := t.pEntries.length

def HashEntry.isNull (e : HashEntry Item) : Bool :=
  match e.data with
  | .null => true
  | _ => false

def HashEntry.isTombstone (e : HashEntry Item) : Bool :=
  match e.data with
  | .tombstone => true
  | _ => false

/-- The item of a live slot. -/
def HashEntry.item? (e : HashEntry Item) : Option Item :=
  match e.data with
  | .item x => some x
  | _ => none

/-- The items in the table, in slot order. -/
def HashTable.items (t : HashTable Item) : List Item := t.pEntries.filterMap HashEntry.item?

/-- The capacity needed for a table to hold `size` elements. -/
def mzHashSize (size : Nat) : Nat := size * LOAD_DENOM / LOAD_NUMER + 1

/-- Round up to the next highest power of 2. -/
def roundUpPower2 (val : UInt32) : UInt32 :=
  let val := val - 1
  let val := val ||| val >>> 1
  let val := val ||| val >>> 2
  let val := val ||| val >>> 4
  let val := val ||| val >>> 8
  let val := val ||| val >>> 16
  val + 1

/-- `calloc` of `n` entries. -/
def emptyEntries (Item : Type) (n : Nat) : List (HashEntry Item) := List.replicate n ⟨0, .null⟩

/-- Create and initialize a hash table. -/
def mzHashTableCreate (initialSize : UInt32) : Outcome (HashTable Item) :=
  if 0 < initialSize then
    .done ⟨emptyEntries Item (roundUpPower2 initialSize).toNat, 0, 0⟩
  else .fault

/-- Clear out all entries: the cleared table, and the items that are handed to
`freeFunc`. -/
def mzHashTableClear (t : HashTable Item) : HashTable Item × List Item :=
  (⟨t.pEntries.map fun e => { e with data := .null }, 0, 0⟩, t.items)

/-- Count up the number of tombstone entries in the hash table. -/
def countTombStones (t : HashTable Item) : Nat := t.pEntries.countP HashEntry.isTombstone

/-- The loop of `resizeHash`: put every live entry into the new storage. -/
def rehash (newSize : Nat) : List (HashEntry Item) → List (HashEntry Item) →
    Outcome (List (HashEntry Item))
  | [], pNewEntries => .done pNewEntries
  | e :: rest, pNewEntries =>
    match e.data with
    | .item x => do
      let newIdx ← probe (fun newIdx => some ((newIdx + 1) &&& (newSize - 1))) HashEntry.isNull
        pNewEntries newSize (e.hashValue.toNat &&& (newSize - 1))
      rehash newSize rest (pNewEntries.set newIdx ⟨e.hashValue, .item x⟩)
    | _ => rehash newSize rest pNewEntries

/-- Resize a hash table, re-inserting all elements into the new storage. -/
def resizeHash (t : HashTable Item) (newSize : Nat) : Outcome (HashTable Item) :=
  if countTombStones t ≠ t.numDeadEntries then .fault
  else do
    let pNewEntries ← rehash newSize t.pEntries (emptyEntries Item newSize)
    .done ⟨pNewEntries, t.numEntries, 0⟩

/-- `pEntry++` in the probing loops: wrap around at the end, except in a table
of one entry, where the loop is left. -/
def HashTable.nextEntry (t : HashTable Item) (i : Nat) : Option Nat :=
  if i + 1 = t.tableSize then (if t.tableSize = 1 then none else some 0) else some (i + 1)

/-- The slot at which the probing loop of `mzHashTableLookup` ends. -/
def lookupStop (itemHash : UInt32) (cmp : Item → Int) (e : HashEntry Item) : Bool :=
  match e.data with
  | .null => true
  | .tombstone => false
  | .item d => e.hashValue = itemHash ∧ cmp d = 0

/-- Add `item` at the empty slot `i`, and resize when this brings the table
too close to full. -/
def addAt (t : HashTable Item) (i : Nat) (itemHash : UInt32) (item : Item) :
    Outcome (HashTable Item) := do
  let t' : HashTable Item :=
    { t with pEntries := t.pEntries.set i ⟨itemHash, .item item⟩, numEntries := t.numEntries + 1 }
  let t'' ←
    if wrap32 (((t'.numEntries + t'.numDeadEntries) * LOAD_DENOM : Nat) : Int) >
        wrap32 ((t'.tableSize * LOAD_NUMER : Nat) : Int) then
      resizeHash t' (wrap32 ((t'.tableSize * 2 : Nat) : Int)).toNat
    else .done t'
  if t''.numEntries < t''.tableSize then .done t'' else .fault

/-- `mzHashTableLookup(t, itemHash, item, cmpFunc, doAdd)`. `cmp d` is
`cmpFunc(d, item)`, and `doAdd` is the item when the flag is set. The result is
the table afterwards and the pointer that is returned. -/
def mzHashTableLookup (t : HashTable Item) (itemHash : UInt32) (cmp : Item → Int)
    (doAdd : Option Item) : Outcome (HashTable Item × Option Item) :=
  if t.tableSize = 0 then .fault
  else do
    let i ← probe t.nextEntry (lookupStop itemHash cmp) t.pEntries t.tableSize
      (itemHash.toNat &&& (t.tableSize - 1))
    match (t.pEntries[i]?).map HashEntry.data with
    | some .null =>
      match doAdd with
      | some item => do
        let t' ← addAt t i itemHash item
        .done (t', some item)
      | none => .done (t, none)
    | some (.item d) => .done (t, some d)
    | _ => .fault

/-- Remove an entry from the table: the one whose `data` is the pointer
`item`. -/
def mzHashTableRemove [DecidableEq Item] (t : HashTable Item) (itemHash : UInt32) (item : Item) :
    Outcome (HashTable Item × Bool) :=
  if t.tableSize = 0 then .fault
  else do
    let i ← probe t.nextEntry (fun e => e.isNull || e.item? == some item) t.pEntries t.tableSize
      (itemHash.toNat &&& (t.tableSize - 1))
    match t.pEntries[i]? with
    | some e =>
      if e.item? = some item then
        .done (⟨t.pEntries.set i { e with data := .tombstone }, t.numEntries - 1,
          t.numDeadEntries + 1⟩, true)
      else .done (t, false)
    | none => .done (t, false)

end Code

/-! ## Sizes -/

/-- The bits of `y` look at windows of `w` bits of `x`. -/
def Window (x w y : Nat) : Prop :=
  ∀ i, y.testBit i = true ↔ ∃ j, j < w ∧ x.testBit (i + j) = true

/-- One step of the bit smearing doubles the window. -/
theorem Window.smear {x w y : Nat} (h : Window x w y) : Window x (w + w) (y ||| y >>> w) := by
  intro i
  rw [Nat.testBit_or, Nat.testBit_shiftRight, Bool.or_eq_true, h i, h (w + i)]
  constructor
  · rintro (⟨j, hj, hx⟩ | ⟨j, hj, hx⟩)
    · exact ⟨j, by omega, hx⟩
    · exact ⟨w + j, by omega, by rw [show i + (w + j) = w + i + j by omega]; exact hx⟩
  · rintro ⟨j, hj, hx⟩
    by_cases hw : j < w
    · exact .inl ⟨j, hw, hx⟩
    · exact .inr ⟨j - w, by omega, by rw [show w + i + (j - w) = i + j by omega]; exact hx⟩

/-- Smearing sets every bit below the highest one. -/
theorem smear_eq {x n : Nat} (hlow : 2 ^ n ≤ x) (hhigh : x < 2 ^ (n + 1)) (hn : n < 32) :
    let a := x ||| x >>> 1
    let b := a ||| a >>> 2
    let c := b ||| b >>> 4
    let d := c ||| c >>> 8
    d ||| d >>> 16 = 2 ^ (n + 1) - 1 := by
  intro a b c d
  have htop : x.testBit n = true := by
    rw [Nat.testBit_eq_decide_div_mod_eq, decide_eq_true_eq]
    have : x / 2 ^ n = 1 := Nat.div_eq_of_lt_le (by omega) (by rw [pow_succ] at hhigh; omega)
    rw [this]
  have hzero : ∀ i, n < i → x.testBit i = false := by
    intro i hi
    exact Nat.testBit_lt_two_pow (lt_of_lt_of_le hhigh (Nat.pow_le_pow_right (by omega) hi))
  have hself : Window x 1 x := by
    intro i
    constructor
    · intro h
      exact ⟨0, by omega, h⟩
    · rintro ⟨j, hj, h⟩
      rwa [show j = 0 by omega] at h
  have hsmear : Window x 32 (d ||| d >>> 16) := hself.smear.smear.smear.smear.smear
  apply Nat.eq_of_testBit_eq
  intro i
  rw [Nat.testBit_two_pow_sub_one, Bool.eq_iff_iff, hsmear i, decide_eq_true_eq]
  constructor
  · rintro ⟨j, -, h⟩
    by_contra hi
    rw [hzero (i + j) (by omega)] at h
    cases h
  · intro hi
    exact ⟨n - i, by omega, by rw [show i + (n - i) = n by omega]; exact htop⟩

/-- The next power of two. -/
theorem roundUpPower2_spec {val : UInt32} (h0 : 0 < val) (hval : val.toNat ≤ 2 ^ 31) :
    ∃ k, (roundUpPower2 val).toNat = 2 ^ k ∧ val.toNat ≤ 2 ^ k ∧ 2 ^ k < 2 * val.toNat := by
  have h0' : 0 < val.toNat := by simpa [UInt32.lt_iff_toNat_lt] using h0
  have hsub : (val - 1).toNat = val.toNat - 1 := by
    rw [UInt32.toNat_sub_of_le]
    · rfl
    · rw [UInt32.le_iff_toNat_le]
      exact h0'
  by_cases h1 : val.toNat = 1
  · have hv : val = 1 := UInt32.toNat_inj.mp h1
    subst hv
    exact ⟨0, by decide, by decide, by decide⟩
  · obtain ⟨n, hlow, hhigh⟩ : ∃ n, 2 ^ n ≤ val.toNat - 1 ∧ val.toNat - 1 < 2 ^ (n + 1) :=
      ⟨Nat.log2 (val.toNat - 1), Nat.log2_self_le (by omega), Nat.lt_log2_self⟩
    have hn : n < 31 := by
      by_contra hge
      have : 2 ^ 31 ≤ 2 ^ n := Nat.pow_le_pow_right (by omega) (by omega)
      omega
    have hsm := smear_eq hlow hhigh (by omega)
    refine ⟨n + 1, ?_, by omega, by rw [pow_succ]; omega⟩
    have hpow : 2 ^ (n + 1) ≤ 2 ^ 31 := Nat.pow_le_pow_right (by omega) (by omega)
    have hpos : 0 < 2 ^ (n + 1) := by positivity
    simp only [roundUpPower2]
    rw [UInt32.toNat_add]
    simp only [UInt32.toNat_or, UInt32.toNat_shiftRight, hsub] at hsm ⊢
    simp only [UInt32.toNat_ofNat, Nat.reduceMod, Nat.reducePow] at hsm ⊢
    rw [hsm]
    omega

/-! ## Slots and live items -/

section Slots

variable {Item : Type} {l : List (HashEntry Item)}

/-- Replacing one slot exchanges its item for the new one. -/
theorem items_set {i : Nat} {e : HashEntry Item} (e' : HashEntry Item) (h : l[i]? = some e) :
    (e.item?.toList ++ (l.set i e').filterMap HashEntry.item?).Perm
      (e'.item?.toList ++ l.filterMap HashEntry.item?) := by
  induction l generalizing i with
  | nil => cases h
  | cons a l ih =>
    have hcons : ∀ (b : HashEntry Item) (m : List (HashEntry Item)),
        (b :: m).filterMap HashEntry.item? = b.item?.toList ++ m.filterMap HashEntry.item? := by
      intro b m
      rw [List.filterMap_cons]
      cases b.item? with
      | none => rfl
      | some x => rfl
    cases i with
    | zero =>
      rw [List.getElem?_cons_zero] at h
      cases h
      rw [List.set_cons_zero, hcons, hcons, ← List.append_assoc, ← List.append_assoc]
      exact List.perm_append_comm.append_right _
    | succ i =>
      rw [List.getElem?_cons_succ] at h
      rw [List.set_cons_succ, hcons, hcons]
      refine (List.perm_append_comm_assoc _ _ _).trans ?_
      refine ((ih h).append_left _).trans ?_
      exact List.perm_append_comm_assoc _ _ _

/-- Every slot is empty, dead or live. -/
theorem slots_partition (l : List (HashEntry Item)) :
    l.length = l.countP HashEntry.isNull + l.countP HashEntry.isTombstone +
      (l.filterMap HashEntry.item?).length := by
  induction l with
  | nil => rfl
  | cons a l ih =>
    cases h : a.data with
    | null =>
      simp [HashEntry.isNull, HashEntry.isTombstone, HashEntry.item?, h, ih]
      omega
    | tombstone =>
      simp [HashEntry.isNull, HashEntry.isTombstone, HashEntry.item?, h, ih]
      omega
    | item x =>
      simp [HashEntry.isNull, HashEntry.isTombstone, HashEntry.item?, h, ih]
      omega

/-- A table that is not full of live and dead entries has an empty slot. -/
theorem exists_null (h : l.countP HashEntry.isTombstone + (l.filterMap HashEntry.item?).length <
    l.length) : ∃ e ∈ l, e.isNull = true := by
  have hpart := slots_partition l
  exact List.countP_pos_iff.mp (by omega)

theorem item?_eq_some {e : HashEntry Item} {x : Item} : e.item? = some x ↔ e.data = .item x := by
  unfold HashEntry.item?
  split
  · rename_i y hy
    rw [hy, Option.some.injEq, Data.item.injEq]
  · rename_i hno
    constructor
    · intro h
      cases h
    · intro h
      exact absurd h (hno x)

theorem isNull_iff {e : HashEntry Item} : e.isNull = true ↔ e.data = .null := by
  unfold HashEntry.isNull
  cases e.data with
  | null => simp
  | tombstone => simp
  | item x => simp

/-- Putting an item into an empty slot adds this item. -/
theorem items_set_item {i : Nat} {e : HashEntry Item} (h : l[i]? = some e) (he : e.data = .null)
    (v : UInt32) (x : Item) : ((l.set i ⟨v, .item x⟩).filterMap HashEntry.item?).Perm
      (x :: l.filterMap HashEntry.item?) := by
  have hperm := items_set ⟨v, .item x⟩ h
  have hnone : e.item? = none := by simp [HashEntry.item?, he]
  rw [hnone] at hperm
  exact hperm

/-- Putting an item into an empty slot adds no tombstone. -/
theorem countTombStones_set_item {i : Nat} {e : HashEntry Item} (h : l[i]? = some e)
    (he : e.data = .null) (v : UInt32) (x : Item) :
    (l.set i ⟨v, .item x⟩).countP HashEntry.isTombstone = l.countP HashEntry.isTombstone := by
  obtain ⟨hi, rfl⟩ := List.getElem?_eq_some_iff.mp h
  rw [List.countP_set hi]
  simp [HashEntry.isTombstone, he]

/-- A tombstone in the place of an item takes this item out. -/
theorem items_set_tombstone {i : Nat} {e : HashEntry Item} {x : Item} (h : l[i]? = some e)
    (he : e.data = .item x) (v : UInt32) : (l.filterMap HashEntry.item?).Perm
      (x :: (l.set i ⟨v, .tombstone⟩).filterMap HashEntry.item?) := by
  have hperm := items_set ⟨v, .tombstone⟩ h
  rw [item?_eq_some.mpr he] at hperm
  exact hperm.symm

theorem countTombStones_set_tombstone {i : Nat} {e : HashEntry Item} {x : Item}
    (h : l[i]? = some e) (he : e.data = .item x) (v : UInt32) :
    (l.set i ⟨v, .tombstone⟩).countP HashEntry.isTombstone =
      l.countP HashEntry.isTombstone + 1 := by
  obtain ⟨hi, rfl⟩ := List.getElem?_eq_some_iff.mp h
  rw [List.countP_set hi]
  simp [HashEntry.isTombstone, he]

/-- The items found in a list of slots. -/
theorem mem_items {x : Item} : x ∈ l.filterMap HashEntry.item? ↔
    ∃ (i : Nat) (e : HashEntry Item), l[i]? = some e ∧ e.data = .item x := by
  rw [List.mem_filterMap]
  constructor
  · rintro ⟨e, he, hx⟩
    obtain ⟨i, hi⟩ := List.mem_iff_getElem?.mp he
    exact ⟨i, e, hi, item?_eq_some.mp hx⟩
  · rintro ⟨i, e, hi, hx⟩
    exact ⟨e, List.mem_of_getElem? hi, item?_eq_some.mpr hx⟩

end Slots

/-! ## The invariant -/

section Invariant

variable {Item : Type} {hash : Item → UInt32}

/-- The live entries of the slots are stored with the hash value of their item
and are reached from its home position. -/
def Chained (hash : Item → UInt32) (slots : List (HashEntry Item)) : Prop :=
  ∀ i e x, slots[i]? = some e → e.data = .item x →
    e.hashValue = hash x ∧
      Reaches HashEntry.isNull slots ((hash x).toNat % slots.length) i

/-- What every operation keeps. -/
structure HashTable.Inv (hash : Item → UInt32) (t : HashTable Item) : Prop where
  size : ∃ k, t.tableSize = 2 ^ k
  chained : Chained hash t.pEntries
  live : t.numEntries = t.items.length
  dead : t.numDeadEntries = countTombStones t
  load : (t.numEntries + t.numDeadEntries) * LOAD_DENOM ≤ t.tableSize * LOAD_NUMER

/-- The computations with the table's size stay below the limit of `int`. -/
def HashTable.Fits (t : HashTable Item) : Prop := t.tableSize * LOAD_DENOM < 2 ^ 31

theorem mask_eq_mod {n k : Nat} (h : n = 2 ^ k) (x : Nat) : x &&& (n - 1) = x % n := by
  rw [h, Nat.and_two_pow_sub_one_eq_mod]

theorem HashTable.Inv.pos {t : HashTable Item} (h : t.Inv hash) : 0 < t.tableSize := by
  obtain ⟨k, hk⟩ := h.size
  rw [hk]
  positivity

theorem HashTable.Inv.exists_null {t : HashTable Item} (h : t.Inv hash) :
    ∃ e ∈ t.pEntries, e.isNull = true := by
  have hload := h.load
  have hlive := h.live
  have hdead := h.dead
  have hpos := h.pos
  simp only [HashTable.items, countTombStones, HashTable.tableSize, LOAD_DENOM, LOAD_NUMER]
    at hload hlive hdead hpos
  exact Minzip.exists_null (by omega)

theorem nextEntry_goesAround (t : HashTable Item) : GoesAround t.nextEntry t.tableSize := by
  intro h1 i hi
  unfold HashTable.nextEntry
  by_cases hlast : i + 1 = t.tableSize
  · rw [if_pos hlast, if_neg (by omega), hlast, Nat.mod_self]
  · rw [if_neg hlast, Nat.mod_eq_of_lt (by omega)]

theorem maskNext_goesAround {n k : Nat} (h : n = 2 ^ k) :
    GoesAround (fun i => some ((i + 1) &&& (n - 1))) n := by
  intro _ i _
  exact congrArg some (mask_eq_mod h (i + 1))

/-- Putting an item into an empty slot that is reached from its home position
keeps the chains. -/
theorem Chained.set_item {slots : List (HashEntry Item)} (h : Chained hash slots) {i : Nat}
    {x : Item} (hreach : Reaches HashEntry.isNull slots ((hash x).toNat % slots.length) i) :
    Chained hash (slots.set i ⟨hash x, .item x⟩) := by
  intro j e y hj hy
  rw [List.length_set]
  rw [List.getElem?_set] at hj
  split at hj
  · rename_i hij
    split at hj
    · cases hj
      cases hy
      subst hij
      exact ⟨rfl, hreach.set rfl⟩
    · cases hj
  · obtain ⟨hval, hr⟩ := h j e y hj hy
    exact ⟨hval, hr.set rfl⟩

/-- A tombstone in the place of an item keeps the chains of the others. -/
theorem Chained.set_tombstone {slots : List (HashEntry Item)} (h : Chained hash slots) {i : Nat}
    (v : UInt32) : Chained hash (slots.set i ⟨v, .tombstone⟩) := by
  intro j e y hj hy
  rw [List.length_set]
  rw [List.getElem?_set] at hj
  split at hj
  · split at hj
    · cases hj
      cases hy
    · cases hj
  · obtain ⟨hval, hr⟩ := h j e y hj hy
    exact ⟨hval, hr.set rfl⟩

/-- Where every slot is empty there is no chain. -/
theorem chained_of_null {slots : List (HashEntry Item)} (h : ∀ e ∈ slots, e.data = .null) :
    Chained hash slots := by
  intro i e x hi hx
  rw [h e (List.mem_of_getElem? hi)] at hx
  cases hx

theorem items_of_null {slots : List (HashEntry Item)} (h : ∀ e ∈ slots, e.data = .null) :
    slots.filterMap HashEntry.item? = [] := by
  rw [List.filterMap_eq_nil_iff]
  intro e he
  simp [HashEntry.item?, h e he]

theorem countTombStones_of_null {slots : List (HashEntry Item)}
    (h : ∀ e ∈ slots, e.data = .null) : slots.countP HashEntry.isTombstone = 0 := by
  rw [List.countP_eq_zero]
  intro e he
  simp [HashEntry.isTombstone, h e he]

/-- A table whose slots are all empty satisfies the invariant. -/
theorem inv_of_null {slots : List (HashEntry Item)} {k : Nat} (hsize : slots.length = 2 ^ k)
    (h : ∀ e ∈ slots, e.data = .null) : HashTable.Inv hash ⟨slots, 0, 0⟩ where
  size := ⟨k, hsize⟩
  chained := chained_of_null h
  live := by rw [HashTable.items, items_of_null h]; rfl
  dead := by rw [countTombStones, countTombStones_of_null h]
  load := by simp

theorem emptyEntries_null (n : Nat) : ∀ e ∈ emptyEntries Item n, e.data = .null := by
  intro e he
  rw [List.eq_of_mem_replicate he]

end Invariant

/-! ## Specifications of the operations -/

section Specs

variable {Item : Type} {hash : Item → UInt32}

theorem create_inv (hash : Item → UInt32) {initialSize : UInt32} (h0 : 0 < initialSize)
    (hsize : initialSize.toNat ≤ 2 ^ 31) :
    ∃ t : HashTable Item, mzHashTableCreate initialSize = .done t ∧ t.Inv hash ∧ t.items = [] ∧
      t.tableSize = (roundUpPower2 initialSize).toNat := by
  obtain ⟨k, hk, -, -⟩ := roundUpPower2_spec h0 hsize
  have hnull : ∀ e ∈ emptyEntries Item (roundUpPower2 initialSize).toNat, e.data = .null :=
    emptyEntries_null _
  refine ⟨_, if_pos h0, inv_of_null (k := k) ?_ hnull, items_of_null hnull, ?_⟩
  · rw [emptyEntries, List.length_replicate, hk]
  · exact List.length_replicate

/-- The rehashing loop: with room for every live entry, each finds an empty
slot, and the new storage holds the items that it had and those that were
moved. -/
theorem rehash_spec {newSize k : Nat} (hsize : newSize = 2 ^ k) (l : List (HashEntry Item)) :
    ∀ slots : List (HashEntry Item), slots.length = newSize →
      (∀ e x, e ∈ l → e.data = .item x → e.hashValue = hash x) →
      Chained hash slots → slots.countP HashEntry.isTombstone = 0 →
      (slots.filterMap HashEntry.item?).length + (l.filterMap HashEntry.item?).length < newSize →
      ∃ slots', rehash newSize l slots = .done slots' ∧ slots'.length = newSize ∧
        Chained hash slots' ∧ slots'.countP HashEntry.isTombstone = 0 ∧
        (slots'.filterMap HashEntry.item?).Perm
          (l.filterMap HashEntry.item? ++ slots.filterMap HashEntry.item?) := by
  induction l with
  | nil =>
    intro slots hlen _ hchain hdead _
    exact ⟨slots, rfl, hlen, hchain, hdead, List.Perm.refl _⟩
  | cons e l ih =>
    intro slots hlen hval hchain hdead hroom
    have hval' : ∀ e' x, e' ∈ l → e'.data = .item x → e'.hashValue = hash x :=
      fun e' x he' => hval e' x (List.mem_cons_of_mem _ he')
    cases hdata : e.data with
    | null =>
      have hitem : e.item? = none := by simp [HashEntry.item?, hdata]
      rw [List.filterMap_cons_none hitem] at hroom ⊢
      simp only [rehash, hdata]
      exact ih slots hlen hval' hchain hdead hroom
    | tombstone =>
      have hitem : e.item? = none := by simp [HashEntry.item?, hdata]
      rw [List.filterMap_cons_none hitem] at hroom ⊢
      simp only [rehash, hdata]
      exact ih slots hlen hval' hchain hdead hroom
    | item x =>
      have hitem : e.item? = some x := item?_eq_some.mpr hdata
      rw [List.filterMap_cons_some hitem] at hroom ⊢
      rw [List.length_cons] at hroom
      have hx := hval e x (List.mem_cons_self ..) hdata
      have hnull : ∃ e ∈ slots, e.isNull = true := exists_null (by omega)
      have hhome : (hash x).toNat % newSize < slots.length := by
        rw [hlen]
        exact Nat.mod_lt _ (by omega)
      have hnext : GoesAround (fun i => some ((i + 1) &&& (newSize - 1))) slots.length := by
        rw [hlen]
        exact maskNext_goesAround hsize
      obtain ⟨i, hfirst⟩ := exists_firstStop hhome hnull
      have hprobe := probe_eq_of_firstStop hnext hhome hfirst hlen.le
      have hreach : Reaches HashEntry.isNull slots ((hash x).toNat % newSize) i :=
        hfirst.reaches fun _ h => h
      obtain ⟨-, -, -, ⟨e₀, he₀, hstop⟩, -⟩ := hfirst
      have hitems := items_set_item he₀ (isNull_iff.mp hstop) (hash x) x
      have hdead' := countTombStones_set_item he₀ (isNull_iff.mp hstop) (hash x) x
      obtain ⟨slots', hrun, hlen', hchain', hdead'', hitems'⟩ :=
        ih (slots.set i ⟨hash x, .item x⟩) (by rw [List.length_set, hlen]) hval'
          (hchain.set_item (by rw [hlen]; exact hreach)) (hdead'.trans hdead)
          (by rw [hitems.length_eq, List.length_cons]; omega)
      refine ⟨slots', ?_, hlen', hchain', hdead'', ?_⟩
      · simp only [rehash, hdata]
        rw [hx, mask_eq_mod hsize, hprobe]
        exact hrun
      · refine hitems'.trans ?_
        refine (hitems.append_left _).trans ?_
        exact List.perm_middle

/-- Resizing keeps the live items and drops the tombstones. -/
theorem resizeHash_spec {t : HashTable Item} {newSize k : Nat} (hsize : newSize = 2 ^ k)
    (hchain : Chained hash t.pEntries) (hdead : t.numDeadEntries = countTombStones t)
    (hroom : t.items.length < newSize) :
    ∃ t', resizeHash t newSize = .done t' ∧ t'.tableSize = newSize ∧ Chained hash t'.pEntries ∧
      countTombStones t' = 0 ∧ t'.numEntries = t.numEntries ∧ t'.numDeadEntries = 0 ∧
      t'.items.Perm t.items := by
  have hnull : ∀ e ∈ emptyEntries Item newSize, e.data = .null := emptyEntries_null newSize
  have hval : ∀ e x, e ∈ t.pEntries → e.data = .item x → e.hashValue = hash x := by
    intro e x he hx
    obtain ⟨i, hi⟩ := List.mem_iff_getElem?.mp he
    exact (hchain i e x hi hx).1
  obtain ⟨slots, hrun, hlen, hchain', hdead', hitems⟩ := rehash_spec hsize t.pEntries
    (emptyEntries Item newSize) List.length_replicate hval (chained_of_null hnull)
    (countTombStones_of_null hnull) (by rw [items_of_null hnull, List.length_nil, Nat.zero_add]; exact hroom)
  rw [items_of_null hnull, List.append_nil] at hitems
  refine ⟨⟨slots, t.numEntries, 0⟩, ?_, hlen, hchain', hdead', rfl, rfl, hitems⟩
  unfold resizeHash
  rw [if_neg (not_not.mpr hdead.symm), hrun]
  rfl

/-- Adding an item at an empty slot that is reached from its home position. The
table grows only when that many entries, live and dead, were in it. -/
theorem addAt_spec {t : HashTable Item} (h : t.Inv hash) (hfits : t.Fits) {i : Nat} {x : Item}
    {e : HashEntry Item} (he : t.pEntries[i]? = some e) (hnull : e.data = .null)
    (hreach : Reaches HashEntry.isNull t.pEntries ((hash x).toNat % t.tableSize) i) :
    ∃ t', addAt t i (hash x) x = .done t' ∧ t'.Inv hash ∧ t'.items.Perm (x :: t.items) ∧
      t'.numDeadEntries ≤ t.numDeadEntries ∧
      (t'.tableSize = t.tableSize ∨ t'.tableSize * LOAD_NUMER ≤
        2 * ((t.numEntries + t.numDeadEntries + 1) * LOAD_DENOM)) := by
  obtain ⟨k, hk⟩ := h.size
  have hload := h.load
  have hpos := h.pos
  have hlive := h.live
  set t₁ : HashTable Item := { t with
    pEntries := t.pEntries.set i ⟨hash x, .item x⟩, numEntries := t.numEntries + 1 } with ht₁
  have hsize₁ : t₁.tableSize = t.tableSize := List.length_set
  have hitems₁ : t₁.items.Perm (x :: t.items) := items_set_item he hnull (hash x) x
  have hdead₁ : t₁.numDeadEntries = countTombStones t₁ :=
    h.dead.trans (countTombStones_set_item he hnull (hash x) x).symm
  have hchain₁ : Chained hash t₁.pEntries := h.chained.set_item hreach
  have hlen₁ := hitems₁.length_eq
  rw [List.length_cons, ← hlive] at hlen₁
  -- None of the three products leaves the range of `int`.
  simp only [HashTable.Fits, LOAD_DENOM] at hfits
  simp only [LOAD_DENOM, LOAD_NUMER] at hload
  have hb₁ : (t.numEntries + 1 + t.numDeadEntries) * 8 < 2 ^ 31 := by omega
  have hb₂ : t.tableSize * 5 < 2 ^ 31 := by omega
  have hb₃ : t.tableSize * 2 < 2 ^ 31 := by omega
  have hw₁ := wrap32_of_range (x := ((t.numEntries + 1 + t.numDeadEntries) * 8 : Nat))
    (by omega) (by exact_mod_cast hb₁)
  have hw₂ := wrap32_of_range (x := (t.tableSize * 5 : Nat)) (by omega) (by exact_mod_cast hb₂)
  have hw₃ := wrap32_of_range (x := (t.tableSize * 2 : Nat)) (by omega) (by exact_mod_cast hb₃)
  have hroom : t₁.items.length < t.tableSize * 2 := by omega
  unfold addAt
  simp only [← ht₁, hsize₁, LOAD_DENOM, LOAD_NUMER]
  rw [hw₁, hw₂, hw₃, Int.toNat_natCast]
  by_cases hfull : t.tableSize * 5 < (t.numEntries + 1 + t.numDeadEntries) * 8
  · obtain ⟨t', hrun, hsize', hchain', htomb', hnum', hdead', hitems'⟩ :=
      resizeHash_spec (k := k + 1) (by rw [hk, pow_succ]) hchain₁ hdead₁ hroom
    have hnum : t'.numEntries = t.numEntries + 1 := hnum'
    have hperm := hitems'.trans hitems₁
    refine ⟨t', ?_, ⟨⟨k + 1, by rw [hsize', hk, pow_succ]⟩, hchain', ?_, ?_, ?_⟩, hperm,
      hdead'.le.trans (Nat.zero_le _), .inr ?_⟩
    · have hlt : t'.numEntries < t'.tableSize := by omega
      rw [if_pos (by exact_mod_cast hfull), hrun, Outcome.done_bind, if_pos hlt]
    · rw [hnum, hperm.length_eq, List.length_cons, ← hlive]
    · rw [hdead', htomb']
    · simp only [LOAD_DENOM, LOAD_NUMER]
      omega
    · omega
  · refine ⟨t₁, ?_, ⟨⟨k, hsize₁.trans hk⟩, hchain₁, hlen₁.symm, hdead₁, ?_⟩, hitems₁, le_rfl,
      .inl hsize₁⟩
    · have hlt : t₁.numEntries < t.tableSize := by
        have hnum : t₁.numEntries = t.numEntries + 1 := rfl
        omega
      rw [if_neg (by exact_mod_cast hfull), Outcome.done_bind, hsize₁, if_pos hlt]
    · have hnum : t₁.numEntries = t.numEntries + 1 := rfl
      have hdead : t₁.numDeadEntries = t.numDeadEntries := rfl
      simp only [LOAD_DENOM, LOAD_NUMER]
      omega

/-- The probing loops stop in an empty slot or in one that matches, and the
slots before it were occupied. -/
theorem probe_spec {t : HashTable Item} (h : t.Inv hash) (itemHash : UInt32)
    (stop : HashEntry Item → Bool) (hstop : ∀ e, e.isNull = true → stop e = true) :
    ∃ i e, probe t.nextEntry stop t.pEntries t.tableSize (itemHash.toNat &&& (t.tableSize - 1)) =
        .done i ∧ t.pEntries[i]? = some e ∧ stop e = true ∧
      FirstStop stop t.pEntries (itemHash.toNat % t.tableSize) i := by
  obtain ⟨k, hk⟩ := h.size
  obtain ⟨e₀, hmem, hnull⟩ := h.exists_null
  have hhome : itemHash.toNat % t.tableSize < t.pEntries.length := Nat.mod_lt _ h.pos
  obtain ⟨i, hfirst⟩ := exists_firstStop hhome ⟨e₀, hmem, hstop e₀ hnull⟩
  have hprobe := probe_eq_of_firstStop (nextEntry_goesAround t) hhome hfirst le_rfl
  obtain ⟨-, -, -, ⟨e, he, hes⟩, -⟩ := id hfirst
  rw [mask_eq_mod hk]
  exact ⟨i, e, hprobe, he, hes, hfirst⟩

theorem lookupStop_of_null (itemHash : UInt32) (cmp : Item → Int) (e : HashEntry Item)
    (h : e.isNull = true) : lookupStop itemHash cmp e = true := by
  simp [lookupStop, isNull_iff.mp h]

/-- A lookup returns a live item that compares equal, or finds that there is
none. In the second case it adds the item it was given, if any. -/
theorem lookup_spec {t : HashTable Item} (h : t.Inv hash) (itemHash : UInt32) (cmp : Item → Int)
    (hcmp : ∀ d ∈ t.items, cmp d = 0 → hash d = itemHash) (doAdd : Option Item)
    (hadd : ∀ x ∈ doAdd, hash x = itemHash ∧ t.Fits) :
    (∃ d ∈ t.items, cmp d = 0 ∧ mzHashTableLookup t itemHash cmp doAdd = .done (t, some d)) ∨
    ((∀ d ∈ t.items, cmp d ≠ 0) ∧
      (doAdd = none → mzHashTableLookup t itemHash cmp doAdd = .done (t, none)) ∧
      ∀ x, doAdd = some x → ∃ t', mzHashTableLookup t itemHash cmp doAdd = .done (t', some x) ∧
        t'.Inv hash ∧ t'.items.Perm (x :: t.items) ∧ t'.numDeadEntries ≤ t.numDeadEntries ∧
        (t'.tableSize = t.tableSize ∨ t'.tableSize * LOAD_NUMER ≤
          2 * ((t.numEntries + t.numDeadEntries + 1) * LOAD_DENOM))) := by
  obtain ⟨i, e, hprobe, he, hes, hfirst⟩ := probe_spec h itemHash _ (lookupStop_of_null itemHash cmp)
  cases hdata : e.data with
  | null =>
    have hnone : ∀ d ∈ t.items, cmp d ≠ 0 := by
      intro d hd hzero
      obtain ⟨i', e', he', hd'⟩ := mem_items.mp hd
      obtain ⟨hval, hreach⟩ := h.chained i' e' d he' hd'
      rw [hcmp d hd hzero] at hval hreach
      have hocc : e.isNull = false := by
        refine hfirst.not_vacant he hreach he' ?_ ?_
        · simp [lookupStop, hd', hval, hzero]
        · simp [HashEntry.isNull, hd']
      rw [isNull_iff.mpr hdata] at hocc
      cases hocc
    refine .inr ⟨hnone, ?_, ?_⟩
    · rintro rfl
      unfold mzHashTableLookup
      rw [if_neg h.pos.ne', hprobe, Outcome.done_bind, he]
      simp only [Option.map_some, hdata]
    · rintro x rfl
      obtain ⟨hx, hfits⟩ := hadd x rfl
      have hreach := hfirst.reaches (lookupStop_of_null itemHash cmp)
      rw [← hx] at hreach
      obtain ⟨t', hadd', hinv, hitems, hgrow⟩ := addAt_spec h hfits he hdata hreach
      refine ⟨t', ?_, hinv, hitems, hgrow⟩
      unfold mzHashTableLookup
      rw [if_neg h.pos.ne', hprobe, Outcome.done_bind, he]
      simp only [Option.map_some, hdata, ← hx, hadd', Outcome.done_bind]
  | tombstone =>
    simp [lookupStop, hdata] at hes
  | item d =>
    refine .inl ⟨d, mem_items.mpr ⟨i, e, he, hdata⟩, ?_, ?_⟩
    · simp only [lookupStop, hdata, decide_eq_true_eq] at hes
      exact hes.2
    · unfold mzHashTableLookup
      rw [if_neg h.pos.ne', hprobe, Outcome.done_bind, he]
      simp only [Option.map_some, hdata]

/-- Removing an item that is in the table takes exactly this item out; removing
one that is not changes nothing. -/
theorem remove_spec [DecidableEq Item] {t : HashTable Item} (h : t.Inv hash) (x : Item) :
    (x ∈ t.items ∧ ∃ t', mzHashTableRemove t (hash x) x = .done (t', true) ∧ t'.Inv hash ∧
      t.items.Perm (x :: t'.items) ∧ t'.tableSize = t.tableSize) ∨
    (x ∉ t.items ∧ mzHashTableRemove t (hash x) x = .done (t, false)) := by
  obtain ⟨i, e, hprobe, he, hes, hfirst⟩ := probe_spec h (hash x)
    (fun e => e.isNull || e.item? == some x) (fun e he => by rw [he, Bool.true_or])
  by_cases hitem : e.item? = some x
  · have hdata := item?_eq_some.mp hitem
    refine .inl ⟨mem_items.mpr ⟨i, e, he, hdata⟩,
      ⟨t.pEntries.set i { e with data := .tombstone }, t.numEntries - 1, t.numDeadEntries + 1⟩,
      ?_, ?_, ?_, ?_⟩
    · unfold mzHashTableRemove
      rw [if_neg h.pos.ne', hprobe, Outcome.done_bind, he]
      simp only [hitem, if_true]
    · have hperm := items_set_tombstone he hdata e.hashValue
      have hlen := hperm.length_eq
      have hlive := h.live
      have hload := h.load
      rw [HashTable.items, hlen, List.length_cons] at hlive
      refine ⟨?_, h.chained.set_tombstone e.hashValue, ?_, ?_, ?_⟩
      · obtain ⟨k, hk⟩ := h.size
        exact ⟨k, by rw [HashTable.tableSize, List.length_set]; exact hk⟩
      · simp only [HashTable.items]
        omega
      · rw [countTombStones, countTombStones_set_tombstone he hdata, h.dead, countTombStones]
      · simp only [HashTable.tableSize, List.length_set]
        simp only [HashTable.tableSize] at hload
        rwa [show t.numEntries - 1 + (t.numDeadEntries + 1) =
          t.numEntries + t.numDeadEntries by omega]
    · exact items_set_tombstone he hdata e.hashValue
    · exact List.length_set
  · refine .inr ⟨?_, ?_⟩
    · -- The search ended in an empty slot, so the item is not further along its chain.
      intro hx
      obtain ⟨i', e', he', hx'⟩ := mem_items.mp hx
      have hreach := (h.chained i' e' x he' hx').2
      have hocc : e.isNull = false := by
        refine hfirst.not_vacant he hreach he' ?_ ?_
        · simp [item?_eq_some.mpr hx']
        · simp [HashEntry.isNull, hx']
      rw [hocc, Bool.false_or, beq_iff_eq] at hes
      exact hitem hes
    · unfold mzHashTableRemove
      rw [if_neg h.pos.ne', hprobe, Outcome.done_bind, he]
      simp only [hitem, if_false]

/-- Clearing empties the table and hands every live item to `freeFunc`. -/
theorem clear_spec {t : HashTable Item} (h : t.Inv hash) :
    (mzHashTableClear t).1.Inv hash ∧ (mzHashTableClear t).1.items = [] ∧
      (mzHashTableClear t).1.tableSize = t.tableSize ∧ (mzHashTableClear t).2 = t.items := by
  obtain ⟨k, hk⟩ := h.size
  have hnull : ∀ e ∈ (mzHashTableClear t).1.pEntries, e.data = .null := by
    intro e he
    obtain ⟨e', -, rfl⟩ := List.mem_map.mp he
    rfl
  have hlen : (mzHashTableClear t).1.pEntries.length = t.tableSize := List.length_map _
  exact ⟨inv_of_null (hlen.trans hk) hnull, items_of_null hnull, hlen, rfl⟩

end Specs

/-! ## The table as a finite map -/

/-- The operations of the interface. -/
inductive Op (Item : Type) where
  | lookup (item : Item) (doAdd : Bool)
  | remove (item : Item)
  | clear
  deriving DecidableEq, Repr

/-- What an operation returns: the pointer of a lookup, the flag of a removal,
the items that `freeFunc` was called on by a clear. -/
inductive Result (Item : Type) where
  | found (r : Option Item)
  | removed (b : Bool)
  | cleared (freed : List Item)
  deriving DecidableEq, Repr

/-- Two results are the same; a clear frees the items in some order. -/
def Result.Agrees {Item : Type} : Result Item → Result Item → Prop
  | .cleared l, .cleared l' => l.Perm l'
  | r, r' => r = r'

section Refinement

variable {Item : Type} [DecidableEq Item] (hash : Item → UInt32) (cmpFunc : Item → Item → Int)

/-- One call of the interface. The hash value a caller passes is the one of
the item. -/
def HashTable.step (t : HashTable Item) : Op Item → Outcome (HashTable Item × Result Item)
  | .lookup x doAdd => do
    let (t', r) ← mzHashTableLookup t (hash x) (fun d => cmpFunc d x) (if doAdd then some x else none)
    .done (t', .found r)
  | .remove x => do
    let (t', b) ← mzHashTableRemove t (hash x) x
    .done (t', .removed b)
  | .clear =>
    let (t', freed) := mzHashTableClear t
    .done (t', .cleared freed)

/-- A sequence of calls on one table. -/
def HashTable.run (t : HashTable Item) : List (Op Item) →
    Outcome (HashTable Item × List (Result Item))
  | [] => .done (t, [])
  | op :: ops => do
    let (t', r) ← t.step hash cmpFunc op
    let (t'', rs) ← HashTable.run t' ops
    .done (t'', r :: rs)

/-- `mzHashTableCreate` and a sequence of calls on the new table. -/
def createAndRun (initialSize : UInt32) (ops : List (Op Item)) :
    Outcome (HashTable Item × List (Result Item)) := do
  let t ← mzHashTableCreate initialSize
  t.run hash cmpFunc ops

/-- The finite map: the items that were added and not removed since, the most
recent one first. -/
def Spec.lookup (live : List Item) (x : Item) : Option Item :=
  live.find? fun d => cmpFunc d x = 0

/-- One operation of the map. -/
def Spec.step (live : List Item) : Op Item → List Item × Result Item
  | .lookup x doAdd =>
    match Spec.lookup cmpFunc live x with
    | some d => (live, .found (some d))
    | none => if doAdd then (x :: live, .found (some x)) else (live, .found none)
  | .remove x => (live.erase x, .removed (decide (x ∈ live)))
  | .clear => ([], .cleared live)

/-- A sequence of operations of the map. -/
def Spec.run (live : List Item) : List (Op Item) → List Item × List (Result Item)
  | [] => (live, [])
  | op :: ops =>
    let (live', r) := Spec.step cmpFunc live op
    let (live'', rs) := Spec.run live' ops
    (live'', r :: rs)

/-- The map has at most one item for each key. -/
def Spec.Distinct (live : List Item) : Prop := live.Pairwise fun a b => cmpFunc a b ≠ 0

/-- The table stands for the map. -/
structure Represents (t : HashTable Item) (live : List Item) : Prop where
  inv : t.Inv hash
  items : t.items.Perm live
  distinct : Spec.Distinct cmpFunc live

variable {hash cmpFunc}

/-- In a map with one item for each key, the item that is found does not
depend on the order. -/
theorem Spec.lookup_eq_some (heq : Equivalence fun a b => cmpFunc a b = 0) {live : List Item}
    (hd : Spec.Distinct cmpFunc live) {d x : Item} (hmem : d ∈ live) (hdx : cmpFunc d x = 0) :
    Spec.lookup cmpFunc live x = some d := by
  cases hfind : Spec.lookup cmpFunc live x with
  | none =>
    have := List.find?_eq_none.mp hfind d hmem
    simp [hdx] at this
  | some d' =>
    have hd' : cmpFunc d' x = 0 := by simpa using List.find?_some hfind
    have hmem' := List.mem_of_find?_eq_some hfind
    by_contra hne
    have hzero : cmpFunc d d' = 0 := heq.trans hdx (heq.symm hd')
    have : Std.Symm fun a b => cmpFunc a b ≠ 0 := ⟨fun a b hab hba => hab (heq.symm hba)⟩
    exact hd.forall hmem hmem' (fun h => hne (by rw [h])) hzero

omit [DecidableEq Item] in
theorem Spec.lookup_eq_none {live : List Item} {x : Item} (h : ∀ d ∈ live, cmpFunc d x ≠ 0) :
    Spec.lookup cmpFunc live x = none := by
  rw [Spec.lookup, List.find?_eq_none]
  intro d hd
  simpa using h d hd

/-- One call agrees with one operation of the map. -/
theorem step_refines (heq : Equivalence fun a b => cmpFunc a b = 0)
    (hhash : ∀ a b, cmpFunc a b = 0 → hash a = hash b) {t : HashTable Item} {live : List Item}
    (h : Represents hash cmpFunc t live) (hfits : t.Fits) (op : Op Item) :
    ∃ t' r, t.step hash cmpFunc op = .done (t', r) ∧
      r.Agrees (Spec.step cmpFunc live op).2 ∧
      Represents hash cmpFunc t' (Spec.step cmpFunc live op).1 := by
  cases op with
  | lookup x doAdd =>
    have hadd : ∀ y ∈ (if doAdd then some x else none), hash y = hash x ∧ t.Fits := by
      intro y hy
      split at hy
      · cases hy
        exact ⟨rfl, hfits⟩
      · cases hy
    rcases lookup_spec h.inv (hash x) (fun d => cmpFunc d x)
      (fun d _ hd => hhash d x hd) _ hadd with ⟨d, hmem, hdx, hrun⟩ | ⟨hnone, hrun₀, hrun₁⟩
    · have hspec := Spec.lookup_eq_some heq h.distinct (h.items.mem_iff.mp hmem) hdx
      refine ⟨t, .found (some d), ?_, ?_, ?_⟩
      · simp only [HashTable.step, hrun, Outcome.done_bind]
      · simp only [Spec.step, hspec, Result.Agrees]
      · simpa only [Spec.step, hspec] using h
    · have hnone' : ∀ d ∈ live, cmpFunc d x ≠ 0 := fun d hd => hnone d (h.items.mem_iff.mpr hd)
      have hspec := Spec.lookup_eq_none hnone'
      cases doAdd with
      | false =>
        refine ⟨t, .found none, ?_, ?_, ?_⟩
        · simp only [HashTable.step, hrun₀ rfl, Outcome.done_bind]
        · simp [Spec.step, hspec, Result.Agrees]
        · simpa [Spec.step, hspec] using h
      | true =>
        obtain ⟨t', hrun, hinv, hitems, -⟩ := hrun₁ x rfl
        refine ⟨t', .found (some x), ?_, ?_, ?_⟩
        · rw [HashTable.step, hrun]
          rfl
        · simp [Spec.step, hspec, Result.Agrees]
        · simp only [Spec.step, hspec, if_true]
          refine ⟨hinv, hitems.trans (h.items.cons x), List.pairwise_cons.mpr ⟨?_, h.distinct⟩⟩
          exact fun d hd hxd => hnone' d hd (heq.symm hxd)
  | remove x =>
    rcases remove_spec h.inv x with ⟨hmem, t', hrun, hinv, hperm, -⟩ | ⟨hmem, hrun⟩
    · have hlive : x ∈ live := h.items.mem_iff.mp hmem
      refine ⟨t', .removed true, ?_, ?_, hinv, ?_, h.distinct.sublist List.erase_sublist⟩
      · simp only [HashTable.step, hrun, Outcome.done_bind]
      · simp [Spec.step, Result.Agrees, hlive]
      · have hcons : (x :: t'.items).Perm (x :: live.erase x) :=
          (hperm.symm.trans h.items).trans (List.perm_cons_erase hlive)
        exact hcons.cons_inv
    · have hlive : x ∉ live := fun hx => hmem (h.items.mem_iff.mpr hx)
      refine ⟨t, .removed false, ?_, ?_, ?_⟩
      · simp only [HashTable.step, hrun, Outcome.done_bind]
      · simp [Spec.step, Result.Agrees, hlive]
      · simpa only [Spec.step, List.erase_of_not_mem hlive] using h
  | clear =>
    obtain ⟨hinv, hitems, -, hfreed⟩ := clear_spec h.inv
    refine ⟨(mzHashTableClear t).1, .cleared (mzHashTableClear t).2, rfl, ?_, hinv, ?_,
      List.Pairwise.nil⟩
    · rw [hfreed]
      exact h.items
    · rw [hitems]
      exact List.Perm.refl _

/-- A sequence of calls agrees with the map, as long as the size of the table
stays below the limit of `int`. -/
theorem run_refines (heq : Equivalence fun a b => cmpFunc a b = 0)
    (hhash : ∀ a b, cmpFunc a b = 0 → hash a = hash b) (ops : List (Op Item)) :
    ∀ (t : HashTable Item) (live : List Item), Represents hash cmpFunc t live →
      (∀ pre, pre <+: ops → ∀ t' rs, t.run hash cmpFunc pre = .done (t', rs) → t'.Fits) →
      ∃ t' rs, t.run hash cmpFunc ops = .done (t', rs) ∧
        List.Forall₂ Result.Agrees rs (Spec.run cmpFunc live ops).2 ∧
        Represents hash cmpFunc t' (Spec.run cmpFunc live ops).1 := by
  induction ops with
  | nil =>
    intro t live h _
    exact ⟨t, [], rfl, List.Forall₂.nil, h⟩
  | cons op ops ih =>
    intro t live h hfits
    have hnow : t.Fits := hfits [] (List.nil_prefix) t [] rfl
    obtain ⟨t₁, r, hstep, hr, h₁⟩ := step_refines heq hhash h hnow op
    have hcons : ∀ pre t' rs, t₁.run hash cmpFunc pre = .done (t', rs) →
        t.run hash cmpFunc (op :: pre) = .done (t', r :: rs) := by
      intro pre t' rs hrun
      simp only [HashTable.run, hstep, Outcome.done_bind, hrun]
    obtain ⟨t', rs, hrun, hrs, h'⟩ := ih t₁ _ h₁ fun pre hpre t' rs hrun =>
      hfits (op :: pre) (List.cons_prefix_cons.mpr ⟨rfl, hpre⟩) t' (r :: rs) (hcons pre t' rs hrun)
    exact ⟨t', r :: rs, hcons ops t' rs hrun, List.Forall₂.cons hr hrs, h'⟩

/-- The hash table is a finite map. Over every sequence of operations on a new
table, with a compare function that is an equivalence, hash values that are
equal on equivalent items, and table sizes below the limit of `int`, no probing
loop runs forever and no access is outside the table; every operation returns
what the map returns; and at the end the live entries are exactly those of the
map, each once, and `numEntries` counts them. -/
theorem hashTable_refines (heq : Equivalence fun a b => cmpFunc a b = 0)
    (hhash : ∀ a b, cmpFunc a b = 0 → hash a = hash b) {initialSize : UInt32}
    (h0 : 0 < initialSize) (hlimit : initialSize.toNat < 2 ^ 31) {ops : List (Op Item)}
    (hfits : ∀ pre, pre <+: ops → ∀ t rs,
      createAndRun hash cmpFunc initialSize pre = .done (t, rs) → t.tableSize * LOAD_DENOM < 2 ^ 31) :
    ∃ t rs, createAndRun hash cmpFunc initialSize ops = .done (t, rs) ∧
      List.Forall₂ Result.Agrees rs (Spec.run cmpFunc [] ops).2 ∧
      t.items.Perm (Spec.run cmpFunc [] ops).1 ∧
      Spec.Distinct cmpFunc (Spec.run cmpFunc [] ops).1 ∧
      t.numEntries = (Spec.run cmpFunc [] ops).1.length := by
  obtain ⟨t₀, hcreate, hinv, hitems, -⟩ := create_inv hash h0 hlimit.le
  have hstart : Represents hash cmpFunc t₀ [] :=
    ⟨hinv, by rw [hitems], List.Pairwise.nil⟩
  have hfits₀ : ∀ pre, pre <+: ops → ∀ t rs, t₀.run hash cmpFunc pre = .done (t, rs) → t.Fits := by
    intro pre hpre t rs hrun
    exact hfits pre hpre t rs (by rw [createAndRun, hcreate, Outcome.done_bind, hrun])
  obtain ⟨t, rs, hrun, hrs, h⟩ := run_refines heq hhash ops t₀ [] hstart hfits₀
  refine ⟨t, rs, ?_, hrs, h.items, h.distinct, ?_⟩
  · rw [createAndRun, hcreate, Outcome.done_bind, hrun]
  · rw [h.inv.live, h.items.length_eq]

end Refinement

/-- Numbers that are equal when their last digits are. -/
def lastDigitCmp (a b : Nat) : Int := (a % 10 : Nat) - (b % 10 : Nat)

theorem lastDigitCmp_equivalence : Equivalence fun a b => lastDigitCmp a b = 0 where
  refl a := by simp [lastDigitCmp]
  symm h := by simp only [lastDigitCmp] at h ⊢; omega
  trans h h' := by simp only [lastDigitCmp] at h h' ⊢; omega

/-- Adding 3 and 13, which have the same last digit, and 4 makes the table
grow from one slot; 13 is found as 3 until 3 is removed. -/
theorem hashTable_refines_lastDigit :
    ∃ t rs, createAndRun (fun a => UInt32.ofNat (a % 10)) lastDigitCmp 1
        [.lookup 3 true, .lookup 13 true, .lookup 4 true, .remove 3, .lookup 13 false] =
          .done (t, rs) ∧
      List.Forall₂ Result.Agrees rs
        [.found (some 3), .found (some 3), .found (some 4), .removed true, .found none] ∧
      t.items.Perm [4] ∧ Spec.Distinct lastDigitCmp [4] ∧ t.numEntries = 1 := by
  refine hashTable_refines lastDigitCmp_equivalence ?_ (by decide) (by decide) ?_
  · intro a b h
    simp only [lastDigitCmp] at h
    rw [show a % 10 = b % 10 by omega]
  · intro pre hpre t rs hrun
    have hall : ∀ pre ∈ List.inits [Op.lookup 3 true, .lookup 13 true, .lookup 4 true, .remove 3,
        .lookup 13 false], ∀ p ∈ (createAndRun (fun a => UInt32.ofNat (a % 10)) lastDigitCmp 1
          pre).value?, p.1.tableSize * LOAD_DENOM < 2 ^ 31 := by
      decide +kernel
    exact hall pre ((List.mem_inits pre _).mpr hpre) (t, rs) (by rw [hrun]; rfl)

end BootableRecovery.Minzip
