import BootableRecovery.Lib.Machine

/-!
# Edit scripts against an old file

An edit script is a list of segments. A segment adds its `diff` bytes to the
old file at a cursor, appends its `extra` bytes, and moves the cursor by
`seek`. `replay` is the new file a script describes.

* `replay_append`, `cursor_append`: scripts compose.
* `replay_length`: the size of the new file is the sum of the segment sizes.
* `addOld_diffBytes`: byte-wise differences added back give the new bytes.
-/

namespace BootableRecovery.EditScript

/-- One step of a script. -/
structure Segment where
  diff : Bytes
  extra : Bytes
  seek : Int
  deriving DecidableEq, Repr

/-- Add the old bytes from `oldpos` on to `diff`; positions outside the old
file contribute nothing. -/
def addOld (old : Bytes) (oldpos : Int) (diff : Bytes) : Bytes :=
  diff.mapIdx fun i b => b + (byteAt old (oldpos + i)).getD 0

/-- The new bytes one segment produces with the cursor at `p`. -/
def Segment.output (old : Bytes) (p : Int) (s : Segment) : Bytes :=
  addOld old p s.diff ++ s.extra

/-- The cursor after a segment. -/
def Segment.next (p : Int) (s : Segment) : Int := p + s.diff.length + s.seek

/-- The number of new bytes a segment produces. -/
def Segment.size (s : Segment) : Nat := s.diff.length + s.extra.length

/-- The new file a script describes, with the cursor starting at `p`. -/
def replay (old : Bytes) : Int → List Segment → Bytes
  | _, [] => []
  | p, s :: rest => s.output old p ++ replay old (s.next p) rest

/-- The cursor after a whole script. -/
def cursor : Int → List Segment → Int
  | p, [] => p
  | p, s :: rest => cursor (s.next p) rest

/-- The number of new bytes a script produces. -/
def size (segs : List Segment) : Nat := (segs.map Segment.size).sum

@[simp] theorem addOld_length (old : Bytes) (p : Int) (d : Bytes) :
    (addOld old p d).length = d.length := by
  simp [addOld]

@[simp] theorem output_length (old : Bytes) (p : Int) (s : Segment) :
    (s.output old p).length = s.size := by
  simp [Segment.output, Segment.size]

@[simp] theorem size_nil : size [] = 0 := rfl

@[simp] theorem size_cons (s : Segment) (segs : List Segment) :
    size (s :: segs) = s.size + size segs := by
  simp [size]

@[simp] theorem size_append (a b : List Segment) : size (a ++ b) = size a + size b := by
  simp [size]

theorem replay_append (old : Bytes) (a b : List Segment) (p : Int) :
    replay old p (a ++ b) = replay old p a ++ replay old (cursor p a) b := by
  induction a generalizing p with
  | nil => simp [replay, cursor]
  | cons s a ih => simp [replay, cursor, ih]

theorem cursor_append (a b : List Segment) (p : Int) :
    cursor p (a ++ b) = cursor (cursor p a) b := by
  induction a generalizing p with
  | nil => rfl
  | cons s a ih => simp [cursor, ih]

theorem replay_length (old : Bytes) (segs : List Segment) (p : Int) :
    (replay old p segs).length = size segs := by
  induction segs generalizing p with
  | nil => rfl
  | cons s segs ih => simp [replay, ih]

/-- The differences between `n` new bytes at `j` and the old bytes at `p`. -/
def diffBytes (old new : Bytes) (p j n : Nat) : Bytes :=
  (List.range n).map fun i => (new[j + i]?).getD 0 - (old[p + i]?).getD 0

@[simp] theorem diffBytes_length (old new : Bytes) (p j n : Nat) :
    (diffBytes old new p j n).length = n := by
  simp [diffBytes]

/-- Differences added back at the same position give the new bytes. -/
theorem addOld_diffBytes {old new : Bytes} {p j n : Nat} (h : j + n ≤ new.length) :
    addOld old p (diffBytes old new p j n) = slice new j n := by
  apply List.ext_getElem?
  intro i
  by_cases hi : i < n
  · have hnew : j + i < new.length := by omega
    have hold : byteAt old ((p : Int) + i) = old[p + i]? := by
      rw [← Int.natCast_add, byteAt_ofNat]
    rw [slice_getElem? new j n i hi, List.getElem?_eq_getElem hnew]
    simp [addOld, diffBytes, hi, hold, List.getElem?_eq_getElem hnew]
  · have hlen : (addOld old p (diffBytes old new p j n)).length ≤ i := by simp; omega
    have hlen' : (slice new j n).length ≤ i := by
      rw [slice_length_of_le h]; omega
    rw [List.getElem?_eq_none hlen, List.getElem?_eq_none hlen']

/-! ## Scripts a decoder with bounded integers can follow -/

/-- Every cursor position and every seek of the script stays below `lim` in
magnitude. -/
def InRange (lim : Int) : Int → List Segment → Prop
  | p, [] => -lim ≤ p ∧ p < lim
  | p, s :: rest => (-lim ≤ p ∧ p < lim) ∧ (-lim ≤ p + s.diff.length ∧ p + s.diff.length < lim) ∧
      (-lim ≤ s.seek ∧ s.seek < lim) ∧ InRange lim (s.next p) rest

/-- The last segment of the script, if there is one, produces output: no
segment is left when the new file is complete. -/
def EndsInOutput (segs : List Segment) : Prop := ∀ s, segs.getLast? = some s → 0 < s.size

theorem InRange.start {lim p : Int} {segs : List Segment} (h : InRange lim p segs) :
    -lim ≤ p ∧ p < lim := by
  cases segs with
  | nil => exact h
  | cons s rest => exact h.1

theorem InRange.append {lim : Int} {a b : List Segment} {p : Int} (ha : InRange lim p a)
    (hb : InRange lim (cursor p a) b) : InRange lim p (a ++ b) := by
  induction a generalizing p with
  | nil => exact hb
  | cons s a ih => exact ⟨ha.1, ha.2.1, ha.2.2.1, ih ha.2.2.2 hb⟩

theorem EndsInOutput.tail {s : Segment} {rest : List Segment} (h : EndsInOutput (s :: rest)) :
    EndsInOutput rest := by
  intro t ht
  cases rest with
  | nil => simp at ht
  | cons r rest => exact h t (by simpa using ht)

theorem EndsInOutput.size_pos {s : Segment} {rest : List Segment}
    (h : EndsInOutput (s :: rest)) : 0 < size (s :: rest) := by
  induction rest generalizing s with
  | nil =>
    have := h s rfl
    simpa using this
  | cons r rest ih =>
    have := ih h.tail
    simp only [size_cons] at this ⊢
    omega

theorem addOld_cons (old : Bytes) (p : Int) (b : UInt8) (d : Bytes) :
    addOld old p (b :: d) = (b + (byteAt old p).getD 0) :: addOld old (p + 1) d := by
  have hshift : ∀ i : Nat, p + ((i : Int) + 1) = p + 1 + i := by intro i; omega
  simp [addOld, List.mapIdx_cons, hshift]

end BootableRecovery.EditScript
