import Mathlib.Data.List.DropRight
import BootableRecovery.Lib.Numeral
import BootableRecovery.Lib.Substring

/-!
# `add-property-tag.c`: a tag behind the value of a property

`main` reads a `.prop` file line by line through a buffer of 4096 bytes. In the lines of one
property it removes the first occurrence of the tag with the number behind it, and, unless it
is asked to remove the tag, adds the tag behind the trimmed line.

* `main_flatten`: the lines of a file are edited one by one.
* `tagLine_eq_self_iff`: which lines stay as they are when the tag is added.
* `laws_iff`: for which lines a second tag changes nothing and the removal restores the line.
  The first tag of the tagged line has to commute with what is between it and the end.
-/

namespace BootableRecovery.AddPropertyTag

/-! ## The program -/

/-- Should the tag be added to this line? -/
def shouldTag (line propname : Bytes) : Bool :=
  match strstr propname line with
  | none => false
  | some prop =>
    -- It must be at the beginning of the line, and followed by a `=`.
    (line.take prop).all isSpace &&
      ((line.drop (prop + propname.length)).dropWhile isSpace).head? == some 61

/-- The number behind the first tag of the line, and the line without both. -/
def removeTag (line tag : Bytes) : Int × Bytes :=
  match strstr tag line with
  | none => (0, line)
  | some pos =>
    let (num, rest) := strtoul 32 (line.drop (pos + tag.length))
    (wrap32 num, line.take pos ++ rest)

/-- The number is written if it is positive. -/
def printNumber (number : Int) : Bytes := if 0 < number then printInt number else []

/-- The line with the tag added. -/
def writeTagged (line tag : Bytes) (number : Int) : Bytes :=
  line.rdropWhile isSpace ++ (tag ++ (printNumber number ++ line.rtakeWhile isSpace))

/-- The flags `-p`, `-r` and `-n`, and the tag. -/
structure Options where
  propname : Bytes
  tag : Bytes
  do_remove : Bool
  do_number : Bool

/-- What is written for a line, and whether it is one of the property. -/
def Options.line (o : Options) (line : Bytes) : Bytes × Bool :=
  if shouldTag line o.propname then
    let (number, line) := removeTag line o.tag
    if o.do_remove then (line, true)
    else (writeTagged line o.tag (wrap32 (number + if o.do_number then 1 else 0)), true)
  else (line, false)

/-- What is written for the lines, and whether the property was found. -/
def Options.lines (o : Options) : List Bytes → Bool → Bytes × Bool
  | [], found => ([], found)
  | line :: lines, found =>
    let (out, hit) := o.line (cstr line)
    let (rest, found) := o.lines lines (found || hit)
    (out ++ rest, found)

/-- The size of `line`. -/
def LINE_SIZE : Nat := 4096

/-- `main` when the files can be opened and renamed: the exit status, and what is in the file
then. -/
def main (o : Options) (file : Bytes) : Int × Bytes :=
  let (out, found) := o.lines (fgetsAll LINE_SIZE file) false
  if found then (0, out) else (1, file)

/-- Adding the tag, without a number. -/
def add (propname tag file : Bytes) : Bytes := (main ⟨propname, tag, false, false⟩ file).2

/-- Removing the tag. -/
def remove (propname tag file : Bytes) : Bytes := (main ⟨propname, tag, true, false⟩ file).2

/-! ## The lines of a file -/

/-- What is written for a text. -/
def Options.edit (o : Options) (text : Bytes) : Bytes :=
  (fgetsAll LINE_SIZE text).flatMap fun line => (o.line line).1

theorem Options.line_of_not_found {o : Options} {line : Bytes} (h : (o.line line).2 = false) :
    (o.line line).1 = line := by
  unfold Options.line at h ⊢
  split
  · rename_i htag
    rw [if_pos htag] at h
    simp only at h
    split at h <;> cases h
  · rfl

theorem Options.lines_eq (o : Options) {lines : List Bytes} (h : ∀ line ∈ lines, 0 ∉ line)
    (found : Bool) :
    o.lines lines found =
      (lines.flatMap fun line => (o.line line).1,
        found || lines.any fun line => (o.line line).2) := by
  induction lines generalizing found with
  | nil => simp [Options.lines]
  | cons line lines ih =>
    rw [Options.lines, cstr_of_zero_notMem (h line (List.mem_cons_self ..))]
    simp only [ih fun l hl => h l (List.mem_cons_of_mem _ hl), List.flatMap_cons, List.any_cons,
      Bool.or_assoc]

/-- A text file that does not have the property is what is written for it, too. -/
theorem main_file {o : Options} {file : Bytes} (h : 0 ∉ file) : (main o file).2 = o.edit file := by
  have hflat := flatten_fgetsAll (show 1 < LINE_SIZE by decide) file
  have hzero : ∀ line ∈ fgetsAll LINE_SIZE file, 0 ∉ line := fun line hline hmem =>
    h (hflat ▸ List.mem_flatten.mpr ⟨line, hline, hmem⟩)
  unfold main
  simp only [o.lines_eq hzero, Bool.false_or]
  split
  · rfl
  · rename_i hnone
    have hsame : ∀ line ∈ fgetsAll LINE_SIZE file, (o.line line).1 = line := by
      intro line hline
      refine Options.line_of_not_found ?_
      by_contra hfound
      exact hnone (List.any_eq_true.mpr ⟨line, hline, by simpa using hfound⟩)
    unfold Options.edit
    rw [List.flatMap_congr hsame, List.flatMap_id', hflat]

/-- The lines of a file are edited one by one. -/
theorem main_flatten (o : Options) {lines : List Bytes}
    (h : ∀ line ∈ lines, 0 ∉ line ∧ ∃ body, line = body ++ [10]) :
    (main o lines.flatten).2 = lines.flatMap fun line => (main o line).2 := by
  have hzero : 0 ∉ lines.flatten := by
    intro hmem
    obtain ⟨line, hline, hmem⟩ := List.mem_flatten.mp hmem
    exact (h line hline).1 hmem
  rw [main_file hzero]
  clear hzero
  induction lines with
  | nil => rfl
  | cons line lines ih =>
    obtain ⟨hzero, body, rfl⟩ := h line (List.mem_cons_self ..)
    have hrest := ih fun l hl => h l (List.mem_cons_of_mem _ hl)
    unfold Options.edit at hrest
    rw [List.flatten_cons, List.flatMap_cons, main_file hzero, Options.edit,
      fgetsAll_append_line (by decide), List.flatMap_append, hrest, Options.edit]

/-! ## Property lines -/

/-- A line of the property: its name, and a `=` behind it. -/
theorem shouldTag_iff {line propname : Bytes} :
    shouldTag line propname = true ↔
      ∃ a b z, line = a ++ (propname ++ (b ++ 61 :: z)) ∧ (∀ c ∈ a, isSpace c = true) ∧
        (∀ c ∈ b, isSpace c = true) ∧ strstr propname line = some a.length := by
  unfold shouldTag
  constructor
  · intro h
    split at h
    · cases h
    · rename_i prop hprop
      have hsplit := strstr_split hprop
      simp only [Bool.and_eq_true, List.all_eq_true, beq_iff_eq] at h
      obtain ⟨hspace, hhead⟩ := h
      generalize line.drop (prop + propname.length) = after at *
      obtain ⟨z, hz⟩ := List.head?_eq_some_iff.mp hhead
      refine ⟨line.take prop, after.takeWhile isSpace, z, ?_, hspace,
        fun c hc => List.mem_takeWhile_imp hc, ?_⟩
      · rw [← hz, List.takeWhile_append_dropWhile]
        exact hsplit
      · obtain ⟨u, w, rfl, rfl, -⟩ := strstr_eq_some_iff.mp hprop
        rw [List.take_left, hprop]
  · rintro ⟨a, b, z, rfl, ha, hb, hprop⟩
    have hdrop : (a ++ (propname ++ (b ++ 61 :: z))).drop (a.length + propname.length) =
        b ++ 61 :: z := by
      rw [← List.drop_drop, List.drop_left, List.drop_left]
    have hskip : (b ++ 61 :: z).dropWhile isSpace = 61 :: z := by
      rw [List.dropWhile_append_of_pos hb, List.dropWhile_cons_of_neg (by decide)]
    simp only [hprop, hdrop, hskip, List.take_left, List.head?_cons, beq_self_eq_true,
      Bool.and_true, List.all_eq_true]
    exact ha

variable {propname tag s w : Bytes}

theorem shouldTag_append (h : shouldTag s propname = true) (z : Bytes) :
    shouldTag (s ++ z) propname = true := by
  obtain ⟨a, b, after, heq, ha, hb, hprop⟩ := shouldTag_iff.mp h
  exact shouldTag_iff.mpr ⟨a, b, after ++ z, by rw [heq]; simp, ha, hb, strstr_append hprop z⟩

/-- The `=` is in front of the white space at the end. -/
theorem shouldTag_of_append (hw : ∀ c ∈ w, isSpace c = true)
    (h : shouldTag (s ++ w) propname = true) : shouldTag s propname = true := by
  obtain ⟨a, b, after, heq, ha, hb, hprop⟩ := shouldTag_iff.mp h
  have hlen : (a ++ (propname ++ b)).length < s.length := by
    by_contra hge
    have hget : (s ++ w)[(a ++ (propname ++ b)).length]? = some 61 := by
      rw [heq,
        show a ++ (propname ++ (b ++ 61 :: after)) = a ++ (propname ++ b) ++ 61 :: after by simp]
      simp
    rw [List.getElem?_append_right (Nat.le_of_not_lt hge)] at hget
    exact absurd (hw 61 (List.mem_of_getElem? hget)) (by decide)
  have hpre : a ++ (propname ++ (b ++ [61])) <+: s := by
    refine List.prefix_of_prefix_length_le (show _ <+: s ++ w from ⟨after, ?_⟩)
      (List.prefix_append _ _) ?_
    · rw [heq]
      simp
    · simp only [List.length_append, List.length_singleton] at hlen ⊢
      omega
  obtain ⟨after', rfl⟩ := hpre
  refine shouldTag_iff.mpr ⟨a, b, after', by simp, ha, hb, strstr_of_append hprop ?_⟩
  simp only [List.length_append]
  omega

theorem shouldTag_blank (hw : ∀ c ∈ w, isSpace c = true) : shouldTag w propname = false := by
  by_contra h
  obtain ⟨a, b, after, heq, -⟩ := shouldTag_iff.mp (Bool.not_eq_false _ ▸ h)
  exact absurd (hw 61 (by rw [heq]; simp)) (by decide)

/-! ## The first tag of a line -/

/-- The number that is read at the start of a text, as it is written again. -/
def numberAgain (text : Bytes) : Bytes := printNumber (wrap32 (strtoul 32 text).1)

/-- The first tag of the line is behind `u`, the number behind it is the text `n`. -/
structure FirstTag (tag line u n r : Bytes) : Prop where
  eq : line = u ++ (tag ++ (n ++ r))
  first : strstr tag line = some u.length
  number : (strtoul 32 (n ++ r)).2 = r

/-- The line with the tag moved to its end. -/
def tagLine (tag line : Bytes) : Bytes :=
  writeTagged (removeTag line tag).2 tag (removeTag line tag).1

variable {line u n r : Bytes}

theorem exists_firstTag (h : tag <:+: line) : ∃ u n r, FirstTag tag line u n r := by
  cases hpos : strstr tag line with
  | none => exact absurd h (strstr_eq_none_iff.mp hpos)
  | some pos =>
    obtain ⟨u, z, rfl, rfl, -⟩ := strstr_eq_some_iff.mp hpos
    obtain ⟨n, hn⟩ := strtoul_suffix 32 z
    exact ⟨u, n, (strtoul 32 z).2, by rw [hn], hpos, by rw [hn]⟩

theorem FirstTag.le (h : FirstTag tag line u n r) {u' z : Bytes} (heq : line = u' ++ (tag ++ z)) :
    u.length ≤ u'.length := by
  obtain ⟨v, after, -, hlen, hfirst⟩ := strstr_eq_some_iff.mp h.first
  exact hfirst u' z heq

theorem FirstTag.removeTag_eq (h : FirstTag tag line u n r) :
    removeTag line tag = (wrap32 (strtoul 32 (n ++ r)).1, u ++ r) := by
  have hdrop : line.drop (u.length + tag.length) = n ++ r := by
    rw [h.eq, ← List.drop_drop, List.drop_left, List.drop_left]
  have htake : line.take u.length = u := by rw [h.eq, List.take_left]
  unfold removeTag
  rw [h.first]
  simp only [hdrop, htake, h.number]

theorem removeTag_untagged (h : ¬ tag <:+: line) : removeTag line tag = (0, line) := by
  unfold removeTag
  rw [strstr_eq_none_iff.mpr h]

theorem FirstTag.tagLine_eq (h : FirstTag tag line u n r) :
    tagLine tag line = (u ++ r).rdropWhile isSpace ++
      (tag ++ (numberAgain (n ++ r) ++ (u ++ r).rtakeWhile isSpace)) := by
  rw [tagLine, h.removeTag_eq]
  rfl

theorem tagLine_untagged (h : ¬ tag <:+: line) :
    tagLine tag line = line.rdropWhile isSpace ++ (tag ++ line.rtakeWhile isSpace) := by
  rw [tagLine, removeTag_untagged h]
  rfl

/-- The value of a number that is written again is below every bound for what was read. -/
theorem natAbs_wrap32_lt {x : Int} {bound : Nat} (hx : x.natAbs < bound)
    (hpos : 0 < wrap32 (if 2 ^ 32 ≤ x.natAbs then 2 ^ 32 - 1 else (x % 2 ^ 32).toNat : Nat)) :
    (wrap32 (if 2 ^ 32 ≤ x.natAbs then 2 ^ 32 - 1 else (x % 2 ^ 32).toNat : Nat)).natAbs <
      bound := by
  unfold wrap32 at hpos ⊢
  split at hpos
  · omega
  · rename_i hsmall
    rw [if_neg hsmall]
    omega

/-- A number is not written with more characters than it was read from. -/
theorem numberAgain_length_le (text : Bytes) :
    (numberAgain text).length + (strtoul 32 text).2.length ≤ text.length := by
  have hsuffix := (afterSign_suffix text).length_le
  have hlt := readNat_lt (afterSign text)
  have hsplit := congrArg List.length
    (List.takeWhile_append_dropWhile (p := isDigit) (l := afterSign text))
  rw [List.length_append] at hsplit
  rw [← natAbs_atoi] at hlt
  by_cases hdigits : (afterSign text).takeWhile isDigit = []
  · simp [numberAgain, strtoul, hdigits, printNumber, wrap32]
  · have hpos := List.length_pos_iff.mpr hdigits
    have hvalue := natAbs_wrap32_lt hlt
    simp only [numberAgain, strtoul, if_neg hdigits]
    generalize wrap32 _ = value at *
    unfold printNumber
    split
    · rename_i hprinted
      have hlen := printNat_length_le (by decide) hpos (hvalue hprinted)
      rw [printInt, if_neg (by omega)]
      omega
    · rw [List.length_nil]
      omega

theorem FirstTag.number_length_le (h : FirstTag tag line u n r) :
    (numberAgain (n ++ r)).length ≤ n.length := by
  have hlen := numberAgain_length_le (n ++ r)
  rw [h.number, List.length_append] at hlen
  omega

theorem FirstTag.number_nil (h : FirstTag tag line u [] r) : numberAgain r = [] := by
  have hzero := strtoul_eq_zero (w := 32) h.number
  rw [List.nil_append] at hzero
  rw [numberAgain, hzero]
  simp [printNumber, wrap32]

/-- The tag with its number commutes with what is between it and the end of the trimmed line. -/
def Settled (tag u n r : Bytes) : Prop :=
  ∃ y s, r = y ++ s ∧ (u ++ r).rdropWhile isSpace = u ++ y ∧
    y ++ (tag ++ numberAgain (n ++ r)) = tag ++ (n ++ y)

/-- The lines that stay as they are when the tag is added. -/
theorem FirstTag.tagLine_eq_self_iff (h : FirstTag tag line u n r) :
    tagLine tag line = line ↔ Settled tag u n r := by
  have hsplit := List.rdropWhile_append_rtakeWhile (p := isSpace) (l := u ++ r)
  have hfirst : ∀ u' z, line = u' ++ (tag ++ z) → u.length ≤ u'.length := fun _ _ heq => h.le heq
  rw [h.tagLine_eq]
  rw [h.eq] at hfirst ⊢
  unfold Settled
  generalize (u ++ r).rdropWhile isSpace = v at *
  generalize (u ++ r).rtakeWhile isSpace = w at *
  generalize numberAgain (n ++ r) = d at *
  constructor
  · intro heq
    rcases List.append_eq_append_iff.mp hsplit with ⟨q, rfl, rfl⟩ | ⟨y, rfl, rfl⟩
    · -- Here the trimmed line ends within `u`, so that there is an earlier tag.
      have hle := hfirst v _ heq.symm
      obtain rfl : q = [] := by
        rw [List.length_append] at hle
        exact List.eq_nil_of_length_eq_zero (by omega)
      refine ⟨[], r, rfl, by simp, ?_⟩
      simpa [← List.append_assoc] using heq
    · have hrest : u ++ (y ++ (tag ++ d) ++ w) = u ++ (tag ++ (n ++ y) ++ w) := by
        simpa using heq
      exact ⟨y, w, rfl, rfl, List.append_cancel_right (List.append_cancel_left hrest)⟩
  · rintro ⟨y, s, rfl, rfl, hcomm⟩
    obtain rfl : w = s := by simpa using hsplit
    calc u ++ y ++ (tag ++ (d ++ w)) = u ++ (y ++ (tag ++ d) ++ w) := by simp
      _ = u ++ (tag ++ (n ++ (y ++ w))) := by rw [hcomm]; simp

/-! ## The pieces of a tagged line -/

/-- What adding the tag makes of a line that was read. -/
def tagPiece (propname tag line : Bytes) : Bytes :=
  if shouldTag line propname then tagLine tag line else line

/-- What removing the tag makes of a line that was read. -/
def untagPiece (propname tag line : Bytes) : Bytes :=
  if shouldTag line propname then (removeTag line tag).2 else line

theorem wrap32_removeTag (line tag : Bytes) :
    wrap32 (removeTag line tag).1 = (removeTag line tag).1 := by
  unfold removeTag
  split
  · exact wrap32_of_range (Int.neg_nonpos_of_nonneg (by decide)) (show (0 : Int) < 2 ^ 31 by decide)
  · exact wrap32_of_range (wrap32_range _).1 (wrap32_range _).2

theorem add_eq {text : Bytes} (h : 0 ∉ text) :
    add propname tag text = (fgetsAll LINE_SIZE text).flatMap (tagPiece propname tag) := by
  rw [add, main_file h, Options.edit]
  refine List.flatMap_congr fun line _ => ?_
  unfold Options.line tagPiece tagLine
  split
  · simp [wrap32_removeTag]
  · rfl

theorem remove_eq {text : Bytes} (h : 0 ∉ text) :
    remove propname tag text = (fgetsAll LINE_SIZE text).flatMap (untagPiece propname tag) := by
  rw [remove, main_file h, Options.edit]
  refine List.flatMap_congr fun line _ => ?_
  unfold Options.line untagPiece
  split <;> rfl

/-- Pieces that are not of the property are passed through. -/
theorem flatMap_tagPiece (tag : Bytes) {pieces : List Bytes}
    (h : ∀ p ∈ pieces, shouldTag p propname = false) :
    pieces.flatMap (tagPiece propname tag) = pieces.flatten := by
  have hsame : ∀ p ∈ pieces, tagPiece propname tag p = p := fun p hp => by simp [tagPiece, h p hp]
  rw [List.flatMap_congr hsame, List.flatMap_id']

theorem flatMap_untagPiece (tag : Bytes) {pieces : List Bytes}
    (h : ∀ p ∈ pieces, shouldTag p propname = false) :
    pieces.flatMap (untagPiece propname tag) = pieces.flatten := by
  have hsame : ∀ p ∈ pieces, untagPiece propname tag p = p := fun p hp => by
    simp [untagPiece, h p hp]
  rw [List.flatMap_congr hsame, List.flatMap_id']

/-- A newline is only at the end of the text. -/
def OneLine (text : Bytes) : Prop := ∀ a b, text = a ++ 10 :: b → b = []

theorem OneLine.notMem_trimmed (h : OneLine s) : 10 ∉ s.rdropWhile isSpace := by
  intro hmem
  obtain ⟨a, b, hab⟩ := List.append_of_mem hmem
  have hsplit := List.rdropWhile_append_rtakeWhile (p := isSpace) (l := s)
  rw [hab, List.append_assoc] at hsplit
  obtain ⟨rfl, -⟩ := List.append_eq_nil_iff.mp (h a _ hsplit.symm)
  have hne : s.rdropWhile isSpace ≠ [] := by
    rw [hab]
    simp
  have hlast : (s.rdropWhile isSpace).getLast hne = 10 := by simp [hab]
  exact List.rdropWhile_last_not isSpace s hne (by rw [hlast]; decide)

/-- A text without a newline is within the first piece when it fits in the buffer. -/
theorem prefix_of_first {t z piece rest : Bytes} (heq : t ++ z = piece ++ rest) (h : 10 ∉ t)
    (hlen : t.length < LINE_SIZE)
    (hstop : rest ≠ [] → piece.length = LINE_SIZE - 1 ∨ ∃ body, piece = body ++ [10]) :
    ∃ z', piece = t ++ z' ∧ z = z' ++ rest := by
  rcases List.append_eq_append_iff.mp heq with ⟨z', rfl, rfl⟩ | ⟨q, rfl, rfl⟩
  · exact ⟨z', rfl, rfl⟩
  · obtain rfl : q = [] := by
      by_contra hne
      rcases hstop (by simp [hne]) with hfull | ⟨body, rfl⟩
      · have hpos := List.length_pos_iff.mpr hne
        rw [List.length_append] at hlen
        omega
      · simp at h
    exact ⟨[], by simp, rfl⟩

/-! ## Lines without the tag -/

/-- A tag; it is not empty. -/
structure Tag where
  text : Bytes
  ne_nil : text ≠ []
  plain : 0 ∉ text

/-- A line of a text file that is shorter than the buffer. -/
structure Line where
  text : Bytes
  plain : 0 ∉ text
  one : OneLine text
  length_lt : text.length < LINE_SIZE

/-- The line with the tag behind the value. -/
def tagged (tag line : Bytes) : Bytes :=
  line.rdropWhile isSpace ++ (tag ++ line.rtakeWhile isSpace)

/-- When the tagged line is read again, the first tag of the first piece has no number, it
commutes with what is between it and the end of the value, and with what is between it and
the end of the trimmed piece. No other piece is a line of the property. -/
def Restorable (propname tag line : Bytes) : Prop :=
  ∃ piece pieces u r x, fgetsAll LINE_SIZE (tagged tag line) = piece :: pieces ∧
    FirstTag tag piece u [] r ∧ line.rdropWhile isSpace = u ++ x ∧ tag ++ x = x ++ tag ∧
    Settled tag u [] r ∧ ∀ p ∈ pieces, shouldTag p propname = false

variable {t : Tag} {l : Line}

theorem Line.fgetsAll_eq (h : shouldTag l.text propname = true) :
    fgetsAll LINE_SIZE l.text = [l.text] := by
  refine fgetsAll_whole ?_ l.length_lt l.one
  rintro hnil
  rw [hnil, shouldTag_blank (by simp)] at h
  cases h

theorem Line.add_eq (h : shouldTag l.text propname = true) :
    add propname tag l.text = tagLine tag l.text := by
  rw [AddPropertyTag.add_eq l.plain, Line.fgetsAll_eq h, List.flatMap_singleton, tagPiece, if_pos h]

theorem zero_notMem_tagged (t : Tag) (l : Line) : 0 ∉ tagged t.text l.text := by
  have hsplit := List.rdropWhile_append_rtakeWhile (p := isSpace) (l := l.text)
  have hline := l.plain
  rw [← hsplit, List.mem_append, not_or] at hline
  simp only [tagged, List.mem_append, not_or]
  exact ⟨hline.1, t.plain, hline.2⟩

/-- The pieces in which the tagged line is read. -/
structure Pieces (propname : Bytes) (t : Tag) (l : Line) (piece : Bytes) (pieces : List Bytes) :
    Prop where
  fgetsAll_eq : fgetsAll LINE_SIZE (tagged t.text l.text) = piece :: pieces
  eq : tagged t.text l.text = piece ++ pieces.flatten
  stop : pieces ≠ [] → piece.length = LINE_SIZE - 1 ∨ ∃ body, piece = body ++ [10]
  value : l.text.rdropWhile isSpace <+: piece
  prop : shouldTag piece propname = true
  add_eq : add propname t.text (tagged t.text l.text) =
    tagLine t.text piece ++ pieces.flatMap (tagPiece propname t.text)
  remove_eq : remove propname t.text (tagged t.text l.text) =
    (removeTag piece t.text).2 ++ pieces.flatMap (untagPiece propname t.text)

theorem exists_pieces (h : shouldTag l.text propname = true) :
    ∃ piece pieces, Pieces propname t l piece pieces := by
  have hne : tagged t.text l.text ≠ [] := by simp [tagged, t.ne_nil]
  obtain ⟨piece, pieces, heq, hsplit, hstop⟩ := fgetsAll_cons (show 1 < LINE_SIZE by decide) hne
  have hline := List.rdropWhile_append_rtakeWhile (p := isSpace) (l := l.text)
  have hlen : (l.text.rdropWhile isSpace).length < LINE_SIZE :=
    (List.rdropWhile_prefix _ _).length_le.trans_lt l.length_lt
  obtain ⟨z, hpiece, -⟩ := prefix_of_first (show _ ++ _ = _ ++ _ from hsplit)
    l.one.notMem_trimmed hlen fun hrest => hstop fun hnil => hrest (by rw [hnil]; rfl)
  have hvalue : shouldTag (l.text.rdropWhile isSpace) propname = true := by
    refine shouldTag_of_append (w := l.text.rtakeWhile isSpace)
      (fun c hc => List.mem_rtakeWhile_imp hc) ?_
    rwa [hline]
  have hprop : shouldTag piece propname = true := by
    rw [hpiece]
    exact shouldTag_append hvalue z
  refine ⟨piece, pieces, heq, hsplit, hstop, ⟨z, hpiece.symm⟩, hprop, ?_, ?_⟩
  · rw [AddPropertyTag.add_eq (zero_notMem_tagged t l), heq, List.flatMap_cons, tagPiece,
      if_pos hprop]
  · rw [AddPropertyTag.remove_eq (zero_notMem_tagged t l), heq, List.flatMap_cons, untagPiece,
      if_pos hprop]

/-- Functions that do not shorten, and do not make the whole longer, keep every length. -/
theorem length_eq_of_flatMap {f g : Bytes → Bytes} {pieces : List Bytes}
    (hle : ∀ p ∈ pieces, (f p).length ≤ (g p).length)
    (h : (pieces.flatMap g).length ≤ (pieces.flatMap f).length) :
    ∀ p ∈ pieces, (f p).length = (g p).length := by
  by_contra hne
  push Not at hne
  obtain ⟨p, hp, hne⟩ := hne
  have hlt := List.sum_lt_sum _ _ hle ⟨p, hp, lt_of_le_of_ne (hle p hp) hne⟩
  simp only [List.length_flatMap] at h
  omega

theorem length_flatMap_le {f g : Bytes → Bytes} {pieces : List Bytes}
    (hle : ∀ p ∈ pieces, (f p).length ≤ (g p).length) :
    (pieces.flatMap f).length ≤ (pieces.flatMap g).length := by
  simp only [List.length_flatMap]
  exact List.sum_le_sum hle

theorem tagLine_ne_nil (t : Tag) (line : Bytes) : tagLine t.text line ≠ [] := by
  simp [tagLine, writeTagged, t.ne_nil]

theorem FirstTag.length_eq (h : FirstTag tag line u n r) :
    (removeTag line tag).2.length + tag.length + n.length = line.length := by
  rw [h.removeTag_eq, h.eq]
  simp only [List.length_append]
  omega

theorem tagLine_length_untagged (h : ¬ tag <:+: line) :
    (tagLine tag line).length = line.length + tag.length := by
  have hsplit := congrArg List.length (List.rdropWhile_append_rtakeWhile (p := isSpace) (l := line))
  rw [List.length_append] at hsplit
  rw [tagLine_untagged h]
  simp only [List.length_append]
  omega

/-- The removal of a tag makes a line shorter. -/
theorem untagPiece_length_le (propname tag line : Bytes) :
    (untagPiece propname tag line).length ≤ line.length := by
  unfold untagPiece
  split
  · by_cases htag : tag <:+: line
    · obtain ⟨u, n, r, hfirst⟩ := exists_firstTag htag
      have hlen := hfirst.length_eq
      omega
    · rw [removeTag_untagged htag]
  · exact le_rfl

theorem not_infix_of_untagPiece_length (hprop : shouldTag line propname = true)
    (h : (untagPiece propname t.text line).length = line.length) : ¬ t.text <:+: line := by
  intro htag
  obtain ⟨u, n, r, hfirst⟩ := exists_firstTag htag
  have hlen := hfirst.length_eq
  have hpos := List.length_pos_iff.mpr t.ne_nil
  rw [untagPiece, if_pos hprop] at h
  omega

variable {piece : Bytes} {pieces : List Bytes}

/-- Under the laws the tag is found in the first piece: otherwise this piece is the line
itself, and is tagged once more. -/
theorem Pieces.hasTag (h : Pieces propname t l piece pieces)
    (htwice : add propname t.text (tagged t.text l.text) = tagged t.text l.text)
    (hback : remove propname t.text (tagged t.text l.text) = l.text) : t.text <:+: piece := by
  by_contra hno
  rw [h.remove_eq, removeTag_untagged hno] at hback
  simp only at hback
  obtain ⟨p, ps, rfl⟩ : ∃ p ps, pieces = p :: ps := by
    cases pieces with
    | nil =>
      refine absurd ?_ hno
      have heq := h.eq
      rw [List.flatten_nil, List.append_nil] at heq
      exact heq ▸ ⟨_, _, List.append_assoc _ _ _⟩
    | cons p ps => exact ⟨p, ps, rfl⟩
  have hrest : (p :: ps).flatMap (untagPiece propname t.text) = [] := by
    rcases h.stop (by simp) with hfull | ⟨body, rfl⟩
    · have hlen := congrArg List.length hback
      have hlt := l.length_lt
      rw [List.length_append] at hlen
      exact List.eq_nil_of_length_eq_zero (by omega)
    · exact l.one body _ (by rw [← hback, List.append_assoc]; rfl)
  obtain rfl : piece = l.text := by rwa [hrest, List.append_nil] at hback
  rw [h.add_eq, tagLine_untagged hno] at htwice
  have hnil : tagPiece propname t.text p ++ ps.flatMap (tagPiece propname t.text) = [] :=
    List.append_right_eq_self.mp htwice
  have hp : p ≠ [] := ne_nil_of_mem_fgetsAll (show 1 < LINE_SIZE by decide)
    (show p ∈ fgetsAll LINE_SIZE (tagged t.text l.text) by simp [h.fgetsAll_eq])
  have htagged := (List.append_eq_nil_iff.mp hnil).1
  unfold tagPiece at htagged
  split at htagged
  · exact tagLine_ne_nil t p htagged
  · exact hp htagged

/-- Counting the bytes: nothing but the first tag is removed, and no tag is added behind the
first piece. -/
theorem Pieces.not_prop (h : Pieces propname t l piece pieces)
    (hfirst : FirstTag t.text piece u n r)
    (htwice : add propname t.text (tagged t.text l.text) = tagged t.text l.text)
    (hback : remove propname t.text (tagged t.text l.text) = l.text) :
    n = [] ∧ ∀ p ∈ pieces, shouldTag p propname = false := by
  have hline := congrArg List.length
    (List.rdropWhile_append_rtakeWhile (p := isSpace) (l := l.text))
  have hwhole := congrArg List.length h.eq
  have hremoved := congrArg List.length hback
  have hfirstlen := hfirst.length_eq
  have huntag : ∀ p ∈ pieces, (untagPiece propname t.text p).length ≤ (id p : Bytes).length :=
    fun p _ => untagPiece_length_le propname t.text p
  have hle := length_flatMap_le huntag
  rw [h.remove_eq, List.length_append] at hremoved
  simp only [tagged, List.length_append] at hline hwhole
  rw [List.flatMap_id] at hle
  obtain rfl : n = [] := List.eq_nil_of_length_eq_zero (by omega)
  have hnone : ∀ p ∈ pieces, shouldTag p propname = true → ¬ t.text <:+: p := fun p hp hprop =>
    not_infix_of_untagPiece_length hprop
      (length_eq_of_flatMap huntag (by rw [List.flatMap_id, List.length_nil] at *; omega) p hp)
  have htag : ∀ p ∈ pieces, (id p : Bytes).length ≤ (tagPiece propname t.text p).length := by
    intro p hp
    unfold tagPiece
    split
    · rename_i hprop
      rw [tagLine_length_untagged (hnone p hp hprop)]
      exact Nat.le_add_right _ _
    · exact le_rfl
  have hadded := congrArg List.length htwice
  have htagLine := congrArg List.length hfirst.tagLine_eq
  have hsplit := congrArg List.length
    (List.rdropWhile_append_rtakeWhile (p := isSpace) (l := u ++ r))
  rw [hfirst.removeTag_eq] at hfirstlen
  rw [h.add_eq, List.length_append, htagLine, List.nil_append, hfirst.number_nil] at hadded
  simp only [tagged, List.length_append, List.length_nil] at hsplit hadded hfirstlen
  refine ⟨rfl, fun p hp => ?_⟩
  have hlen := length_eq_of_flatMap htag (by rw [List.flatMap_id]; omega) p hp
  by_contra hprop
  rw [Bool.not_eq_false] at hprop
  have hpos := List.length_pos_iff.mpr t.ne_nil
  rw [tagPiece, if_pos hprop, tagLine_length_untagged (hnone p hp hprop), id_eq] at hlen
  omega

/-- The first tag of the first piece is not behind the value. -/
theorem Pieces.firstTag_value (h : Pieces propname t l piece pieces)
    (hfirst : FirstTag t.text piece u n r) : u <+: l.text.rdropWhile isSpace := by
  obtain ⟨z, hz⟩ := h.value
  have hpiece : u ++ (t.text ++ (n ++ r)) = l.text.rdropWhile isSpace ++ z := by
    rw [hz, hfirst.eq]
  refine List.prefix_of_prefix_length_le (show u <+: piece from ⟨_, hfirst.eq.symm⟩) h.value ?_
  have heq := h.eq
  rw [← hz, tagged, List.append_assoc] at heq
  have hrest := List.append_cancel_left heq
  rcases List.append_eq_append_iff.mp hrest with ⟨z', rfl, -⟩ | ⟨q, htext, -⟩
  · exact hfirst.le hz.symm
  · -- The added tag is cut; the first one ends within the piece.
    have hlen := congrArg List.length hpiece
    have hcut := congrArg List.length htext
    simp only [List.length_append] at hlen hcut
    omega

theorem restorable_iff (hprop : shouldTag l.text propname = true) :
    add propname t.text (tagged t.text l.text) = tagged t.text l.text ∧
        remove propname t.text (tagged t.text l.text) = l.text ↔
      Restorable propname t.text l.text := by
  obtain ⟨piece, pieces, h⟩ := exists_pieces (t := t) hprop
  have hline := List.rdropWhile_append_rtakeWhile (p := isSpace) (l := l.text)
  constructor
  · rintro ⟨htwice, hback⟩
    obtain ⟨u, n, r, hfirst⟩ := exists_firstTag (h.hasTag htwice hback)
    obtain ⟨rfl, hnot⟩ := h.not_prop hfirst htwice hback
    obtain ⟨x, hx⟩ := h.firstTag_value hfirst
    have htagLine : tagLine t.text piece = piece := by
      rw [h.add_eq, flatMap_tagPiece _ hnot, h.eq] at htwice
      exact List.append_cancel_right htwice
    refine ⟨piece, pieces, u, r, x, h.fgetsAll_eq, hfirst, hx.symm, ?_,
      hfirst.tagLine_eq_self_iff.mp htagLine, hnot⟩
    -- Both sides of the laws begin with `u`.
    have heq := h.eq
    rw [h.remove_eq, flatMap_untagPiece _ hnot, hfirst.removeTag_eq, ← hline, ← hx,
      List.append_assoc, List.append_assoc] at hback
    have hrest := List.append_cancel_left hback
    rw [hfirst.eq, tagged, ← hx] at heq
    simp only [List.append_assoc, List.nil_append, hrest] at heq
    have hcomm : x ++ t.text ++ l.text.rtakeWhile isSpace =
        t.text ++ x ++ l.text.rtakeWhile isSpace := by
      simpa using heq
    exact (List.append_cancel_right hcomm).symm
  · rintro ⟨piece', pieces', u, r, x, heq, hfirst, hx, hcomm, hsettled, hnot⟩
    obtain ⟨rfl, rfl⟩ := List.cons.inj (heq.symm.trans h.fgetsAll_eq)
    constructor
    · rw [h.add_eq, hfirst.tagLine_eq_self_iff.mpr hsettled, flatMap_tagPiece _ hnot, ← h.eq]
    · have hwhole := h.eq
      rw [hfirst.eq, tagged, hx] at hwhole
      have hrest : t.text ++ (x ++ l.text.rtakeWhile isSpace) =
          t.text ++ (r ++ pieces'.flatten) := by
        rw [← List.append_assoc, hcomm]
        simpa using hwhole
      rw [h.remove_eq, flatMap_untagPiece _ hnot, hfirst.removeTag_eq]
      conv_rhs =>
        rw [← hline, hx, List.append_assoc, List.append_cancel_left hrest, ← List.append_assoc]

/-- The common case: the tagged line is read as a whole, and its first tag is the added one. -/
theorem restorable_of_first
    (hfirst : strstr tag (tagged tag line) = some (line.rdropWhile isSpace).length)
    (hwhole : fgetsAll LINE_SIZE (tagged tag line) = [tagged tag line]) :
    Restorable propname tag line := by
  have hwhite : ∀ c ∈ line.rtakeWhile isSpace, isSpace c = true := fun c hc =>
    List.mem_rtakeWhile_imp hc
  have hnumber : (strtoul 32 (line.rtakeWhile isSpace)).2 = line.rtakeWhile isSpace := by
    have hafter : afterSign (line.rtakeWhile isSpace) = [] := by
      rw [afterSign, List.dropWhile_eq_nil_iff.mpr hwhite]
    rw [strtoul, hafter]
    rfl
  have htag : FirstTag tag (tagged tag line) (line.rdropWhile isSpace) []
      (line.rtakeWhile isSpace) :=
    ⟨rfl, hfirst, hnumber⟩
  refine ⟨_, _, _, _, [], hwhole, htag, (List.append_nil _).symm, List.append_nil _,
    ⟨[], _, rfl, ?_, ?_⟩, by simp⟩
  · rw [List.rdropWhile_append_rtakeWhile, List.append_nil]
  · rw [List.nil_append, List.nil_append, htag.number_nil]
    rfl

/-! ## Lines with the tag -/

/-- When the line with its tag moved to the end is read again, in every piece of the property
the first tag commutes with what is between it and the end. -/
def Steady (propname tag line : Bytes) : Prop :=
  ∀ u n r, FirstTag tag line u n r →
    ∀ piece ∈ fgetsAll LINE_SIZE ((u ++ r).rdropWhile isSpace ++
        (tag ++ (numberAgain (n ++ r) ++ (u ++ r).rtakeWhile isSpace))),
      shouldTag piece propname = true → ∃ u n r, FirstTag tag piece u n r ∧ Settled tag u n r

theorem tagLine_eq_self_iff :
    tagLine tag line = line ↔ ∃ u n r, FirstTag tag line u n r ∧ Settled tag u n r := by
  constructor
  · intro heq
    have htag : tag <:+: line := by
      rw [← heq]
      exact ⟨_, _, List.append_assoc _ _ _⟩
    obtain ⟨u, n, r, hfirst⟩ := exists_firstTag htag
    exact ⟨u, n, r, hfirst, hfirst.tagLine_eq_self_iff.mp heq⟩
  · rintro ⟨u, n, r, hfirst, hsettled⟩
    exact hfirst.tagLine_eq_self_iff.mpr hsettled

theorem isDigit_of_mem_numberAgain {text : Bytes} {c : UInt8} (h : c ∈ numberAgain text) :
    isDigit c = true := by
  unfold numberAgain printNumber at h
  split at h
  · rw [printInt, if_neg (by omega)] at h
    exact isDigit_of_mem_printNat (by decide) le_rfl h
  · exact absurd h List.not_mem_nil

theorem newline_behind {z a b : Bytes} (heq : s ++ z = a ++ 10 :: b) (h : 10 ∉ s) :
    ∃ a', a = s ++ a' ∧ z = a' ++ 10 :: b := by
  rcases List.append_eq_append_iff.mp heq with ⟨a', rfl, rfl⟩ | ⟨q, rfl, hq⟩
  · exact ⟨a', rfl, rfl⟩
  · cases q with
    | nil => exact ⟨[], by simp, hq.symm⟩
    | cons c q =>
      obtain ⟨rfl, -⟩ := List.cons.inj hq
      simp at h

/-- Without the tag the line is still one. -/
theorem FirstTag.oneLine (h : FirstTag t.text l.text u n r) : OneLine (u ++ r) := by
  have hu : 10 ∉ u := by
    intro hmem
    obtain ⟨a, b, rfl⟩ := List.append_of_mem hmem
    have hnil : b ++ (t.text ++ (n ++ r)) = [] := l.one a _ (by rw [h.eq, List.append_assoc]; rfl)
    exact t.ne_nil (List.append_eq_nil_iff.mp (List.append_eq_nil_iff.mp hnil).2).1
  intro a b heq
  obtain ⟨a', rfl, rfl⟩ := newline_behind heq hu
  exact l.one (u ++ (t.text ++ (n ++ a'))) b (by rw [h.eq]; simp)

/-- In front of the white space a newline can only be the end of the tag. -/
theorem FirstTag.oneLine_tagged (h : FirstTag t.text l.text u n r) :
    OneLine ((u ++ r).rdropWhile isSpace ++ (t.text ++ numberAgain (n ++ r))) := by
  intro a b heq
  have hnumber : 10 ∉ numberAgain (n ++ r) := fun hmem =>
    absurd (isDigit_of_mem_numberAgain hmem) (by decide)
  obtain ⟨a', rfl, htext⟩ := newline_behind heq h.oneLine.notMem_trimmed
  by_cases htag : 10 ∈ t.text
  · -- The line ends with the tag, and no number is read.
    obtain ⟨c, d, hcd, hc⟩ := List.eq_append_cons_of_mem htag
    have hnil : d ++ (n ++ r) = [] := l.one (u ++ c) _ (by rw [h.eq, hcd]; simp)
    simp only [List.append_eq_nil_iff] at hnil
    obtain ⟨rfl, rfl, rfl⟩ := hnil
    have hnumber := h.number_nil
    rw [List.append_nil, hnumber, List.append_nil, hcd] at htext
    obtain ⟨c', -, hend⟩ := newline_behind htext hc
    have hlen := congrArg List.length hend
    simp only [List.length_append, List.length_cons, List.length_nil] at hlen
    exact List.eq_nil_of_length_eq_zero (by omega)
  · obtain ⟨c, rfl, hc⟩ := newline_behind htext htag
    exact absurd (by rw [hc]; simp) hnumber

/-- Only white space is read behind the first piece of a line that had the tag. -/
theorem FirstTag.exists_pieces (h : FirstTag t.text l.text u n r) (propname : Bytes) :
    ∃ piece pieces, fgetsAll LINE_SIZE (tagLine t.text l.text) = piece :: pieces ∧
      tagLine t.text l.text = piece ++ pieces.flatten ∧
      ∀ p ∈ pieces, shouldTag p propname = false := by
  obtain ⟨piece, pieces, heq, hsplit, hstop⟩ :=
    fgetsAll_cons (show 1 < LINE_SIZE by decide) (tagLine_ne_nil t l.text)
  refine ⟨piece, pieces, heq, hsplit, ?_⟩
  have hblank : ∀ c ∈ pieces.flatten, isSpace c = true := by
    by_cases hnil : pieces = []
    · simp [hnil]
    · have hone := h.oneLine_tagged
      have hnumber := h.number_length_le
      have htrim := List.rdropWhile_append_rtakeWhile (p := isSpace) (l := u ++ r)
      have hwhite : ∀ c ∈ (u ++ r).rtakeWhile isSpace, isSpace c = true := fun c hc =>
        List.mem_rtakeWhile_imp hc
      rw [h.tagLine_eq] at hsplit
      generalize (u ++ r).rdropWhile isSpace = v at *
      generalize (u ++ r).rtakeWhile isSpace = w at *
      generalize numberAgain (n ++ r) = d at *
      rcases hstop hnil with hfull | ⟨body, rfl⟩
      · -- The line did not get longer, so that all of it is in the first piece.
        have hlen := congrArg List.length hsplit
        have hline := congrArg List.length h.eq
        have hparts := congrArg List.length htrim
        have hlt := l.length_lt
        simp only [List.length_append] at hlen hline hparts
        rw [List.eq_nil_of_length_eq_zero (show pieces.flatten.length = 0 by omega)]
        simp
      · have hwhole : v ++ (t.text ++ d) ++ w = body ++ 10 :: pieces.flatten := by
          simpa using hsplit
        rcases List.append_eq_append_iff.mp hwhole with ⟨q, rfl, rfl⟩ | ⟨q, hq, hrest⟩
        · exact fun c hc => hwhite c (by simp [hc])
        · cases q with
          | nil => exact fun c hc => hwhite c (by rw [← List.nil_append w, ← hrest]; simp [hc])
          | cons c q =>
            obtain ⟨rfl, hafter⟩ := List.cons.inj hrest
            obtain rfl := hone body q hq
            rw [hafter]
            exact hwhite
  intro p hp
  exact shouldTag_blank fun c hc => hblank c (List.mem_flatten.mpr ⟨p, hp, hc⟩)

theorem steady_iff (hprop : shouldTag l.text propname = true) (htag : t.text <:+: l.text) :
    add propname t.text (add propname t.text l.text) = add propname t.text l.text ↔
      Steady propname t.text l.text := by
  obtain ⟨u, n, r, hfirst⟩ := exists_firstTag htag
  obtain ⟨piece, pieces, heq, hsplit, hnot⟩ := hfirst.exists_pieces propname
  have hzero : 0 ∉ tagLine t.text l.text := by
    have hline := l.plain
    have hparts := List.rdropWhile_append_rtakeWhile (p := isSpace) (l := u ++ r)
    have hnumber : 0 ∉ numberAgain (n ++ r) := fun hmem =>
      absurd (isDigit_of_mem_numberAgain hmem) (by decide)
    have hrest : 0 ∉ u ++ r := fun hmem => hline (by
      rw [hfirst.eq]
      simp only [List.mem_append] at hmem ⊢
      tauto)
    rw [← hparts, List.mem_append, not_or] at hrest
    rw [hfirst.tagLine_eq]
    simp only [List.mem_append, not_or]
    exact ⟨hrest.1, t.plain, hnumber, hrest.2⟩
  have hadd : add propname t.text (tagLine t.text l.text) = tagLine t.text l.text ↔
      (shouldTag piece propname = true → tagLine t.text piece = piece) := by
    rw [AddPropertyTag.add_eq hzero, heq, List.flatMap_cons, flatMap_tagPiece _ hnot, hsplit,
      List.append_left_inj, tagPiece, ite_eq_right_iff]
  rw [Line.add_eq hprop, hadd, tagLine_eq_self_iff]
  constructor
  · intro hpiece u' n' r' hfirst' p hp hprop'
    rw [← hfirst'.tagLine_eq, heq] at hp
    rcases List.mem_cons.mp hp with rfl | hp
    · exact hpiece hprop'
    · rw [hnot p hp] at hprop'
      cases hprop'
  · intro hsteady
    refine hsteady u n r hfirst piece ?_
    rw [← hfirst.tagLine_eq, heq]
    exact List.mem_cons_self ..

/-! ## The laws -/

/-- A second tag changes nothing, the removal restores a line that did not have the tag, and
other lines are passed through. -/
structure Laws (propname : Bytes) (t : Tag) (l : Line) : Prop where
  twice : shouldTag l.text propname = true →
    add propname t.text (add propname t.text l.text) = add propname t.text l.text
  back : shouldTag l.text propname = true → ¬ t.text <:+: l.text →
    remove propname t.text (add propname t.text l.text) = l.text
  others : shouldTag l.text propname = false →
    add propname t.text l.text = l.text ∧ remove propname t.text l.text = l.text

/-- The condition for the laws. -/
def Lawful (propname : Bytes) (t : Tag) (l : Line) : Prop :=
  shouldTag l.text propname = true →
    (t.text <:+: l.text → Steady propname t.text l.text) ∧
      (¬ t.text <:+: l.text → Restorable propname t.text l.text)

theorem Line.pass (h : shouldTag l.text propname = false) :
    add propname tag l.text = l.text ∧ remove propname tag l.text = l.text := by
  have hpieces : ∀ p ∈ fgetsAll LINE_SIZE l.text, shouldTag p propname = false := by
    intro p hp
    by_cases hnil : l.text = []
    · rw [hnil] at hp
      exact absurd hp List.not_mem_nil
    · rw [fgetsAll_whole hnil l.length_lt l.one] at hp
      rwa [List.mem_singleton.mp hp]
  rw [AddPropertyTag.add_eq l.plain, AddPropertyTag.remove_eq l.plain, flatMap_tagPiece _ hpieces,
    flatMap_untagPiece _ hpieces, flatten_fgetsAll (by decide)]
  exact ⟨rfl, rfl⟩

/-- The laws hold for exactly these tags and lines. -/
theorem laws_iff (propname : Bytes) (t : Tag) (l : Line) :
    Laws propname t l ↔ Lawful propname t l := by
  have htagged : shouldTag l.text propname = true → ¬ t.text <:+: l.text →
      add propname t.text l.text = tagged t.text l.text := fun hprop hnot => by
    rw [Line.add_eq hprop, tagLine_untagged hnot]
    rfl
  constructor
  · intro hlaws hprop
    refine ⟨(steady_iff hprop · |>.mp (hlaws.twice hprop)), fun hnot => ?_⟩
    have htwice := hlaws.twice hprop
    have hback := hlaws.back hprop hnot
    rw [htagged hprop hnot] at htwice hback
    exact (restorable_iff hprop).mp ⟨htwice, hback⟩
  · intro hlawful
    refine ⟨fun hprop => ?_, fun hprop hnot => ?_, Line.pass⟩
    · by_cases htag : t.text <:+: l.text
      · exact (steady_iff hprop htag).mpr ((hlawful hprop).1 htag)
      · rw [htagged hprop htag]
        exact ((restorable_iff hprop).mpr ((hlawful hprop).2 htag)).1
    · rw [htagged hprop hnot]
      exact ((restorable_iff hprop).mpr ((hlawful hprop).2 hnot)).2

/-- The tag `aba`. -/
def abaTag : Tag := ⟨ascii "aba", by decide, by decide⟩

/-- The line `p=ab`, without a newline. -/
def abLine : Line := ⟨ascii "p=ab", by decide, fun a b heq => by
  have hmem : (10 : UInt8) ∈ ascii "p=ab" := by
    rw [heq]
    simp
  exact absurd hmem (by decide), by decide⟩

/-- The tagged line `p=ababa` has its first tag one byte in front of the added one. -/
theorem laws_overlap : ¬ ∀ propname t l, Laws propname t l := by
  intro h
  have hback := (h (ascii "p") abaTag abLine).back (by decide) (by decide)
  revert hback
  decide +kernel

end BootableRecovery.AddPropertyTag
