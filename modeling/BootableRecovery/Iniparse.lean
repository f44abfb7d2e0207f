import Mathlib.Data.List.DropRight
import BootableRecovery.Lib.Numeral

/-!
# `iniparse/ini.c`: files of names and values

The reader of INI files. It calls a handler for every line that gives a name a value, with
the section the line is in; errors do not stop it.

Main results:
* `ini_parse_file_user`: the reader calls the handler once for each of the `entries` of the
  file, in order.
* `length_value_lt`: a value is shorter than a line.
* `Assignment.readBuffer_line`: a line with a name, a value without white space and an empty
  comment is read as such, whatever came before.
-/

namespace BootableRecovery.Iniparse

def INI_MAX_LINE : Nat := 200

def MAX_SECTION : Nat := 50

def MAX_NAME : Nat := 50

/-! ## The code -/

def rstrip (s : Bytes) : Bytes := s.rdropWhile isSpace

def lskip (s : Bytes) : Bytes := s.dropWhile isSpace

/-- The loop of `find_char_or_comment`. -/
def findLoop (c : UInt8) : Bool → Bytes → Bytes × Bytes
  | _, [] => ([], [])
  | was_whitespace, d :: s =>
    if d = c ∨ was_whitespace = true ∧ d = 59 then ([], d :: s)
    else
      let (before, rest) := findLoop c (isSpace d) s
      (d :: before, rest)

/-- What is in front of the pointer that is returned, and what it points to. -/
def find_char_or_comment (s : Bytes) (c : UInt8) : Bytes × Bytes := findLoop c false s

/-- `strncpy0`: the string that the buffer of `size` bytes holds. -/
def strncpy0 (src : Bytes) (size : Nat) : Bytes := src.take (size - 1)

/-- What the reader keeps from line to line: the current section, and the name that a
continuation line belongs to. -/
structure Reader where
  sect : Bytes
  prev_name : Bytes
  deriving DecidableEq, Repr

/-- What a line asks for. -/
inductive Action where
  | skip
  | error
  | call (name value : Bytes)
  deriving DecidableEq, Repr

/-- The name and the value of a line with a separator, which is the head of `rest`. -/
def nameValue (name rest : Bytes) : Bytes × Bytes :=
  (rstrip name, rstrip (find_char_or_comment (lskip rest.tail) 0).1)

/-- A line of the file from its first character that is not white space on. -/
def readLine (r : Reader) (indented : Bool) (start : Bytes) : Reader × Action :=
  if start.head? = some 59 ∨ start.head? = some 35 then (r, .skip)
  else if r.prev_name ≠ [] ∧ start ≠ [] ∧ indented = true then (r, .call r.prev_name start)
  else if start.head? = some 91 then
    let (before, rest) := find_char_or_comment start.tail 93
    if rest.head? = some 93 then (⟨strncpy0 before MAX_SECTION, []⟩, .skip) else (r, .error)
  else if start ≠ [] then
    let (before, rest) := find_char_or_comment start 61
    let (before, rest) :=
      if rest.head? = some 61 then (before, rest) else find_char_or_comment start 58
    if rest.head? = some 61 ∨ rest.head? = some 58 then
      let (name, value) := nameValue before rest
      (⟨r.sect, strncpy0 name MAX_NAME⟩, .call name value)
    else (r, .error)
  else (r, .skip)

/-- The bytes that mark a text as UTF-8. -/
def BOM : Bytes := [0xEF, 0xBB, 0xBF]

/-- A line as `fgets` read it. -/
def readBuffer (r : Reader) (lineno : Nat) (line : Bytes) : Reader × Action :=
  let line := cstr line
  let bom := lineno = 1 ∧ BOM.isPrefixOf line
  let stripped := rstrip (if bom then line.drop 3 else line)
  let start := lskip stripped
  readLine r (bom ∨ start.length < stripped.length) start

variable {σ : Type}

/-- A function that is called with the section, the name and the value. It tells whether it
accepts them. -/
abbrev Handler (σ : Type) := σ → Bytes → Bytes → Bytes → Bool × σ

/-- The number of the first line with an error is kept. -/
def firstError (error : Int) (lineno : Nat) : Int := if error = 0 then lineno else error

/-- The handling of a line after it was read. -/
def lineStep (handler : Handler σ) (lineno : Nat) (error : Int) (user : σ) :
    Reader × Action → Int × σ
  | (_, .skip) => (error, user)
  | (_, .error) => (firstError error lineno, user)
  | (r, .call name value) =>
    let (ok, user) := handler user r.sect name value
    (if ok then error else firstError error lineno, user)

/-- The loop over the lines. -/
def lineLoop (handler : Handler σ) : Reader → Nat → Int → σ → List Bytes → Int × σ
  | _, _, error, user, [] => (error, user)
  | r, lineno, error, user, line :: lines =>
    let read := readBuffer r (lineno + 1) line
    let (error, user) := lineStep handler (lineno + 1) error user read
    lineLoop handler read.1 (lineno + 1) error user lines

def ini_parse_file (handler : Handler σ) (user : σ) (file : Bytes) : Int × σ :=
  lineLoop handler ⟨[], []⟩ 0 0 user (fgetsAll INI_MAX_LINE file)

/-- A file that is `none` can not be opened. -/
def ini_parse (handler : Handler σ) (user : σ) : Option Bytes → Int × σ
  | none => (-1, user)
  | some file => ini_parse_file handler user file

/-! ## The entries of a file -/

/-- A value that a file gives a name in a section. -/
structure Entry where
  sect : Bytes
  name : Bytes
  value : Bytes
  deriving DecidableEq, Repr

/-- The entry that a line gives. -/
def Action.entry (r : Reader) : Action → List Entry
  | .skip => []
  | .error => []
  | .call name value => [⟨r.sect, name, value⟩]

/-- The entries of the lines behind the line `lineno`. -/
def entriesFrom : Reader → Nat → List Bytes → List Entry
  | _, _, [] => []
  | r, lineno, line :: lines =>
    let (r, action) := readBuffer r (lineno + 1) line
    action.entry r ++ entriesFrom r (lineno + 1) lines

def entries (file : Bytes) : List Entry := entriesFrom ⟨[], []⟩ 0 (fgetsAll INI_MAX_LINE file)

/-- What the handler leaves after an entry. -/
def Handler.next (handler : Handler σ) (user : σ) (e : Entry) : σ :=
  (handler user e.sect e.name e.value).2

theorem lineStep_user (handler : Handler σ) (lineno : Nat) (error : Int) (user : σ)
    (read : Reader × Action) :
    (lineStep handler lineno error user read).2 =
      (read.2.entry read.1).foldl handler.next user := by
  obtain ⟨r, action⟩ := read
  cases action <;> rfl

theorem lineLoop_user (handler : Handler σ) (r : Reader) (lineno : Nat) (error : Int) (user : σ)
    (lines : List Bytes) :
    (lineLoop handler r lineno error user lines).2 =
      (entriesFrom r lineno lines).foldl handler.next user := by
  induction lines generalizing r lineno error user with
  | nil => rfl
  | cons line lines ih =>
    simp only [lineLoop, entriesFrom]
    rw [ih, lineStep_user, List.foldl_append]

theorem firstError_nonneg {error : Int} (h : 0 ≤ error) (lineno : Nat) :
    0 ≤ firstError error lineno := by
  unfold firstError
  split
  · exact Int.natCast_nonneg lineno
  · exact h

theorem lineStep_nonneg (handler : Handler σ) (lineno : Nat) {error : Int} (user : σ)
    (read : Reader × Action) (h : 0 ≤ error) :
    0 ≤ (lineStep handler lineno error user read).1 := by
  obtain ⟨r, action⟩ := read
  cases action with
  | skip => exact h
  | error => exact firstError_nonneg h lineno
  | call name value =>
    simp only [lineStep]
    split
    · exact h
    · exact firstError_nonneg h lineno

theorem lineLoop_nonneg (handler : Handler σ) (r : Reader) (lineno : Nat) {error : Int} (user : σ)
    (lines : List Bytes) (h : 0 ≤ error) :
    0 ≤ (lineLoop handler r lineno error user lines).1 := by
  induction lines generalizing r lineno error user with
  | nil => exact h
  | cons line lines ih => exact ih _ _ _ (lineStep_nonneg handler _ user _ h)

/-- The handler is called once for each entry, in order. -/
theorem ini_parse_file_user (handler : Handler σ) (user : σ) (file : Bytes) :
    (ini_parse_file handler user file).2 = (entries file).foldl handler.next user :=
  lineLoop_user ..

/-- The result is negative only when the file can not be opened. -/
theorem ini_parse_neg_iff (handler : Handler σ) (user : σ) (file : Option Bytes) :
    (ini_parse handler user file).1 < 0 ↔ file = none := by
  cases file with
  | none => simp [ini_parse]
  | some file =>
    have h : 0 ≤ (ini_parse handler user (some file)).1 := lineLoop_nonneg _ _ _ _ _ le_rfl
    simp only [reduceCtorEq, iff_false, not_lt]
    exact h

/-! ## The length of a value -/

theorem findLoop_append (c : UInt8) (w : Bool) (s : Bytes) :
    (findLoop c w s).1 ++ (findLoop c w s).2 = s := by
  induction s generalizing w with
  | nil => rfl
  | cons d s ih =>
    unfold findLoop
    split
    · rfl
    · exact congrArg (d :: ·) (ih _)

theorem length_rstrip_le (s : Bytes) : (rstrip s).length ≤ s.length :=
  (List.rdropWhile_prefix _ s).length_le

theorem length_lskip_le (s : Bytes) : (lskip s).length ≤ s.length :=
  (List.dropWhile_suffix _).length_le

theorem length_find_le (s : Bytes) (c : UInt8) :
    (find_char_or_comment s c).1.length ≤ s.length ∧
      (find_char_or_comment s c).2.length ≤ s.length := by
  have h := congrArg List.length (findLoop_append c false s)
  rw [List.length_append] at h
  exact ⟨le_of_add_le_left h.le, le_of_add_le_right h.le⟩

theorem length_nameValue_le (name rest : Bytes) : (nameValue name rest).2.length ≤ rest.length :=
  calc (nameValue name rest).2.length
      ≤ (find_char_or_comment (lskip rest.tail) 0).1.length := length_rstrip_le _
    _ ≤ (lskip rest.tail).length := (length_find_le _ _).1
    _ ≤ rest.tail.length := length_lskip_le _
    _ ≤ rest.length := (List.tail_suffix rest).length_le

theorem length_value_le_start {r r' : Reader} {indented : Bool} {start name value : Bytes}
    (h : readLine r indented start = (r', .call name value)) : value.length ≤ start.length := by
  unfold readLine at h
  split_ifs at h with h₁ h₂ h₃ h₄
  · simp at h
  · simp only [Prod.mk.injEq, Action.call.injEq] at h
    rw [h.2.2]
  · simp only at h
    split_ifs at h <;> simp at h
  · simp only at h
    split_ifs at h with h₅ h₆ h₇ <;> simp only [Prod.mk.injEq, Action.call.injEq, reduceCtorEq, and_false] at h
    · rw [← h.2.2]
      exact (length_nameValue_le _ _).trans (length_find_le _ _).2
    · rw [← h.2.2]
      exact (length_nameValue_le _ _).trans (length_find_le _ _).2
  · simp at h

theorem length_value_le_line {r r' : Reader} {lineno : Nat} {line name value : Bytes}
    (h : readBuffer r lineno line = (r', .call name value)) : value.length ≤ line.length := by
  have hstart := length_value_le_start h
  refine hstart.trans ((length_lskip_le _).trans ((length_rstrip_le _).trans ?_))
  split
  · exact (List.drop_suffix 3 _).length_le.trans (cstr_length_le line)
  · exact cstr_length_le line

theorem length_value_le {r : Reader} {lineno : Nat} {lines : List Bytes} {n : Nat}
    (h : ∀ line ∈ lines, line.length ≤ n) {e : Entry} (he : e ∈ entriesFrom r lineno lines) :
    e.value.length ≤ n := by
  induction lines generalizing r lineno with
  | nil => exact absurd he List.not_mem_nil
  | cons line lines ih =>
    simp only [entriesFrom, List.mem_append] at he
    rcases he with he | he
    · cases hread : readBuffer r (lineno + 1) line with
      | mk r' action =>
        rw [hread] at he
        cases action with
        | skip => exact absurd he List.not_mem_nil
        | error => exact absurd he List.not_mem_nil
        | call name value =>
          obtain rfl := List.mem_singleton.mp he
          exact (length_value_le_line hread).trans (h line List.mem_cons_self)
    · exact ih (fun l hl => h l (List.mem_cons_of_mem _ hl)) he

theorem length_value_lt {file : Bytes} {e : Entry} (h : e ∈ entries file) :
    e.value.length < INI_MAX_LINE :=
  Nat.lt_succ_of_le (length_value_le (fun _ hline => length_of_mem_fgetsAll hline) h)

/-! ## Lines that give a name a value -/

/-- The scan goes through bytes that are neither the character nor a semicolon. -/
theorem findLoop_of_notMem {c : UInt8} {body : Bytes} (hbody : ∀ d ∈ body, d ≠ c ∧ d ≠ 59)
    (w : Bool) (rest : Bytes) :
    findLoop c w (body ++ c :: rest) = (body, c :: rest) := by
  induction body generalizing w with
  | nil => simp [findLoop]
  | cons d body ih =>
    obtain ⟨hc, hsemi⟩ := hbody d List.mem_cons_self
    have hstop : ¬ (d = c ∨ w = true ∧ d = 59) := fun h => h.elim hc fun h => hsemi h.2
    rw [List.cons_append, findLoop, if_neg hstop, ih fun x hx => hbody x (List.mem_cons_of_mem _ hx)]

/-- The scan goes through a word, also through the semicolons in it. -/
theorem findLoop_word {c : UInt8} {word : Bytes} (hword : ∀ d ∈ word, d ≠ c ∧ isSpace d = false)
    (rest : Bytes) :
    findLoop c false (word ++ rest) =
      (word ++ (findLoop c false rest).1, (findLoop c false rest).2) := by
  induction word with
  | nil => rfl
  | cons d word ih =>
    obtain ⟨hc, hspace⟩ := hword d List.mem_cons_self
    have hstop : ¬ (d = c ∨ false = true ∧ d = 59) := by simp [hc]
    rw [List.cons_append, findLoop, if_neg hstop, hspace,
      ih fun x hx => hword x (List.mem_cons_of_mem _ hx)]
    rfl

/-- A string that is read as it is: it is not empty, and there is no white space in it. -/
structure Word (s : Bytes) : Prop where
  ne_nil : s ≠ []
  dark : ∀ d ∈ s, d ≠ 0 ∧ isSpace d = false

theorem Word.lskip {s : Bytes} (h : Word s) (rest : Bytes) : lskip (s ++ rest) = s ++ rest := by
  obtain ⟨hne, hdark⟩ := h
  cases s with
  | nil => exact absurd rfl hne
  | cons d s => exact List.dropWhile_cons_of_neg (by simp [(hdark d List.mem_cons_self).2])

theorem rstrip_append {s w : Bytes} (hw : ∀ d ∈ w, isSpace d = true) :
    rstrip (s ++ w) = rstrip s := by
  induction w using List.reverseRecOn with
  | nil => rw [List.append_nil]
  | append_singleton w d ih =>
    unfold rstrip at *
    rw [← List.append_assoc, List.rdropWhile_concat_pos _ _ _ (hw d (by simp)),
      ih fun x hx => hw x (by simp [hx])]

theorem rstrip_of_getLast {s : Bytes} {d : UInt8} (h : isSpace d = false) :
    rstrip (s ++ [d]) = s ++ [d] :=
  List.rdropWhile_concat_neg _ _ _ (by simp [h])

theorem Word.rstrip {s : Bytes} (h : Word s) (front : Bytes) : rstrip (front ++ s) = front ++ s := by
  obtain ⟨hne, hdark⟩ := h
  obtain ⟨s, d, rfl⟩ := List.eq_nil_or_concat s |>.resolve_left hne
  rw [List.concat_eq_append, ← List.append_assoc]
  exact rstrip_of_getLast (hdark d (by simp)).2

theorem printInt_ne_nil (n : Int) : printInt n ≠ [] := by
  unfold printInt
  split
  · exact List.cons_ne_nil _ _
  · exact printNat_ne_nil

/-- A number is a word. -/
theorem word_printInt (n : Int) : Word (printInt n) where
  ne_nil := printInt_ne_nil n
  dark c hc := by
    have hbyte : c.toNat = 45 ∨ 48 ≤ c.toNat ∧ c.toNat ≤ 57 := by
      rcases mem_printInt hc with rfl | hdigit
      · exact .inl rfl
      · exact .inr ((isDigit_iff c).mp hdigit)
    refine ⟨?_, ?_⟩
    · rintro rfl
      exact absurd hbyte (by decide)
    · unfold isSpace
      simp only [Bool.or_eq_false_iff, beq_eq_false_iff_ne, ne_eq, Bool.and_eq_false_iff,
        decide_eq_false_iff_not, UInt8.le_iff_toNat_le]
      refine ⟨?_, .inr ?_⟩
      · rintro rfl
        exact absurd hbyte (by decide)
      · rw [show (13 : UInt8).toNat = 13 from rfl]
        omega

theorem Word.append {s w : Bytes} (hs : Word s) (hw : ∀ c ∈ w, c ≠ 0 ∧ isSpace c = false) :
    Word (s ++ w) where
  ne_nil := List.append_ne_nil_of_left_ne_nil hs.ne_nil w
  dark c hc := (List.mem_append.mp hc).elim (hs.dark c) (hw c)

theorem Word.of_all {s : Bytes}
    (h : s ≠ [] ∧ s.all (fun c => c ≠ 0 ∧ isSpace c = false) = true) : Word s :=
  ⟨h.1, fun c hc => of_decide_eq_true (List.all_eq_true.mp h.2 c hc)⟩

/-- A line that gives a name a value, perhaps with an empty comment. -/
structure Assignment where
  name : Bytes
  value : Bytes
  comment : Bytes
  name_word : Word name
  name_plain : ∀ d ∈ name, d ≠ 61 ∧ d ≠ 59 ∧ d ≠ 35 ∧ d ≠ 91
  value_word : Word value
  comment_eq : comment = [] ∨ comment = ascii " ;"

namespace Assignment

variable (a : Assignment)

/-- The line without its end. -/
def body : Bytes := a.name ++ (ascii " = " ++ (a.value ++ a.comment))

def line : Bytes := a.body ++ [10]

/-- The entry that the line is in a section. -/
def entry (sect : Bytes) : Entry := ⟨sect, a.name, a.value⟩

theorem nameValue_eq :
    nameValue (a.name ++ [32]) (61 :: 32 :: (a.value ++ a.comment)) = (a.name, a.value) := by
  have hname : rstrip (a.name ++ [32]) = a.name := by
    rw [rstrip_append (w := [32]) (List.forall_mem_singleton.mpr rfl)]
    exact a.name_word.rstrip []
  have hskip : lskip (32 :: (a.value ++ a.comment)) = a.value ++ a.comment :=
    (List.dropWhile_cons_of_pos rfl).trans (a.value_word.lskip a.comment)
  have hfind := findLoop_word (c := 0) a.value_word.dark a.comment
  have hspaces : ∀ d ∈ (findLoop 0 false a.comment).1, isSpace d = true := by
    rw [← List.all_eq_true]
    rcases a.comment_eq with h | h <;> rw [h] <;> decide
  unfold nameValue
  rw [hname, List.tail_cons, hskip, find_char_or_comment, hfind, rstrip_append hspaces]
  exact Prod.ext rfl (a.value_word.rstrip [])

/-- The reader takes the line for what it is, whatever came before. -/
theorem readLine_body (r : Reader) :
    readLine r false a.body = (⟨r.sect, strncpy0 a.name MAX_NAME⟩, .call a.name a.value) := by
  obtain ⟨d, s, hname⟩ := List.exists_cons_of_ne_nil a.name_word.ne_nil
  have hd := a.name_plain d (by simp [hname])
  have hhead : a.body.head? = some d := by simp [body, hname]
  have hne : a.body ≠ [] := by simp [body, hname]
  have hbody : a.body = (a.name ++ [32]) ++ 61 :: 32 :: (a.value ++ a.comment) := by
    simp [body, ascii]
  have hfind : find_char_or_comment a.body 61 =
      (a.name ++ [32], 61 :: 32 :: (a.value ++ a.comment)) := by
    rw [hbody]
    refine findLoop_of_notMem (fun x hx => ?_) _ _
    rcases List.mem_append.mp hx with hx | hx
    · exact ⟨(a.name_plain x hx).1, (a.name_plain x hx).2.1⟩
    · obtain rfl := List.mem_singleton.mp hx
      decide
  unfold readLine
  simp [hhead, hd, hne, hfind, a.nameValue_eq]

theorem newline_notMem_body : 10 ∉ a.body := by
  intro h
  have hword : ∀ s : Bytes, Word s → 10 ∉ s := fun s hs hmem =>
    absurd (hs.dark 10 hmem).2 (by decide)
  simp only [body, List.mem_append] at h
  rcases h with h | h | h | h
  · exact hword _ a.name_word h
  · exact absurd h (by decide)
  · exact hword _ a.value_word h
  · rcases a.comment_eq with hcomment | hcomment <;> rw [hcomment] at h <;>
      exact absurd h (by decide)

theorem zero_notMem_line : 0 ∉ a.line := by
  intro h
  simp only [line, body, List.mem_append] at h
  rcases h with (h | h | h | h) | h
  · exact (a.name_word.dark 0 h).1 rfl
  · exact absurd h (by decide)
  · exact (a.value_word.dark 0 h).1 rfl
  · rcases a.comment_eq with hcomment | hcomment <;> rw [hcomment] at h <;>
      exact absurd h (by decide)
  · exact absurd h (by decide)

theorem readBuffer_line (r : Reader) {lineno : Nat} (h : lineno ≠ 1) :
    readBuffer r lineno a.line =
      (⟨r.sect, strncpy0 a.name MAX_NAME⟩, .call a.name a.value) := by
  have hstrip : rstrip a.line = a.body := by
    rw [line, rstrip_append (w := [10]) (List.forall_mem_singleton.mpr rfl), body]
    rcases a.comment_eq with h | h
    · rw [h, List.append_nil, ← List.append_assoc]
      exact a.value_word.rstrip _
    · have hend : a.name ++ (ascii " = " ++ (a.value ++ a.comment)) =
          (a.name ++ (ascii " = " ++ (a.value ++ [32]))) ++ [59] := by
        simp [h, ascii]
      rw [hend]
      exact rstrip_of_getLast rfl
  have hskip : lskip a.body = a.body := a.name_word.lskip _
  unfold readBuffer
  simp [cstr_of_zero_notMem a.zero_notMem_line, h, hstrip, hskip, a.readLine_body]

end Assignment

/-- A blank line gives nothing. -/
theorem readBuffer_blank (r : Reader) {lineno : Nat} (h : lineno ≠ 1) :
    readBuffer r lineno [10] = (r, .skip) := by
  have hstrip : rstrip [10] = [] := rfl
  unfold readBuffer
  simp [cstr_of_zero_notMem, h, hstrip, lskip, readLine]

/-- Assignments in front of a blank line give their entries. -/
theorem entriesFrom_assignments (r : Reader) {lineno : Nat} (h : lineno ≠ 0)
    (as : List Assignment) :
    entriesFrom r lineno (as.map Assignment.line ++ [[10]]) = as.map (Assignment.entry · r.sect) := by
  induction as generalizing r lineno with
  | nil =>
    rw [List.map_nil, List.nil_append, entriesFrom, readBuffer_blank r (by omega)]
    rfl
  | cons a as ih =>
    rw [List.map_cons, List.cons_append, entriesFrom, a.readBuffer_line r (by omega)]
    exact congrArg (a.entry r.sect :: ·) (ih ⟨r.sect, _⟩ (Nat.succ_ne_zero lineno))

end BootableRecovery.Iniparse
