import BootableRecovery.Lib.CString
import BootableRecovery.Lib.Numeral

/-!
# The lexer of edify: `edify/lexer.l`

`matchInitial` and `matchStr` say which rule flex takes in each start condition
and how many bytes it matches; `action` is the code of the rule. The globals of
the scanner are a state (`Lexer`) that survives the scan.

`gLine` and `gColumn` reach only the texts that `yyerror` prints and are left out.
The parser stops only after it has read the end of the script, so that the tokens
of a whole script are computed first (`tokens`).

Main results:
* `tokens_spells`: a text that spells tokens is scanned into these tokens.
* `tokens_lexeme`: a token's range is the range of its bytes.
* `tokens_congr`: what of the globals the tokens depend on.
-/

namespace BootableRecovery.Edify

/-! ## Tokens -/

/-- `YYLTYPE`: where something stands in the script. -/
structure YYLTYPE where
  start : Nat
  end_ : Nat
  deriving DecidableEq, Repr

/-- The tokens of `parser.y`; a token that is one character has that character's name. -/
inductive Token where
  | STRING (str : Bytes)
  | BAD
  | AND
  | OR
  | EQ
  | NE
  | IF
  | THEN
  | ELSE
  | ENDIF
  | plus
  | lparen
  | rparen
  | comma
  | not
  | semi
  deriving DecidableEq, Repr

def MAX_STRING_LEN : Nat := 1024

/-- The start conditions of the scanner. -/
inductive Start where
  | INITIAL
  | STR
  deriving DecidableEq, Repr

/-- The globals of the scanner. `string_buffer` is what stands before `string_pos`. -/
structure Lexer where
  gPos : Nat
  start : Start
  string_buffer : Bytes
  yylloc : YYLTYPE
  deriving DecidableEq, Repr

/-- The globals when the process starts. -/
def Lexer.fresh : Lexer := ⟨0, .INITIAL, [], ⟨0, 0⟩⟩

/-! ## Rules -/

def quote : UInt8 := 34
def backslash : UInt8 := 92
def newline : UInt8 := 10
def hash : UInt8 := 35

/-- `[a-zA-Z0-9_:/.]` -/
def isWord (c : UInt8) : Bool :=
  (97 ≤ c && c ≤ 122) || (65 ≤ c && c ≤ 90) || isDigit c || c == 95 || c == 58 || c == 47 || c == 46

/-- `[ \t]` -/
def isBlank (c : UInt8) : Bool := c == 32 || c == 9

/-- `[0-9a-fA-F]` -/
def isHex (c : UInt8) : Bool :=
  isDigit c || (97 ≤ c && c ≤ 102) || (65 ≤ c && c ≤ 70)

def hexValue (c : UInt8) : UInt8 :=
  if isDigit c then c - 48 else if 97 ≤ c then c - 87 else c - 55

def keywords : List (Bytes × Token) :=
  [(ascii "if", .IF), (ascii "then", .THEN), (ascii "else", .ELSE), (ascii "endif", .ENDIF)]

/-- The rules that match one text, the longer texts first. -/
def operators : List (Bytes × Token) :=
  [(ascii "&&", .AND), (ascii "||", .OR), (ascii "==", .EQ), (ascii "!=", .NE),
   (ascii "+", .plus), (ascii "(", .lparen), (ascii ")", .rparen), (ascii ",", .comma),
   (ascii "!", .not), (ascii ";", .semi)]

/-- The rule that a match belongs to. -/
inductive Rule where
  | quote
  | word
  | op (t : Token)
  | blanks
  | newline
  | bad
  | close
  | put (c : UInt8)
  deriving DecidableEq, Repr

/-- The rule and the length of the match in `INITIAL`. -/
def matchInitial (s : Bytes) : Rule × Nat :=
  match s with
  | [] => (.bad, 0)
  | c :: rest =>
    if c = quote then (.quote, 1)
    else if isWord c then (.word, (s.takeWhile isWord).length)
    else if isBlank c then (.blanks, (s.takeWhile isBlank).length)
    else if c = newline then (.newline, 1)
    else if c = hash ∧ newline ∈ rest then (.newline, (rest.takeWhile (· ≠ newline)).length + 2)
    else match operators.find? fun p => p.1.isPrefixOf s with
      | some p => (.op p.2, p.1.length)
      | none => (.bad, 1)

/-- The escapes of one character: what is written behind the backslash, and for what. -/
def escapes : List (UInt8 × UInt8) := [(110, newline), (116, 9), (34, quote), (92, backslash)]

/-- `\x` and two digits; `rest` is what follows `\x`. -/
def matchHex (rest : Bytes) : Rule × Nat :=
  match rest with
  | a :: b :: _ =>
    if isHex a && isHex b then (.put (16 * hexValue a + hexValue b), 4) else (.put backslash, 1)
  | _ => (.put backslash, 1)

/-- A backslash in a string literal; `rest` is what follows it. -/
def matchEscape (rest : Bytes) : Rule × Nat :=
  match rest with
  | [] => (.put backslash, 1)
  | d :: rest =>
    match escapes.lookup d with
    | some c => (.put c, 2)
    -- a backslash in front of anything else stands for itself
    | none => if d = 120 then matchHex rest else (.put backslash, 1)

/-- The rule and the length of the match in `STR`. -/
def matchStr (s : Bytes) : Rule × Nat :=
  match s with
  | [] => (.bad, 0)
  | c :: rest =>
    if c = quote then (.close, 1)
    else if c = backslash then matchEscape rest
    else (.put c, 1)

def matchRule (start : Start) (s : Bytes) : Rule × Nat :=
  match start with
  | .INITIAL => matchInitial s
  | .STR => matchStr s

/-! ## Actions -/

/-- `ADVANCE` -/
def Lexer.advance (g : Lexer) (yyleng : Nat) : Lexer :=
  { g with yylloc := ⟨g.gPos, g.gPos + yyleng⟩, gPos := g.gPos + yyleng }

/-- `*string_pos++ = c`; a fault behind the end of the buffer. -/
def Lexer.put (g : Lexer) (c : UInt8) (yyleng : Nat) : Outcome Lexer :=
  if g.string_buffer.length < MAX_STRING_LEN then
    .done { g with gPos := g.gPos + yyleng, string_buffer := g.string_buffer ++ [c] }
  else .fault

/-- The end of a string literal: the buffer is terminated and copied with `strdup`. -/
def Lexer.close (g : Lexer) : Outcome (Lexer × Option Token) :=
  if g.string_buffer.length < MAX_STRING_LEN then
    .done ({ g with gPos := g.gPos + 1, start := .INITIAL
                    yylloc := { g.yylloc with end_ := g.gPos + 1 } },
      some (.STRING (cstr g.string_buffer)))
  else .fault

/-- The code of a rule, on the bytes `yytext` it matched. -/
def action (g : Lexer) (r : Rule) (yytext : Bytes) : Outcome (Lexer × Option Token) :=
  match r with
  | .quote =>
    .done ({ g with start := .STR, string_buffer := [], gPos := g.gPos + 1
                    yylloc := { g.yylloc with start := g.gPos } }, none)
  | .word => .done (g.advance yytext.length, (keywords.lookup yytext).getD (.STRING yytext))
  | .op t => .done (g.advance yytext.length, some t)
  | .blanks => .done (g.advance yytext.length, none)
  | .newline => .done ({ g with gPos := g.gPos + yytext.length }, none)
  | .bad => .done (g, some .BAD)
  | .close => g.close
  | .put c => do
    let g ← g.put c yytext.length
    .done (g, none)

/-- Put the token of a match in front of those of the rest. -/
def consToken (m : Lexer × Option Token) (ts : List (Token × YYLTYPE)) : List (Token × YYLTYPE) :=
  match m.2 with
  | some t => (t, m.1.yylloc) :: ts
  | none => ts

/-- Scan `s` to its end, at most `n` matches. -/
def scan : Nat → Lexer → Bytes → Outcome (List (Token × YYLTYPE) × Lexer)
  | _, g, [] => .done ([], g)
  | 0, _, _ :: _ => .spin
  | n + 1, g, c :: s =>
    let r := matchRule g.start (c :: s)
    do
      let m ← action g r.1 ((c :: s).take r.2)
      let (ts, g') ← scan n m.1 ((c :: s).drop r.2)
      .done (consToken m ts, g')

/-- The tokens that `yylex` returns until the end of the script, with `yylloc` at
each of them, and the globals it leaves. -/
def tokens (g : Lexer) (script : Bytes) : Outcome (List (Token × YYLTYPE) × Lexer) :=
  scan script.length g script

/-! ## One match -/

theorem matchHex_length (rest : Bytes) :
    0 < (matchHex rest).2 ∧ (matchHex rest).2 ≤ rest.length + 2 := by
  match rest with
  | [] => exact ⟨Nat.one_pos, Nat.le_succ 1⟩
  | [_] => exact ⟨Nat.one_pos, by simp [matchHex]⟩
  | a :: b :: rest =>
    simp only [matchHex]
    split_ifs
    · exact ⟨Nat.succ_pos _, by simp⟩
    · exact ⟨Nat.one_pos, by simp⟩

theorem matchEscape_length (rest : Bytes) :
    0 < (matchEscape rest).2 ∧ (matchEscape rest).2 ≤ rest.length + 1 := by
  cases rest with
  | nil => exact ⟨Nat.one_pos, le_rfl⟩
  | cons d rest =>
    simp only [matchEscape]
    cases escapes.lookup d with
    | some c => exact ⟨Nat.two_pos, by simp⟩
    | none =>
      simp only
      split_ifs
      · exact matchHex_length rest
      · exact ⟨Nat.one_pos, by simp⟩

theorem operators_ne_nil {p : Bytes × Token} (h : p ∈ operators) : 0 < p.1.length := by
  revert p
  decide

/-- A match takes at least one byte, and only bytes that are there. -/
theorem matchRule_length (start : Start) (c : UInt8) (s : Bytes) :
    0 < (matchRule start (c :: s)).2 ∧ (matchRule start (c :: s)).2 ≤ (c :: s).length := by
  cases start with
  | STR =>
    simp only [matchRule, matchStr]
    split_ifs
    · exact ⟨Nat.one_pos, by simp⟩
    · exact matchEscape_length s
    · exact ⟨Nat.one_pos, by simp⟩
  | INITIAL =>
    simp only [matchRule, matchInitial]
    split_ifs with hq hw hb hn hh
    · exact ⟨Nat.one_pos, by simp⟩
    · refine ⟨?_, (List.takeWhile_prefix _).length_le⟩
      rw [List.takeWhile_cons_of_pos hw]
      exact Nat.succ_pos _
    · refine ⟨?_, (List.takeWhile_prefix _).length_le⟩
      rw [List.takeWhile_cons_of_pos hb]
      exact Nat.succ_pos _
    · exact ⟨Nat.one_pos, by simp⟩
    · refine ⟨Nat.succ_pos _, ?_⟩
      have hlt : (s.takeWhile (· ≠ newline)).length < s.length := by
        refine lt_of_le_of_ne (List.takeWhile_prefix _).length_le fun heq => ?_
        have hall := List.takeWhile_eq_self_iff.mp ((List.takeWhile_prefix _).eq_of_length heq)
        simpa using hall newline hh.2
      simpa using hlt
    · split
      · rename_i p hp
        have hprefix := List.find?_some hp
        exact ⟨operators_ne_nil (List.mem_of_find?_eq_some hp),
          (List.isPrefixOf_iff_prefix.mp hprefix).length_le⟩
      · exact ⟨Nat.one_pos, by simp⟩

/-- More matches than bytes are not needed. -/
theorem scan_of_le {n m : Nat} (g : Lexer) {s : Bytes} (hn : s.length ≤ n) (hm : s.length ≤ m) :
    scan n g s = scan m g s := by
  induction n generalizing m g s with
  | zero =>
    obtain rfl := List.length_eq_zero_iff.mp (Nat.le_zero.mp hn)
    cases m <;> rfl
  | succ n ih =>
    cases s with
    | nil => cases m <;> rfl
    | cons c s =>
      cases m with
      | zero => exact absurd hm (Nat.not_succ_le_zero _)
      | succ m =>
        have hlen : ((c :: s).drop (matchRule g.start (c :: s)).2).length ≤ s.length := by
          have hpos := (matchRule_length g.start c s).1
          simp only [List.length_drop, List.length_cons]
          omega
        have hrest : ∀ g' : Lexer, scan n g' ((c :: s).drop (matchRule g.start (c :: s)).2) =
            scan m g' ((c :: s).drop (matchRule g.start (c :: s)).2) := fun g' =>
          ih g' (hlen.trans (Nat.le_of_succ_le_succ hn)) (hlen.trans (Nat.le_of_succ_le_succ hm))
        simp only [scan, hrest]

@[simp] theorem tokens_nil (g : Lexer) : tokens g [] = .done ([], g) := rfl

/-- A match that takes the text `lexeme`, and the rest. -/
theorem tokens_match {g : Lexer} {lexeme rest : Bytes} {r : Rule} (hne : lexeme ≠ [])
    (h : matchRule g.start (lexeme ++ rest) = (r, lexeme.length)) :
    tokens g (lexeme ++ rest) = (do
      let m ← action g r lexeme
      let (ts, g') ← tokens m.1 rest
      .done (consToken m ts, g')) := by
  obtain ⟨c, l, rfl⟩ := List.exists_cons_of_ne_nil hne
  have hlen : rest.length ≤ (l ++ rest).length := by simp
  have htokens : ∀ g' : Lexer, scan (l ++ rest).length g' rest = scan rest.length g' rest :=
    fun g' => scan_of_le g' hlen le_rfl
  rw [List.cons_append] at h ⊢
  simp only [tokens, List.length_cons, scan, h, List.take_succ_cons, List.drop_succ_cons,
    List.take_left, List.drop_left, htokens]

/-! ## Spelling tokens -/

/-- `Escaped s body`: between quotes, `body` is one way to write the string `s`. -/
inductive Escaped : Bytes → Bytes → Prop where
  | nil : Escaped [] []
  | raw {c s body} : c ≠ quote → c ≠ backslash → Escaped s body → Escaped (c :: s) (c :: body)
  | escape {p s body} : p ∈ escapes → Escaped s body →
      Escaped (p.2 :: s) (backslash :: p.1 :: body)
  | hex {a b s body} : isHex a → isHex b → Escaped s body →
      Escaped ((16 * hexValue a + hexValue b) :: s) (backslash :: 120 :: a :: b :: body)

/-- `Spelling t text`: `text` is one way to write the token `t`. -/
inductive Spelling : Token → Bytes → Prop where
  | word {s} : s ≠ [] → (∀ c ∈ s, isWord c) → keywords.lookup s = none → Spelling (.STRING s) s
  | quoted {s body} : Escaped s body → 0 ∉ s → s.length < MAX_STRING_LEN →
      Spelling (.STRING s) (quote :: (body ++ [quote]))
  | keyword {p} : p ∈ keywords → Spelling p.2 p.1
  | operator {p} : p ∈ operators → Spelling p.2 p.1

/-- What may stand between tokens: blanks, newlines, and comments with their newline. -/
inductive Layout : Bytes → Prop where
  | nil : Layout []
  | blank {c w} : isBlank c → Layout w → Layout (c :: w)
  | newline {w} : Layout w → Layout (newline :: w)
  | comment {text w} : newline ∉ text → Layout w → Layout (hash :: (text ++ newline :: w))

/-- `Spells ts script`: the script writes the tokens with layout between them, and
there is some between two words. -/
inductive Spells : List Token → Bytes → Prop where
  | nil {w} : Layout w → Spells [] w
  | cons {w t text ts rest} : Layout w → Spelling t text →
      ((∀ c ∈ text, isWord c) → ∀ c ∈ rest.head?, isWord c = false) →
      Spells ts rest → Spells (t :: ts) (w ++ (text ++ rest))

/-! ## The rules on spelled text -/

/-- A run of bytes of one class ends where the next byte is of another class. -/
theorem takeWhile_append_stop {p : UInt8 → Bool} {w rest : Bytes} (hw : ∀ c ∈ w, p c)
    (hrest : ∀ c ∈ rest.head?, p c = false) : (w ++ rest).takeWhile p = w := by
  rw [List.takeWhile_append_of_pos hw]
  cases rest with
  | nil => exact List.append_nil w
  | cons c rest =>
    have hc : ¬ p c = true := by simp [hrest c rfl]
    rw [List.takeWhile_cons_of_neg hc, List.append_nil]

theorem isBlank_iff {c : UInt8} : isBlank c = true ↔ c = 32 ∨ c = 9 := by
  simp [isBlank]

theorem matchInitial_quote (rest : Bytes) : matchInitial (quote :: rest) = (.quote, 1) := rfl

theorem matchInitial_newline (rest : Bytes) : matchInitial (newline :: rest) = (.newline, 1) := rfl

theorem matchInitial_word {w rest : Bytes} (hne : w ≠ []) (hw : ∀ c ∈ w, isWord c)
    (hrest : ∀ c ∈ rest.head?, isWord c = false) :
    matchInitial (w ++ rest) = (.word, w.length) := by
  have htake := takeWhile_append_stop hw hrest
  obtain ⟨c, w, rfl⟩ := List.exists_cons_of_ne_nil hne
  have hc : isWord c := hw c List.mem_cons_self
  have hq : c ≠ quote := by
    rintro rfl
    exact absurd hc (by decide)
  rw [List.cons_append] at htake ⊢
  simp only [matchInitial, if_neg hq, hc, if_true, htake]

theorem matchInitial_blanks {w rest : Bytes} (hne : w ≠ []) (hw : ∀ c ∈ w, isBlank c)
    (hrest : ∀ c ∈ rest.head?, isBlank c = false) :
    matchInitial (w ++ rest) = (.blanks, w.length) := by
  have htake := takeWhile_append_stop hw hrest
  obtain ⟨c, w, rfl⟩ := List.exists_cons_of_ne_nil hne
  have hc : isBlank c := hw c List.mem_cons_self
  have hclass : c ≠ quote ∧ isWord c = false := by
    rcases isBlank_iff.mp hc with rfl | rfl
    · exact ⟨by decide, by decide⟩
    · exact ⟨by decide, by decide⟩
  rw [List.cons_append] at htake ⊢
  simp only [matchInitial, if_neg hclass.1, hclass.2, hc, if_true, htake, Bool.false_eq_true,
    if_false]

theorem matchInitial_comment {text : Bytes} (h : newline ∉ text) (rest : Bytes) :
    matchInitial (hash :: (text ++ newline :: rest)) = (.newline, text.length + 2) := by
  have htext : ∀ c ∈ text, decide (c ≠ newline) = true := by
    intro c hc
    simpa using ne_of_mem_of_not_mem hc h
  have hstop : ∀ c ∈ (newline :: rest).head?, decide (c ≠ newline) = false := by
    intro c hc
    obtain rfl : newline = c := by simpa using hc
    simp
  have hmem : newline ∈ text ++ newline :: rest := by simp
  have hmatch : matchInitial (hash :: (text ++ newline :: rest)) =
      if hash = hash ∧ newline ∈ text ++ newline :: rest then
        (.newline, ((text ++ newline :: rest).takeWhile (· ≠ newline)).length + 2)
      else match operators.find? fun p => p.1.isPrefixOf (hash :: (text ++ newline :: rest)) with
        | some p => (.op p.2, p.1.length)
        | none => (.bad, 1) := rfl
  rw [hmatch, if_pos ⟨rfl, hmem⟩, takeWhile_append_stop htext hstop]

/-- The only operator that another one starts with is `!`. -/
theorem matchInitial_operator {p : Bytes × Token} (hp : p ∈ operators) {rest : Bytes}
    (hrest : p.2 = .not → ∀ c ∈ rest.head?, c ≠ 61) :
    matchInitial (p.1 ++ rest) = (.op p.2, p.1.length) := by
  simp only [operators, List.mem_cons, List.not_mem_nil, or_false] at hp
  rcases hp with rfl | rfl | rfl | rfl | rfl | rfl | rfl | rfl | rfl | rfl
  case inr.inr.inr.inr.inr.inr.inr.inr.inl =>
    cases rest with
    | nil => rfl
    | cons c rest =>
      have hc : ¬ 61 = c := Ne.symm (hrest rfl c rfl)
      simp [matchInitial, operators, ascii, quote, isWord, isDigit, isBlank, newline, hash, hc]
  all_goals rfl

/-! ## Scanning layout -/

/-- A match that returns no token. -/
theorem tokens_skip {g g' : Lexer} {lexeme rest : Bytes} {r : Rule} (hne : lexeme ≠ [])
    (h : matchRule g.start (lexeme ++ rest) = (r, lexeme.length))
    (hact : action g r lexeme = .done (g', none)) :
    tokens g (lexeme ++ rest) = tokens g' rest := by
  rw [tokens_match hne h, hact, Outcome.done_bind]
  cases tokens g' rest with
  | done x => rfl
  | fault => rfl
  | spin => rfl

/-- A match that returns a token. -/
theorem tokens_emit {g g' : Lexer} {lexeme rest : Bytes} {r : Rule} {t : Token} (hne : lexeme ≠ [])
    (h : matchRule g.start (lexeme ++ rest) = (r, lexeme.length))
    (hact : action g r lexeme = .done (g', some t)) :
    tokens g (lexeme ++ rest) = (do
      let (ts, g'') ← tokens g' rest
      .done ((t, g'.yylloc) :: ts, g'')) := by
  rw [tokens_match hne h, hact]
  rfl

theorem Layout.dropWhile {w : Bytes} (h : Layout w) : Layout (w.dropWhile isBlank) := by
  induction h with
  | nil => exact .nil
  | blank hc _ ih => rwa [List.dropWhile_cons_of_pos hc]
  | newline hw _ => exact .newline hw
  | comment ht hw _ => exact .comment ht hw

/-- Layout only moves the position. -/
theorem tokens_layout {w rest : Bytes} (h : Layout w)
    (hrest : ∀ c ∈ rest.head?, isBlank c = false) {g : Lexer} (hg : g.start = .INITIAL) :
    ∃ g', g'.start = .INITIAL ∧ g'.gPos = g.gPos + w.length ∧
      tokens g (w ++ rest) = tokens g' rest := by
  -- by the length, since one match takes all the blanks at the front
  induction hn : w.length using Nat.strong_induction_on generalizing w g with
  | _ n ih =>
    subst hn
    cases h with
    | nil => exact ⟨g, hg, rfl, rfl⟩
    | @blank c w hc hw =>
      have hsplit := List.takeWhile_append_dropWhile (p := isBlank) (l := c :: w)
      have hdrop : Layout ((c :: w).dropWhile isBlank) := (Layout.blank hc hw).dropWhile
      have htake : (c :: w).takeWhile isBlank ≠ [] := by
        rw [List.takeWhile_cons_of_pos hc]
        exact List.cons_ne_nil _ _
      have hall : ∀ b ∈ (c :: w).takeWhile isBlank, isBlank b := fun b hb =>
        List.mem_takeWhile_imp hb
      have hnext : ∀ b ∈ ((c :: w).dropWhile isBlank ++ rest).head?, isBlank b = false := by
        intro b hb
        cases hd : (c :: w).dropWhile isBlank with
        | nil => exact hrest b (by simpa [hd] using hb)
        | cons b' w' =>
          obtain rfl : b' = b := by simpa [hd] using hb
          have := List.head?_dropWhile_not isBlank (c :: w)
          simpa [hd] using this
      generalize (c :: w).takeWhile isBlank = blanks at *
      generalize (c :: w).dropWhile isBlank = w' at *
      have hmatch := matchInitial_blanks htake hall hnext
      rw [← hsplit, List.append_assoc]
      have hskip : tokens g (blanks ++ (w' ++ rest)) =
          tokens (g.advance blanks.length) (w' ++ rest) :=
        tokens_skip htake (by rw [hg]; exact hmatch) rfl
      rw [hskip]
      have hlt : w'.length < (c :: w).length := by
        rw [← hsplit, List.length_append]
        exact Nat.lt_add_of_pos_left (List.length_pos_iff.mpr htake)
      obtain ⟨g', hstart, hpos, heq⟩ := ih w'.length hlt hdrop (g := g.advance blanks.length) hg rfl
      refine ⟨g', hstart, ?_, heq⟩
      rw [hpos, List.length_append, ← Nat.add_assoc]
      rfl
    | @newline w hw =>
      have hmatch := matchInitial_newline (w ++ rest)
      obtain ⟨g', hstart, hpos, heq⟩ := ih w.length (Nat.lt_succ_self _) hw
        (g := { g with gPos := g.gPos + 1 }) hg rfl
      refine ⟨g', hstart, ?_, ?_⟩
      · rw [hpos, List.length_cons, Nat.add_comm w.length, ← Nat.add_assoc]
      · have hskip : tokens g ([newline] ++ (w ++ rest)) =
            tokens { g with gPos := g.gPos + 1 } (w ++ rest) :=
          tokens_skip (List.cons_ne_nil _ _) (by rw [hg]; exact hmatch) rfl
        rw [← heq, ← hskip]
        rfl
    | @comment text w ht hw =>
      have hmatch := matchInitial_comment ht (w ++ rest)
      have hlen : (hash :: (text ++ [newline])).length = text.length + 2 := by simp
      obtain ⟨g', hstart, hpos, heq⟩ := ih w.length (by simp; omega) hw
        (g := { g with gPos := g.gPos + (hash :: (text ++ [newline])).length }) hg rfl
      have hsplit : (hash :: (text ++ newline :: w)) ++ rest =
          (hash :: (text ++ [newline])) ++ (w ++ rest) := by simp
      refine ⟨g', hstart, ?_, ?_⟩
      · rw [hpos]
        simp
        omega
      · rw [← heq, hsplit]
        have hrule : matchRule g.start ((hash :: (text ++ [newline])) ++ (w ++ rest)) =
            (.newline, (hash :: (text ++ [newline])).length) := by
          rw [hg, hlen]
          simpa [matchRule] using hmatch
        exact tokens_skip (List.cons_ne_nil _ _) hrule rfl

/-! ## Scanning a string literal -/

/-- `Quoted s body`: in front of a closing quote, `body` is scanned into the string `s`. -/
inductive Quoted : Bytes → Bytes → Prop where
  | nil : Quoted [] []
  | cons {c lexeme s body} : lexeme ≠ [] →
      (∀ rest, matchStr (lexeme ++ (body ++ quote :: rest)) = (.put c, lexeme.length)) →
      Quoted s body → Quoted (c :: s) (lexeme ++ body)

theorem Escaped.quoted {s body : Bytes} (h : Escaped s body) : Quoted s body := by
  induction h with
  | nil => exact .nil
  | @raw c s body hq hb _ ih =>
    refine @Quoted.cons c [c] s body (List.cons_ne_nil _ _) (fun rest => ?_) ih
    simp [matchStr, hq, hb]
  | @escape p s body hp _ ih =>
    refine @Quoted.cons p.2 [backslash, p.1] s body (List.cons_ne_nil _ _) (fun rest => ?_) ih
    simp only [escapes, List.mem_cons, List.not_mem_nil, or_false] at hp
    rcases hp with rfl | rfl | rfl | rfl
    all_goals rfl
  | @hex a b s body ha hb _ ih =>
    refine @Quoted.cons _ [backslash, 120, a, b] s body (List.cons_ne_nil _ _) (fun rest => ?_) ih
    have hmatch : matchStr ([backslash, 120, a, b] ++ (body ++ quote :: rest)) =
        if isHex a && isHex b then (.put (16 * hexValue a + hexValue b), 4)
        else (.put backslash, 1) := rfl
    rw [hmatch, ha, hb]
    rfl

/-- The scanner after a literal with the string `s`, written with `n` bytes and a quote. -/
def Lexer.closed (g : Lexer) (s : Bytes) (n : Nat) : Lexer :=
  { gPos := g.gPos + n + 1, start := .INITIAL, string_buffer := g.string_buffer ++ s
    yylloc := ⟨g.yylloc.start, g.gPos + n + 1⟩ }

theorem tokens_quoted {s body : Bytes} (h : Quoted s body) {g : Lexer} (hg : g.start = .STR)
    (rest : Bytes) : tokens g (body ++ quote :: rest) =
      if g.string_buffer.length + s.length < MAX_STRING_LEN then do
        let (ts, g') ← tokens (g.closed s body.length) rest
        .done ((.STRING (cstr (g.string_buffer ++ s)), (g.closed s body.length).yylloc) :: ts, g')
      else .fault := by
  induction h generalizing g with
  | nil =>
    have hmatch : matchRule g.start ([quote] ++ rest) = (.close, [quote].length) := by
      rw [hg]
      rfl
    have hact : action g .close [quote] = g.close := rfl
    rw [List.nil_append, List.append_nil]
    split_ifs with hlen
    · have hclose : action g .close [quote] =
          .done (g.closed [] 0, some (.STRING (cstr g.string_buffer))) := by
        rw [hact, Lexer.close, if_pos (by simpa using hlen)]
        simp [Lexer.closed]
      exact tokens_emit (List.cons_ne_nil _ _) hmatch hclose
    · have hfault : g.close = .fault := by
        rw [Lexer.close, if_neg (by simpa using hlen)]
      have := tokens_match (List.cons_ne_nil _ _) hmatch
      rw [hact, hfault] at this
      exact this
  | @cons c lexeme s body hne hmatch _ ih =>
    have hrule : matchRule g.start (lexeme ++ (body ++ quote :: rest)) =
        (.put c, lexeme.length) := by
      rw [hg]
      exact hmatch rest
    rw [List.append_assoc]
    by_cases hput : g.string_buffer.length < MAX_STRING_LEN
    · have hact : action g (.put c) lexeme = .done ({ g with
          gPos := g.gPos + lexeme.length, string_buffer := g.string_buffer ++ [c] }, none) := by
        simp [action, Lexer.put, hput]
      have hlen : (g.string_buffer ++ [c]).length + s.length =
          g.string_buffer.length + (c :: s).length := by
        rw [List.length_append, List.length_singleton, List.length_cons, Nat.add_assoc,
          Nat.add_comm 1]
      have hclosed : Lexer.closed { g with
            gPos := g.gPos + lexeme.length, string_buffer := g.string_buffer ++ [c] } s body.length =
          g.closed (c :: s) (lexeme ++ body).length := by
        simp [Lexer.closed, Nat.add_assoc]
      rw [tokens_skip hne hrule hact, ih (g := { g with
        gPos := g.gPos + lexeme.length, string_buffer := g.string_buffer ++ [c] }) hg]
      simp only [hlen, hclosed, List.append_assoc, List.singleton_append]
    · have hact : action g (.put c) lexeme = .fault := by
        simp [action, Lexer.put, hput]
      have hfit : ¬ g.string_buffer.length + (c :: s).length < MAX_STRING_LEN := fun h =>
        hput (Nat.lt_of_le_of_lt (Nat.le_add_right _ _) h)
      rw [tokens_match hne hrule, hact, if_neg hfit]
      rfl

/-! ## Scanning spelled tokens -/

/-- No token is spelled with nothing, and none starts like layout. Only `==` starts
with an equals sign. -/
theorem Spelling.head {t : Token} {text : Bytes} (h : Spelling t text) :
    ∃ c, text.head? = some c ∧ isBlank c = false ∧ (c = 61 → t = .EQ) := by
  cases h with
  | @word _ hne hw _ =>
    obtain ⟨c, w, rfl⟩ := List.exists_cons_of_ne_nil hne
    have hc : isWord c := hw c List.mem_cons_self
    refine ⟨c, rfl, ?_, ?_⟩
    · cases hb : isBlank c with
      | false => rfl
      | true =>
        rcases isBlank_iff.mp hb with rfl | rfl
        · exact absurd hc (by decide)
        · exact absurd hc (by decide)
    · rintro rfl
      exact absurd hc (by decide)
  | quoted => exact ⟨quote, rfl, by decide, fun h => absurd h (by decide)⟩
  | keyword hp =>
    simp only [keywords, List.mem_cons, List.not_mem_nil, or_false] at hp
    rcases hp with rfl | rfl | rfl | rfl
    all_goals exact ⟨_, rfl, by decide, by decide⟩
  | operator hp =>
    simp only [operators, List.mem_cons, List.not_mem_nil, or_false] at hp
    rcases hp with rfl | rfl | rfl | rfl | rfl | rfl | rfl | rfl | rfl | rfl
    all_goals exact ⟨_, rfl, by decide, by decide⟩

theorem Layout.head_ne {w : Bytes} (h : Layout w) {c : UInt8} (hc : w.head? = some c) : c ≠ 61 := by
  cases h with
  | nil => cases hc
  | blank hb _ =>
    obtain rfl := Option.some.inj hc
    rintro rfl
    exact absurd hb (by decide)
  | newline _ =>
    obtain rfl := Option.some.inj hc
    decide
  | comment _ _ =>
    obtain rfl := Option.some.inj hc
    decide

theorem Spells.head_EQ {ts : List Token} {s : Bytes} (h : Spells ts s)
    (hs : s.head? = some 61) : ts.head? = some .EQ := by
  cases h with
  | nil hw => exact absurd rfl (hw.head_ne hs)
  | @cons w t text ts rest hw ht _ _ =>
    cases w with
    | cons c w => exact absurd rfl (hw.head_ne hs)
    | nil =>
      obtain ⟨c, hc, _, hEQ⟩ := ht.head
      rw [List.nil_append, List.head?_append, hc, Option.some_or] at hs
      rw [List.head?_cons, hEQ (Option.some.inj hs)]

/-- A spelled token is scanned; `rest` is not the rest of a longer match. -/
theorem tokens_spelling {t : Token} {text : Bytes} (h : Spelling t text) {rest : Bytes}
    (hword : (∀ c ∈ text, isWord c) → ∀ c ∈ rest.head?, isWord c = false)
    (hnot : t = .not → ∀ c ∈ rest.head?, c ≠ 61) {g : Lexer} (hg : g.start = .INITIAL) :
    ∃ g' loc, g'.start = .INITIAL ∧ tokens g (text ++ rest) = (do
      let (ts, g'') ← tokens g' rest
      .done ((t, loc) :: ts, g'')) := by
  have hword_match : ∀ w : Bytes, w ≠ [] → (∀ c ∈ w, isWord c) →
      (∀ c ∈ rest.head?, isWord c = false) →
      matchRule g.start (w ++ rest) = (.word, w.length) := by
    intro w hne hw hrest
    rw [hg]
    exact matchInitial_word hne hw hrest
  cases h with
  | word hne hw hlookup =>
    refine ⟨g.advance text.length, _, hg, tokens_emit hne (hword_match _ hne hw (hword hw)) ?_⟩
    simp [action, hlookup]
  | @keyword p hp =>
    have hkey : p.1 ≠ [] ∧ (∀ c ∈ p.1, isWord c) ∧ keywords.lookup p.1 = some p.2 := by
      simp only [keywords, List.mem_cons, List.not_mem_nil, or_false] at hp
      rcases hp with rfl | rfl | rfl | rfl
      all_goals exact ⟨by decide, List.all_eq_true.mp (by decide), by decide⟩
    refine ⟨g.advance p.1.length, _, hg, tokens_emit hkey.1
      (hword_match _ hkey.1 hkey.2.1 (hword hkey.2.1)) ?_⟩
    simp [action, hkey.2.2]
  | @operator p hp =>
    have hmatch : matchRule g.start (p.1 ++ rest) = (.op p.2, p.1.length) := by
      rw [hg]
      exact matchInitial_operator hp hnot
    exact ⟨g.advance p.1.length, _, hg,
      tokens_emit (List.length_pos_iff.mp (operators_ne_nil hp)) hmatch rfl⟩
  | @quoted s body hbody hzero hlen =>
    let g₁ : Lexer := { g with
      start := .STR, string_buffer := [], gPos := g.gPos + 1
      yylloc := { g.yylloc with start := g.gPos } }
    have hopen : tokens g (quote :: (body ++ quote :: rest)) =
        tokens g₁ (body ++ quote :: rest) := by
      have hmatch : matchRule g.start ([quote] ++ (body ++ quote :: rest)) =
          (.quote, [quote].length) := by
        rw [hg]
        rfl
      exact tokens_skip (List.cons_ne_nil _ _) hmatch rfl
    have hbuffer : g₁.string_buffer = [] := rfl
    have hclose := tokens_quoted hbody.quoted (g := g₁) rfl rest
    rw [hbuffer, List.nil_append, List.length_nil, Nat.zero_add, if_pos hlen,
      cstr_of_zero_notMem hzero] at hclose
    refine ⟨g₁.closed s body.length, (g₁.closed s body.length).yylloc, rfl, ?_⟩
    rw [← hclose, ← hopen]
    simp

/-- What a script spells is what `yylex` returns. The tokens `!` and `==` cannot
follow each other: without layout they are scanned as `!=`. -/
theorem tokens_spells {ts : List Token} {script : Bytes} (h : Spells ts script)
    (hchain : ts.IsChain fun a b => ¬(a = .not ∧ b = .EQ)) {g : Lexer} (hg : g.start = .INITIAL) :
    ∃ tls g', tokens g script = .done (tls, g') ∧ tls.map Prod.fst = ts := by
  induction h generalizing g with
  | nil hw =>
    have hblank : ∀ c ∈ ([] : Bytes).head?, isBlank c = false := by simp
    obtain ⟨g', _, _, heq⟩ := tokens_layout hw hblank hg
    rw [List.append_nil] at heq
    exact ⟨[], g', heq, rfl⟩
  | @cons w t text ts rest hw ht hsep hrest ih =>
    have hblank : ∀ c ∈ (text ++ rest).head?, isBlank c = false := by
      intro c hc
      obtain ⟨c', hc', hb, _⟩ := ht.head
      rw [List.head?_append, hc', Option.some_or] at hc
      rwa [← Option.some.inj hc]
    have hnot : t = .not → ∀ c ∈ rest.head?, c ≠ 61 := by
      rintro rfl c hc rfl
      have hEQ := hrest.head_EQ hc
      cases ts with
      | nil => cases hEQ
      | cons t' ts =>
        rw [List.isChain_cons_cons] at hchain
        exact hchain.1 ⟨rfl, Option.some.inj hEQ⟩
    obtain ⟨g₁, hg₁, _, heq₁⟩ := tokens_layout hw hblank hg
    obtain ⟨g₂, loc, hg₂, heq₂⟩ := tokens_spelling ht hsep hnot hg₁
    obtain ⟨tls, g', htls, hmap⟩ := ih hchain.tail hg₂
    refine ⟨(t, loc) :: tls, g', ?_, by rw [List.map_cons, hmap]⟩
    rw [heq₁, heq₂, htls]
    rfl

/-! ## Where the tokens stand -/

/-- The text is that of one token: scanned by itself it is this token and nothing else. -/
def Lexeme (t : Token) (text : Bytes) : Prop :=
  ∃ g, tokens .fresh text = .done ([(t, ⟨0, text.length⟩)], g)

/-- `Located p s ts`: the tokens stand in this order in the text `s`, which starts at
position `p` of the script, and the range of each is that of its text. -/
inductive Located : Nat → Bytes → List (Token × YYLTYPE) → Prop where
  | nil {p s} : Located p s []
  | cons {p gap text rest t ts} : Lexeme t text →
      Located (p + gap.length + text.length) rest ts →
      Located p (gap ++ (text ++ rest))
        ((t, ⟨p + gap.length, p + gap.length + text.length⟩) :: ts)

theorem Located.skip {p : Nat} {w s : Bytes} {ts : List (Token × YYLTYPE)}
    (h : Located (p + w.length) s ts) : Located p (w ++ s) ts := by
  generalize hq : p + w.length = q at h
  cases h with
  | nil => exact .nil
  | @cons _ gap text rest t ts ht hrest =>
    subst hq
    have hlen : p + w.length + gap.length = p + (w ++ gap).length := by
      rw [List.length_append, Nat.add_assoc]
    rw [hlen] at hrest ⊢
    rw [← List.append_assoc]
    exact .cons ht hrest

/-- The range of each token is that of its text in the script. -/
theorem Located.lexeme {p : Nat} {s : Bytes} {ts : List (Token × YYLTYPE)} (h : Located p s ts)
    {t : Token} {loc : YYLTYPE} (ht : (t, loc) ∈ ts) :
    p ≤ loc.start ∧ loc.start ≤ loc.end_ ∧ loc.end_ ≤ p + s.length ∧
      Lexeme t (slice s (loc.start - p) (loc.end_ - loc.start)) := by
  induction h with
  | nil => cases ht
  | @cons p gap text rest t' ts hlex _ ih =>
    rcases List.mem_cons.mp ht with heq | hmem
    · obtain ⟨rfl, rfl⟩ := Prod.mk.inj heq
      refine ⟨Nat.le_add_right _ _, Nat.le_add_right _ _, by simp; omega, ?_⟩
      rw [slice_of_append rfl (by simp) (by simp)]
      exact hlex
    · obtain ⟨hle, hle', hend, htext⟩ := ih hmem
      refine ⟨by omega, hle', by simp; omega, ?_⟩
      have hslice : slice (gap ++ (text ++ rest)) (loc.start - p) (loc.end_ - loc.start) =
          slice rest (loc.start - (p + gap.length + text.length)) (loc.end_ - loc.start) := by
        have hdrop : loc.start - p =
            (gap ++ text).length + (loc.start - (p + gap.length + text.length)) := by
          rw [List.length_append]
          omega
        rw [← List.append_assoc, slice, slice, hdrop, ← List.drop_drop, List.drop_left]
      rw [hslice]
      exact htext

/-- The rules of `INITIAL` by what they do: a literal starts, a token that the matched
text spells alone, layout, or a byte that nothing starts with. -/
theorem matchInitial_cases (c : UInt8) (s : Bytes) :
    (c = quote ∧ matchInitial (c :: s) = (.quote, 1)) ∨
    (∃ r lexeme rest, c :: s = lexeme ++ rest ∧ lexeme ≠ [] ∧
      matchInitial (c :: s) = (r, lexeme.length) ∧ matchInitial lexeme = (r, lexeme.length) ∧
      ∃ t, ∀ g, action g r lexeme = .done (g.advance lexeme.length, some t)) ∨
    (∃ r w rest, c :: s = w ++ rest ∧ w ≠ [] ∧ matchInitial (c :: s) = (r, w.length) ∧
      ∀ g, ∃ loc, action g r w = .done ({ g with gPos := g.gPos + w.length, yylloc := loc }, none)) ∨
    matchInitial (c :: s) = (.bad, 1) := by
  by_cases hq : c = quote
  · exact .inl ⟨hq, by rw [hq, matchInitial_quote]⟩
  refine .inr ?_
  cases hw : isWord c with
  | true =>
    have htake : (c :: s).takeWhile isWord ≠ [] := by
      rw [List.takeWhile_cons_of_pos hw]
      exact List.cons_ne_nil _ _
    have hall : ∀ b ∈ (c :: s).takeWhile isWord, isWord b := fun b hb => List.mem_takeWhile_imp hb
    have hstop : ∀ b ∈ ([] : Bytes).head?, isWord b = false := by simp
    have halone := matchInitial_word htake hall hstop
    rw [List.append_nil] at halone
    refine .inl ⟨.word, _, _, (List.takeWhile_append_dropWhile (p := isWord)).symm, htake, ?_,
      halone, _, fun g => rfl⟩
    simp only [matchInitial, if_neg hq, hw, if_true]
  | false =>
    cases hb : isBlank c with
    | true =>
      have htake : (c :: s).takeWhile isBlank ≠ [] := by
        rw [List.takeWhile_cons_of_pos hb]
        exact List.cons_ne_nil _ _
      refine .inr (.inl ⟨.blanks, _, _, (List.takeWhile_append_dropWhile (p := isBlank)).symm,
        htake, ?_, fun g => ⟨_, rfl⟩⟩)
      simp only [matchInitial, if_neg hq, hw, hb, if_true, Bool.false_eq_true, if_false]
    | false =>
      by_cases hn : c = newline
      · subst hn
        exact .inr (.inl ⟨.newline, [newline], s, rfl, List.cons_ne_nil _ _, rfl,
          fun g => ⟨g.yylloc, rfl⟩⟩)
      by_cases hh : c = hash ∧ newline ∈ s
      · obtain ⟨rfl, hmem⟩ := hh
        obtain ⟨text, rest, rfl, htext⟩ := List.eq_append_cons_of_mem hmem
        refine .inr (.inl ⟨.newline, hash :: (text ++ [newline]), rest, by simp,
          List.cons_ne_nil _ _, ?_, fun g => ⟨g.yylloc, rfl⟩⟩)
        rw [matchInitial_comment htext]
        simp
      · have hmatch : matchInitial (c :: s) =
            match operators.find? fun p => p.1.isPrefixOf (c :: s) with
            | some p => (.op p.2, p.1.length)
            | none => (.bad, 1) := by
          simp only [matchInitial, if_neg hq, hw, hb, if_neg hn, if_neg hh, Bool.false_eq_true,
            if_false]
        cases hfind : operators.find? fun p => p.1.isPrefixOf (c :: s) with
        | none =>
          rw [hfind] at hmatch
          exact .inr (.inr hmatch)
        | some p =>
          rw [hfind] at hmatch
          have hp := List.mem_of_find?_eq_some hfind
          have hprefix := List.find?_some hfind
          obtain ⟨rest, hrest⟩ := List.isPrefixOf_iff_prefix.mp hprefix
          have hstop : p.2 = .not → ∀ b ∈ ([] : Bytes).head?, b ≠ 61 := by simp
          have halone := matchInitial_operator hp hstop
          rw [List.append_nil] at halone
          exact .inl ⟨.op p.2, p.1, rest, hrest.symm, List.length_pos_iff.mp (operators_ne_nil hp),
            hmatch, halone, p.2, fun g => rfl⟩

/-- The rule at a place inside a string literal does not depend on what follows the literal. -/
theorem matchStr_local {x : Bytes} (rest rest' : Bytes) (hx : x ≠ [])
    (h : (matchStr (x ++ quote :: rest)).2 ≤ x.length) :
    matchStr (x ++ quote :: rest') = matchStr (x ++ quote :: rest) := by
  obtain ⟨c, x, rfl⟩ := List.exists_cons_of_ne_nil hx
  simp only [List.cons_append, matchStr] at h ⊢
  split_ifs with hq hb
  · rfl
  · rw [if_neg hq, if_pos hb] at h
    cases x with
    | nil =>
      -- here the quote behind the backslash would be part of the match
      exact absurd h (Nat.not_succ_le_self 1)
    | cons d x =>
      simp only [List.cons_append, matchEscape]
      cases escapes.lookup d with
      | some e => rfl
      | none =>
        simp only
        split_ifs
        · have hquote : isHex quote = false := by decide
          match x with
          | [] =>
            cases rest <;> cases rest' <;> simp [matchHex, hquote]
          | [a] => simp [matchHex, hquote]
          | a :: b :: x => rfl
        · rfl
  · rfl

/-- Every byte of a literal but the closing quote belongs to a character of the string. -/
theorem matchStr_put {c : UInt8} (hq : c ≠ quote) (s : Bytes) :
    ∃ b k, matchStr (c :: s) = (.put b, k) := by
  simp only [matchStr, if_neg hq]
  split_ifs
  · cases s with
    | nil => exact ⟨_, _, rfl⟩
    | cons d s =>
      simp only [matchEscape]
      cases escapes.lookup d with
      | some e => exact ⟨_, _, rfl⟩
      | none =>
        simp only
        split_ifs
        · match s with
          | [] => exact ⟨_, _, rfl⟩
          | [_] => exact ⟨_, _, rfl⟩
          | a :: b :: _ =>
            simp only [matchHex]
            split_ifs
            · exact ⟨_, _, rfl⟩
            · exact ⟨_, _, rfl⟩
        · exact ⟨_, _, rfl⟩
  · exact ⟨_, _, rfl⟩

/-- Inside a string literal: either it is closed, or no token follows. -/
theorem quoted_or_open (s : Bytes) :
    (∃ str body rest, s = body ++ quote :: rest ∧ Quoted str body) ∨
      ∀ g ts g', g.start = .STR → tokens g s = .done (ts, g') → ts = [] := by
  induction hn : s.length using Nat.strong_induction_on generalizing s with
  | _ n ih =>
    subst hn
    cases s with
    | nil =>
      refine .inr fun g ts g' _ htokens => ?_
      rw [tokens_nil] at htokens
      cases htokens
      rfl
    | cons c s =>
      by_cases hq : c = quote
      · exact .inl ⟨[], [], s, by rw [hq]; rfl, .nil⟩
      obtain ⟨b, k, hput⟩ := matchStr_put hq s
      obtain ⟨hpos, hle⟩ := matchRule_length .STR c s
      simp only [matchRule, hput] at hpos hle
      have hsplit := List.take_append_drop k (c :: s)
      have hlen : ((c :: s).take k).length = k := List.length_take_of_le hle
      have hne : (c :: s).take k ≠ [] := by
        rw [← List.length_pos_iff, hlen]
        exact hpos
      have hlt : ((c :: s).drop k).length < (c :: s).length := by
        rw [List.length_drop]
        exact Nat.sub_lt (Nat.succ_pos _) hpos
      generalize (c :: s).take k = lexeme at *
      generalize (c :: s).drop k = s' at *
      subst hlen
      rcases ih s'.length hlt s' rfl with ⟨str, body, rest, rfl, hstr⟩ | hopen
      · refine .inl ⟨b :: str, lexeme ++ body, rest, by rw [← hsplit, List.append_assoc],
          .cons hne (fun rest' => ?_) hstr⟩
        rw [← hput, ← hsplit, ← List.append_assoc, ← List.append_assoc]
        refine matchStr_local rest rest' (by simp [hne]) ?_
        rw [List.append_assoc, hsplit, hput]
        simp
      · refine .inr fun g ts g' hg htokens => ?_
        have hrule : matchRule g.start (lexeme ++ s') = (.put b, lexeme.length) := by
          rw [hg, hsplit]
          exact hput
        rw [← hsplit, tokens_match hne hrule] at htokens
        obtain ⟨m, hm, htokens⟩ := Outcome.bind_eq_done.mp htokens
        obtain ⟨x, hx, hdone⟩ := Outcome.bind_eq_done.mp htokens
        obtain ⟨g₁, hg₁, hret⟩ := Outcome.bind_eq_done.mp hm
        cases hret
        cases hdone
        have hstart : g₁.start = .STR := by
          unfold Lexer.put at hg₁
          split_ifs at hg₁
          cases hg₁
          exact hg
        exact hopen g₁ _ _ hstart hx

/-- The ranges of the tokens are those of their texts, when every byte can start something. -/
theorem tokens_located {g g' : Lexer} {s : Bytes} {ts : List (Token × YYLTYPE)}
    (hg : g.start = .INITIAL) (h : tokens g s = .done (ts, g')) (hbad : ∀ loc, (.BAD, loc) ∉ ts) :
    Located g.gPos s ts := by
  induction hn : s.length using Nat.strong_induction_on generalizing s g ts with
  | _ n ih =>
    subst hn
    cases s with
    | nil =>
      cases h
      exact .nil
    | cons c s =>
      have hshorter : ∀ x y : Bytes, x ≠ [] → c :: s = x ++ y → y.length < (c :: s).length := by
        intro x y hx hxy
        rw [hxy, List.length_append]
        exact Nat.lt_add_of_pos_left (List.length_pos_iff.mpr hx)
      rcases matchInitial_cases c s with ⟨rfl, hmatch⟩ | ⟨r, lexeme, rest, hsplit, hne, hmatch,
        halone, t, hact⟩ | ⟨r, w, rest, hsplit, hne, hmatch, hact⟩ | hmatch
      · -- a string literal
        let g₁ : Lexer := { g with
          start := .STR, string_buffer := [], gPos := g.gPos + 1
          yylloc := { g.yylloc with start := g.gPos } }
        have hopen : tokens g (quote :: s) = tokens g₁ s := by
          have hrule : matchRule g.start ([quote] ++ s) = (.quote, [quote].length) := by
            rw [hg]
            exact hmatch
          exact tokens_skip (List.cons_ne_nil _ _) hrule rfl
        rw [hopen] at h
        rcases quoted_or_open s with ⟨str, body, rest, rfl, hstr⟩ | hno
        · rw [tokens_quoted hstr (g := g₁) rfl] at h
          have hbuffer : g₁.string_buffer = [] := rfl
          rw [hbuffer, List.nil_append, List.length_nil, Nat.zero_add] at h
          split_ifs at h with hfit
          obtain ⟨x, hx, hdone⟩ := Outcome.bind_eq_done.mp h
          cases hdone
          have hrest := ih rest.length (by simp; omega) (g := g₁.closed str body.length) rfl hx
            (fun loc hloc => hbad loc (List.mem_cons_of_mem _ hloc)) rfl
          have hlex : Lexeme (.STRING (cstr str)) (quote :: (body ++ [quote])) := by
            have hrule : matchRule Lexer.fresh.start ([quote] ++ (body ++ [quote])) =
                (.quote, [quote].length) := matchInitial_quote (body ++ [quote])
            have hstart : tokens .fresh (quote :: (body ++ [quote])) =
                tokens ⟨1, .STR, [], ⟨0, 0⟩⟩ (body ++ [quote]) :=
              tokens_skip (List.cons_ne_nil _ _) hrule rfl
            refine ⟨Lexer.closed ⟨1, .STR, [], ⟨0, 0⟩⟩ str body.length, ?_⟩
            rw [hstart, tokens_quoted hstr (g := ⟨1, .STR, [], ⟨0, 0⟩⟩) rfl [],
              if_pos (by simpa using hfit)]
            simp [Lexer.closed]
            omega
          have htext : quote :: (body ++ quote :: rest) =
              [] ++ ((quote :: (body ++ [quote])) ++ rest) := by simp
          have hpos : (g₁.closed str body.length).gPos =
              g.gPos + ([] : Bytes).length + (quote :: (body ++ [quote])).length := by
            simp [Lexer.closed, g₁]
            omega
          have hloc : (g₁.closed str body.length).yylloc = ⟨g.gPos + ([] : Bytes).length,
              g.gPos + ([] : Bytes).length + (quote :: (body ++ [quote])).length⟩ := by
            rw [← hpos]
            rfl
          rw [hpos] at hrest
          rw [htext, hloc]
          exact .cons hlex hrest
        · rw [hno g₁ ts g' rfl h]
          exact .nil
      · -- a token that its text spells alone
        have hrule : matchRule g.start (lexeme ++ rest) = (r, lexeme.length) := by
          rw [hg, ← hsplit]
          exact hmatch
        rw [hsplit, tokens_emit hne hrule (hact g)] at h
        obtain ⟨x, hx, hdone⟩ := Outcome.bind_eq_done.mp h
        cases hdone
        have hrest := ih rest.length (hshorter _ _ hne hsplit) (g := g.advance lexeme.length) hg hx
          (fun loc hloc => hbad loc (List.mem_cons_of_mem _ hloc)) rfl
        have hlex : Lexeme t lexeme := by
          have hrule : matchRule Lexer.fresh.start (lexeme ++ []) = (r, lexeme.length) := by
            rw [List.append_nil]
            exact halone
          have hemit := tokens_emit hne hrule (hact .fresh)
          rw [List.append_nil] at hemit
          refine ⟨Lexer.fresh.advance lexeme.length, ?_⟩
          rw [hemit]
          simp [Lexer.advance, Lexer.fresh]
        rw [hsplit]
        exact @Located.cons g.gPos [] lexeme rest t x.1 hlex hrest
      · -- layout
        have hrule : matchRule g.start (w ++ rest) = (r, w.length) := by
          rw [hg, ← hsplit]
          exact hmatch
        obtain ⟨loc, hloc⟩ := hact g
        rw [hsplit, tokens_skip hne hrule hloc] at h
        rw [hsplit]
        exact (ih rest.length (hshorter _ _ hne hsplit)
          (g := { g with gPos := g.gPos + w.length, yylloc := loc }) hg h hbad rfl).skip
      · -- a byte that nothing starts with
        have hrule : matchRule g.start ([c] ++ s) = (.bad, [c].length) := by
          rw [hg]
          exact hmatch
        have hemit : tokens g (c :: s) = (do
            let (ts, g'') ← tokens g s
            .done ((.BAD, g.yylloc) :: ts, g'')) :=
          tokens_emit (List.cons_ne_nil _ _) hrule rfl
        rw [hemit] at h
        obtain ⟨x, _, hdone⟩ := Outcome.bind_eq_done.mp h
        cases hdone
        exact absurd List.mem_cons_self (hbad g.yylloc)

/-! ## What the tokens depend on -/

/-- The globals that the tokens depend on are the same: the position and the start
condition, and inside a literal its beginning. -/
structure Lexer.Agree (g g₁ : Lexer) : Prop where
  gPos : g.gPos = g₁.gPos
  start : g.start = g₁.start
  literal : g.start = .STR → g.string_buffer = g₁.string_buffer ∧
    g.yylloc.start = g₁.yylloc.start

theorem matchInitial_ne (s : Bytes) :
    (matchInitial s).1 ≠ .close ∧ ∀ b, (matchInitial s).1 ≠ .put b := by
  unfold matchInitial
  split
  · exact ⟨fun h => (nomatch h), fun b h => nomatch h⟩
  · split_ifs
    case neg =>
      split
      · exact ⟨fun h => (nomatch h), fun b h => nomatch h⟩
      · exact ⟨fun h => (nomatch h), fun b h => nomatch h⟩
    all_goals exact ⟨fun h => (nomatch h), fun b h => nomatch h⟩

/-- One match with scanners that agree. -/
theorem action_congr {g g₁ : Lexer} (h : g.Agree g₁) (c : UInt8) (s yytext : Bytes) {r : Rule}
    (hr : (matchRule g.start (c :: s)).1 = r) :
    (action g r yytext = .fault ∧ action g₁ r yytext = .fault) ∨
      ∃ m m₁ ot, action g r yytext = .done (m, ot) ∧ action g₁ r yytext = .done (m₁, ot) ∧
        m.Agree m₁ ∧ (ot ≠ none → ot ≠ some .BAD → m.yylloc = m₁.yylloc) := by
  obtain ⟨gPos, start, buffer, loc⟩ := g
  obtain ⟨gPos₁, start₁, buffer₁, loc₁⟩ := g₁
  obtain ⟨hpos, hstart, hliteral⟩ := h
  simp only at hpos hstart hliteral
  subst hpos hstart
  cases start with
  | STR =>
    obtain ⟨rfl, hloc⟩ := hliteral rfl
    by_cases hq : c = quote
    · obtain rfl : r = .close := by
        rw [← hr, hq]
        rfl
      simp only [action, Lexer.close]
      split_ifs with hfit
      · refine .inr ⟨_, _, _, rfl, rfl, ⟨rfl, rfl, fun h => nomatch h⟩, fun _ _ => ?_⟩
        rw [hloc]
      · exact .inl ⟨rfl, rfl⟩
    · obtain ⟨b, k, hput⟩ := matchStr_put hq s
      obtain rfl : r = .put b := by
        rw [← hr, matchRule, hput]
      simp only [action, Lexer.put]
      split_ifs with hfit
      · exact .inr ⟨_, _, _, rfl, rfl, ⟨rfl, rfl, fun _ => ⟨rfl, hloc⟩⟩, fun h => absurd rfl h⟩
      · exact .inl ⟨rfl, rfl⟩
  | INITIAL =>
    refine .inr ?_
    cases r with
    | quote => exact ⟨_, _, _, rfl, rfl, ⟨rfl, rfl, fun _ => ⟨rfl, rfl⟩⟩, fun h => absurd rfl h⟩
    | word => exact ⟨_, _, _, rfl, rfl, ⟨rfl, rfl, fun h => nomatch h⟩, fun _ _ => rfl⟩
    | op t => exact ⟨_, _, _, rfl, rfl, ⟨rfl, rfl, fun h => nomatch h⟩, fun _ _ => rfl⟩
    | blanks => exact ⟨_, _, _, rfl, rfl, ⟨rfl, rfl, fun h => nomatch h⟩, fun _ _ => rfl⟩
    | newline => exact ⟨_, _, _, rfl, rfl, ⟨rfl, rfl, fun h => nomatch h⟩, fun h => absurd rfl h⟩
    | bad => exact ⟨_, _, _, rfl, rfl, ⟨rfl, rfl, fun h => nomatch h⟩, fun _ h => absurd rfl h⟩
    | close => exact absurd hr (matchInitial_ne (c :: s)).1
    | put b => exact absurd hr ((matchInitial_ne (c :: s)).2 b)

/-- Scanners that agree return the same tokens, at the same places when every byte can
start something. -/
theorem tokens_congr {g g₁ : Lexer} (h : g.Agree g₁) (s : Bytes) :
    (tokens g s = .fault ∧ tokens g₁ s = .fault) ∨
      ∃ ts ts₁ g' g₁', tokens g s = .done (ts, g') ∧ tokens g₁ s = .done (ts₁, g₁') ∧
        ts.map Prod.fst = ts₁.map Prod.fst ∧ ((∀ loc, (.BAD, loc) ∉ ts) → ts = ts₁) ∧
        g'.Agree g₁' := by
  induction hn : s.length using Nat.strong_induction_on generalizing s g g₁ with
  | _ n ih =>
    subst hn
    cases s with
    | nil => exact .inr ⟨[], [], g, g₁, rfl, rfl, rfl, fun _ => rfl, h⟩
    | cons c s =>
      obtain ⟨hpos, hle⟩ := matchRule_length g.start c s
      obtain ⟨r, k, hrule⟩ : ∃ r k, matchRule g.start (c :: s) = (r, k) := ⟨_, _, rfl⟩
      have haction := action_congr h c s ((c :: s).take k) (congrArg Prod.fst hrule)
      simp only [hrule] at hpos hle haction
      have hsplit := List.take_append_drop k (c :: s)
      have hlen : ((c :: s).take k).length = k := List.length_take_of_le hle
      have hne : (c :: s).take k ≠ [] := by
        rw [← List.length_pos_iff, hlen]
        exact hpos
      have hlt : ((c :: s).drop k).length < (c :: s).length := by
        rw [List.length_drop]
        exact Nat.sub_lt (Nat.succ_pos _) hpos
      generalize (c :: s).take k = lexeme at *
      generalize (c :: s).drop k = s' at *
      subst hlen
      rw [← hsplit] at hrule ⊢
      have hrule₁ : matchRule g₁.start (lexeme ++ s') = (r, lexeme.length) := by
        rw [← h.start]
        exact hrule
      rw [tokens_match hne hrule, tokens_match hne hrule₁]
      rcases haction with ⟨hfault, hfault₁⟩ | ⟨m, m₁, ot, hact, hact₁, hagree, hloc⟩
      · rw [hfault, hfault₁]
        exact .inl ⟨rfl, rfl⟩
      rw [hact, hact₁, Outcome.done_bind, Outcome.done_bind]
      rcases ih s'.length hlt hagree s' rfl with ⟨hfault, hfault₁⟩ |
        ⟨ts, ts₁, g', g₁', hts, hts₁, hmap, heq, hagree'⟩
      · rw [hfault, hfault₁]
        exact .inl ⟨rfl, rfl⟩
      rw [hts, hts₁]
      refine .inr ⟨_, _, g', g₁', rfl, rfl, ?_, fun hbad => ?_, hagree'⟩
      · cases ot with
        | none => exact hmap
        | some t => exact congrArg (t :: ·) hmap
      · cases ot with
        | none => exact heq hbad
        | some t =>
          have hrest := heq fun loc hmem => hbad loc (List.mem_cons_of_mem _ hmem)
          have ht : some t ≠ some .BAD := by
            rintro ⟨⟩
            exact hbad m.yylloc List.mem_cons_self
          simp only [consToken]
          rw [hrest, hloc (by simp) ht]

theorem tokens_ne_spin (g : Lexer) (s : Bytes) : tokens g s ≠ .spin := by
  have hself : g.Agree g := ⟨rfl, rfl, fun _ => ⟨rfl, rfl⟩⟩
  rcases tokens_congr hself s with ⟨h, _⟩ | ⟨_, _, _, _, h, _⟩
  · rw [h]
    exact fun h => nomatch h
  · rw [h]
    exact fun h => nomatch h

end BootableRecovery.Edify
