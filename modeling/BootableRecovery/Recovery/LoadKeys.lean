import BootableRecovery.Lib.Scanf

/-!
# `install.c`: the public keys

`load_keys` reads the keys that an update may be signed with. The file is the text of one or
more C initialisers that are separated by commas, each with an optional marker `v2`.

The parser does not look at the result of every `fscanf`, and a literal character behind the
last conversion of a format is not counted in it. So three parts of the text may be wrong: any
character can stand for the brace that opens a key, the brace behind `v2` can be missing, and so
can the closing ones.

Main results:
* `load_keys_sound`, `load_keys_complete`: the files that are accepted, and the keys.
* `load_keys_iff`: the parser accepts exactly the documented files, unless the file is one that
  only these slips make acceptable.
* `load_keys_open`: a file with a wrong first character gives a key without an exponent.
-/

namespace BootableRecovery.Recovery

open Scanf

/-- `RSAPublicKey`. The exponent is `none` while the field was never assigned. -/
structure RSAPublicKey where
  len : Int
  n0inv : Int
  n : List Int
  rr : List Int
  exponent : Option Int
  deriving DecidableEq, Repr

/-! ## The code -/

/-- The loop that reads `i` more words of a list. -/
def readWords : Nat → Bytes → Option (List Int × Bytes)
  | 0, s => some ([], s)
  | i + 1, s =>
    match fscanf (format " , %u") s with
    | ([word], s) => (readWords i s).map fun ws => (word :: ws.1, ws.2)
    | _ => none

/-- The start of a key. It tells the exponent. -/
def readExponent (s : Bytes) : Option (Option Int × Bytes) :=
  match fscanf (format " %c") s with
  | ([start_char], s) =>
    if start_char = 123 then some (some 3, s)
    else if start_char = 118 then
      match fscanf (format "%d \x7b") s with
      | ([version], s) => if version = 2 then some (some 65537, s) else none
      | _ => none
    else some (none, s)
  | _ => none

/-- The list `rr` of a key and its end. The result of the last call is not looked at. -/
def readMontgomery (len : Int) (s : Bytes) : Option (List Int × Bytes) :=
  match fscanf (format " \x7d , \x7b %u") s with
  | ([rr0], s) =>
    (readWords (len - 1).toNat s).map fun rr =>
      (rr0 :: rr.1, (fscanf (format " \x7d \x7d ") rr.2).2)
  | _ => none

/-- One key, for a library that has keys of `RSANUMWORDS` words. -/
def readKey (RSANUMWORDS : Nat) (s : Bytes) : Option (RSAPublicKey × Bytes) :=
  match readExponent s with
  | none => none
  | some (exponent, s) =>
    match fscanf (format " %i , 0x%x , \x7b %u") s with
    | ([len, n0inv, n0], s) =>
      if len ≠ RSANUMWORDS then none
      else
        match readWords (len - 1).toNat s with
        | none => none
        | some (n, s) =>
          (readMontgomery len s).map fun rr => (⟨len, n0inv, n0 :: n, rr.1, exponent⟩, rr.2)
    | _ => none

/-- The loop of `load_keys`, with the keys that were read before. -/
def readKeys (RSANUMWORDS : Nat) : Nat → List RSAPublicKey → Bytes →
    Outcome (Option (List RSAPublicKey) × Nat)
  | 0, _, _ => .spin
  | fuel + 1, keys, s =>
    match readKey RSANUMWORDS s with
    | none => .done (none, 0)
    | some (key, s) =>
      match s with
      | [] => .done (some (keys ++ [key]), keys.length + 1)
      | c :: s => if c = 44 then readKeys RSANUMWORDS fuel (keys ++ [key]) s else .done (none, 0)

/-- `load_keys`: the keys or `NULL`, and `*numKeys`. There is no file when it cannot be opened. -/
def load_keys (RSANUMWORDS : Nat) : Option Bytes → Outcome (Option (List RSAPublicKey) × Nat)
  | none => .done (none, 0)
  | some s => readKeys RSANUMWORDS (s.length + 1) [] s

/-! ## The grammar -/

/-- The words of a list behind the first one. -/
def wordsFormat (i : Nat) : List Directive := (List.replicate i (format " , %u")).flatten

/-- A key between its first and its last braces. -/
def bodyFormat (RSANUMWORDS : Nat) : List Directive :=
  format " %i , 0x%x , \x7b %u" ++ (wordsFormat (RSANUMWORDS - 1) ++
    (format " \x7d , \x7b %u" ++ wordsFormat (RSANUMWORDS - 1)))

/-- What stands before the text `b` of a key, and the exponent. The documented forms are the
first two. -/
inductive Opening (slips : Bool) : Option Int → Bytes → Bytes → Prop
  | version1 {o b : Bytes} (h : Text (format " \x7b") [] o) : Opening slips (some 3) o b
  | version2 {o b : Bytes} (h : Text (format " v%d \x7b") [2] o) : Opening slips (some 65537) o b
  | unopened {o w b : Bytes} (hslips : slips = true) (h : Text (format " v%d") [2] o)
      (hw : Spaces w) (hdark : Dark b) (hstop : Stops (w ++ b)) :
      Opening slips (some 65537) (o ++ w) b
  | other {w b : Bytes} {c : UInt8} (hslips : slips = true) (hw : Spaces w)
      (hspace : isSpace c = false) (hbrace : c ≠ 123) (hmark : c ≠ 118) :
      Opening slips none (w ++ [c]) b

/-- What stands behind the text of a key. Both braces are documented. -/
inductive Closing (slips : Bool) : Bytes → Prop
  | closed {t : Bytes} (h : Text (format " \x7d \x7d ") [] t) : Closing slips t
  | single {t : Bytes} (hslips : slips = true) (h : Text (format " \x7d ") [] t) : Closing slips t
  | missing {t : Bytes} (hslips : slips = true) (h : Text (format " ") [] t) : Closing slips t

inductive KeyText (RSANUMWORDS : Nat) (slips : Bool) : RSAPublicKey → Bytes → Prop
  | key {exponent : Option Int} {n0inv : Int} {n rr : List Int} {o b c : Bytes}
      (hopen : Opening slips exponent o b)
      (hbody : Text (bodyFormat RSANUMWORDS) (RSANUMWORDS :: n0inv :: (n ++ rr)) b)
      (hn : n.length = RSANUMWORDS) (hrr : rr.length = RSANUMWORDS) (hclose : Closing slips c) :
      KeyText RSANUMWORDS slips ⟨RSANUMWORDS, n0inv, n, rr, exponent⟩ (o ++ (b ++ c))

/-- The text of a file with one or more keys: the documented one, or the one with slips. -/
inductive FileText (RSANUMWORDS : Nat) (slips : Bool) : List RSAPublicKey → Bytes → Prop
  | last {k : RSAPublicKey} {t : Bytes} (h : KeyText RSANUMWORDS slips k t) :
      FileText RSANUMWORDS slips [k] t
  | more {k : RSAPublicKey} {ks : List RSAPublicKey} {t f : Bytes}
      (h : KeyText RSANUMWORDS slips k t) (hs : FileText RSANUMWORDS slips ks f) :
      FileText RSANUMWORDS slips (k :: ks) (t ++ 44 :: f)

theorem Opening.slips {slips : Bool} {e : Option Int} {o b : Bytes} (h : Opening slips e o b) :
    Opening true e o b := by
  cases h with
  | version1 h => exact .version1 h
  | version2 h => exact .version2 h
  | unopened _ h hw hdark hstop => exact .unopened rfl h hw hdark hstop
  | other _ hw hspace hbrace hmark => exact .other rfl hw hspace hbrace hmark

theorem Closing.slips {slips : Bool} {c : Bytes} (h : Closing slips c) : Closing true c := by
  cases h with
  | closed h => exact .closed h
  | single _ h => exact .single rfl h
  | missing _ h => exact .missing rfl h

variable {RSANUMWORDS : Nat}

theorem KeyText.slips {slips : Bool} {k : RSAPublicKey} {t : Bytes}
    (h : KeyText RSANUMWORDS slips k t) : KeyText RSANUMWORDS true k t := by
  cases h with
  | key hopen hbody hn hrr hclose => exact .key hopen.slips hbody hn hrr hclose.slips

/-- The grammar with the slips contains the documented one. -/
theorem FileText.slips {slips : Bool} {ks : List RSAPublicKey} {f : Bytes}
    (h : FileText RSANUMWORDS slips ks f) : FileText RSANUMWORDS true ks f := by
  induction h with
  | last h => exact .last h.slips
  | more h _ ih => exact .more h.slips ih

/-! ## The formats -/

theorem format_char : format " %c" = [.space, .char] := rfl

theorem format_version : format "%d \x7b" = [.number true 10, .space, .lit 123] := rfl

theorem format_marked : format " v%d \x7b" = .space :: .lit 118 :: format "%d \x7b" := rfl

theorem format_unopened : format " v%d" = [.space, .lit 118, .number true 10] := rfl

theorem format_word : format " , %u" = [.space, .lit 44, .space, .number false 10] := rfl

theorem format_close : format " \x7d \x7d " =
    [.space, .lit 125, .space, .lit 125, .space] := rfl

theorem wordsFormat_succ (i : Nat) : wordsFormat (i + 1) = format " , %u" ++ wordsFormat i := by
  unfold wordsFormat
  rw [List.replicate_succ, List.flatten_cons]

theorem countP_wordsFormat (i : Nat) : (wordsFormat i).countP Directive.isConversion = i := by
  induction i with
  | zero => rfl
  | succ i ih =>
    rw [wordsFormat_succ, List.countP_append, ih, format_word, Nat.add_comm]
    rfl

/-- A list of words ends a number in front of it, if what follows the list does. -/
theorem opensStop_wordsFormat {i : Nat} {ds : List Directive} {r : Bytes}
    (h : OpensStop ds r) : OpensStop (wordsFormat i ++ ds) r := by
  cases i with
  | zero => exact h
  | succ i =>
    have hcomma : digitValue 44 = 36 := by decide
    rw [wordsFormat_succ, format_word]
    exact hcomma

/-! ## The words of a list -/

theorem readWords_sound {i : Nat} {s r : Bytes} {ws : List Int}
    (h : readWords i s = some (ws, r)) : ∃ t, s = t ++ r ∧ Text (wordsFormat i) ws t := by
  induction i generalizing s ws with
  | zero =>
    obtain ⟨rfl, rfl⟩ := Prod.mk.inj (Option.some.inj h)
    exact ⟨[], rfl, .nil⟩
  | succ i ih =>
    unfold readWords at h
    split at h
    · rename_i word s₁ hread
      obtain ⟨⟨ws', r'⟩, hrest, heq⟩ := Option.map_eq_some_iff.mp h
      obtain ⟨rfl, rfl⟩ := Prod.mk.inj heq
      obtain ⟨t, rfl, ht⟩ := fscanf_all hread rfl ⟨_, rfl, rfl⟩
      obtain ⟨t', rfl, ht'⟩ := ih hrest
      refine ⟨t ++ t', (List.append_assoc ..).symm, ?_⟩
      rw [wordsFormat_succ]
      exact ht.append ht'
    · cases h

theorem readWords_complete {i : Nat} {t r : Bytes} {ws : List Int} (h : Text (wordsFormat i) ws t)
    (hr : Stops r) : readWords i (t ++ r) = some (ws, r) := by
  induction i generalizing ws t with
  | zero =>
    cases h
    rfl
  | succ i ih =>
    rw [wordsFormat_succ] at h
    obtain ⟨vs, ws, t, t', rfl, rfl, ht, ht'⟩ := h.split
    obtain ⟨word, rfl⟩ := List.length_eq_one_iff.mp ht.length
    have hstops : Stops (t' ++ r) := by
      have hopens : OpensStop (wordsFormat i ++ []) r := opensStop_wordsFormat hr
      rw [List.append_nil] at hopens
      exact ht'.stops hopens
    have hread : fscanf (format " , %u") (t ++ (t' ++ r)) = ([word], t' ++ r) :=
      fscanf_complete ht ⟨rfl, trivial, by omega, hstops, trivial⟩
    rw [List.append_assoc]
    unfold readWords
    rw [hread]
    exact congrArg (Option.map _) (ih ht')

/-! ## The start of a key -/

theorem start_char_complete {w : Bytes} {c : UInt8} (hw : Spaces w) (hc : isSpace c = false)
    (r : Bytes) : fscanf (format " %c") (w ++ c :: r) = ([(c.toNat : Int)], r) := by
  rw [format_char]
  unfold fscanf
  rw [dropWhile_spaces hw, List.dropWhile_cons_of_neg (by simp [hc])]
  rfl

theorem start_char_sound {s r : Bytes} {v : Int} (h : fscanf (format " %c") s = ([v], r)) :
    ∃ w c, s = w ++ c :: r ∧ Spaces w ∧ isSpace c = false ∧ v = c.toNat := by
  have hsplit : s.takeWhile isSpace ++ s.dropWhile isSpace = s := List.takeWhile_append_dropWhile
  have hdark := List.head?_dropWhile_not isSpace s
  rw [format_char] at h
  unfold fscanf at h
  cases hdrop : s.dropWhile isSpace with
  | nil =>
    rw [hdrop] at h
    exact absurd (Prod.mk.inj h).1 (List.cons_ne_nil _ _).symm
  | cons c t =>
    rw [hdrop] at h hdark hsplit
    obtain ⟨hv, rfl⟩ := Prod.mk.inj h
    exact ⟨_, c, hsplit.symm, spaces_takeWhile s, by simpa using hdark,
      (List.cons.inj hv).1.symm⟩

/-- The text of a key begins with white space or a number. -/
theorem body_head {vs : List Int} {b : Bytes} (h : Text (bodyFormat RSANUMWORDS) vs b) :
    ∃ c t, b = c :: t ∧
      (isSpace c = true ∨ c = 43 ∨ c = 45 ∨ isDigitIn 10 c = true) := by
  have hformat : ∃ ds, bodyFormat RSANUMWORDS = .space :: .number true 0 :: ds := ⟨_, rfl⟩
  obtain ⟨ds, hds⟩ := hformat
  rw [hds] at h
  cases h with
  | @space _ _ w t hw h =>
    cases w with
    | cons c w => exact ⟨c, w ++ t, rfl, .inl (hw c (List.mem_cons_self ..))⟩
    | nil =>
      cases h with
      | @number _ _ _ _ v w n t hw hn h =>
        cases w with
        | cons c w => exact ⟨c, w ++ (n ++ t), rfl, .inl (hw c (List.mem_cons_self ..))⟩
        | nil =>
          obtain ⟨c, n, rfl, hc⟩ := hn.head
          exact ⟨c, n ++ t, rfl, .inr hc⟩

/-- Both formats of a marked key begin with the same directives as `" %c"` and `"%d"`. -/
theorem text_marker {ds : List Directive} {vs : List Int} {o : Bytes}
    (h : Text (.space :: .lit 118 :: ds) vs o) :
    ∃ w t, o = w ++ 118 :: t ∧ Spaces w ∧ Text ds vs t := by
  cases h with
  | @space _ _ w _ hw h =>
    cases h with
    | @lit _ _ _ t h => exact ⟨w, t, rfl, hw, h⟩

theorem readExponent_complete {e : Option Int} {o b : Bytes} (h : Opening true e o b)
    {vs : List Int} (hbody : Text (bodyFormat RSANUMWORDS) vs b) (r : Bytes) :
    readExponent (o ++ (b ++ r)) = some (e, b ++ r) := by
  obtain ⟨d, b, rfl, hd⟩ := body_head hbody
  have hbrace : d ≠ 123 := by
    rintro rfl
    exact absurd hd (by decide)
  cases h with
  | version1 h =>
    cases h with
    | @space _ _ w _ hw h =>
      cases h with
      | lit h =>
        cases h
        unfold readExponent
        rw [List.append_assoc, List.cons_append, start_char_complete hw (by decide)]
        rfl
  | version2 h =>
    rw [format_marked] at h
    obtain ⟨w, t, rfl, hw, ht⟩ := text_marker h
    have hstop : OpensStop [.space, .lit 123] (d :: b ++ r) := rfl
    have hversion : fscanf (format "%d \x7b") (t ++ (d :: b ++ r)) = ([2], d :: b ++ r) :=
      fscanf_complete ht ⟨by omega, hstop, rfl, trivial⟩
    unfold readExponent
    rw [List.append_assoc, List.cons_append, start_char_complete hw (by decide)]
    simp only [hversion]
    rfl
  | @unopened o w _ _ h hw hdark hstop =>
    rw [format_unopened] at h
    obtain ⟨w₀, t, rfl, hw₀, ht⟩ := text_marker h
    have hstops : Stops (w ++ (d :: b ++ r)) := by
      intro c hc
      refine hstop c ?_
      cases w with
      | nil => exact hc
      | cons a w => exact hc
    have hversion : fscanf (format "%d \x7b") (t ++ (w ++ (d :: b ++ r))) = ([2], d :: b ++ r) := by
      have hdrop : (d :: b ++ r).dropWhile isSpace = d :: b ++ r :=
        List.dropWhile_cons_of_neg (by simp [hdark d rfl])
      have hrest : fscanf [.space, .lit 123] (w ++ (d :: b ++ r)) = ([], d :: b ++ r) := by
        unfold fscanf
        rw [dropWhile_spaces hw, hdrop]
        exact if_neg hbrace
      have hformat : format "%d \x7b" = [.number true 10] ++ [.space, .lit 123] := rfl
      rw [hformat, fscanf_append ht ⟨by omega, hstops, trivial⟩, hrest]
      rfl
    unfold readExponent
    rw [List.append_assoc, List.append_assoc, List.cons_append,
      start_char_complete hw₀ (by decide)]
    simp only [hversion]
    rfl
  | @other w _ c _ hw hspace hopen hmark =>
    have hne : ∀ k : UInt8, c ≠ k → (c.toNat : Int) ≠ k.toNat := fun k hk h =>
      hk (UInt8.toNat_inj.mp (Int.ofNat.inj h))
    unfold readExponent
    rw [List.append_assoc, List.singleton_append, start_char_complete hw hspace]
    exact (if_neg (hne 123 hopen)).trans (if_neg (hne 118 hmark))

/-- A literal character is passed or left. -/
theorem lit_sound {c : UInt8} {s r : Bytes} (h : (fscanf [.lit c] s).2 = r) :
    s = c :: r ∨ s = r := by
  cases s with
  | nil => exact .inr h
  | cons b s =>
    by_cases hb : b = c
    · subst hb
      exact .inl (congrArg (b :: ·) ((congrArg Prod.snd (if_pos rfl)).symm.trans h))
    · exact .inr ((congrArg Prod.snd (if_neg hb)).symm.trans h)

/-- What `"%d \x7b"` reads when its only conversion succeeds: the brace may be missing. -/
theorem version_sound {s r : Bytes} {version : Int}
    (h : fscanf (format "%d \x7b") s = ([version], r)) :
    ∃ t, Text [.number true 10] [version] t ∧
      ((∃ w, s = t ++ (w ++ 123 :: r) ∧ Spaces w) ∨
        ∃ w, s = t ++ (w ++ r) ∧ Spaces w ∧ Dark r ∧
          ∀ c ∈ (w ++ r).head?, isDigitIn 10 c = false) := by
  rw [format_version] at h
  cases hnum : scanNumber 10 s with
  | mk v s₂ =>
    cases v with
    | none =>
      simp only [fscanf, hnum] at h
      exact absurd (Prod.mk.inj h).1 (List.cons_ne_nil _ _).symm
    | some v =>
      obtain ⟨w₁, n, rfl, hw₁, hn, hend⟩ := scanNumber_sound hnum
      have hsplit : s₂.takeWhile isSpace ++ s₂.dropWhile isSpace = s₂ :=
        List.takeWhile_append_dropWhile
      have hdark : Dark (s₂.dropWhile isSpace) := by
        intro c hc
        have hhead := List.head?_dropWhile_not isSpace s₂
        rw [hc] at hhead
        simpa using hhead
      rw [fscanf_number true hnum, fscanf_space] at h
      obtain ⟨hval, hrest⟩ := Prod.mk.inj h
      have hversion : store true v = version := (List.cons.inj hval).1
      refine ⟨w₁ ++ (n ++ []), hversion ▸ .number hw₁ hn .nil, ?_⟩
      simp only [List.append_nil, List.append_assoc]
      rcases lit_sound hrest with hbrace | hr
      · exact .inl ⟨_, by rw [← hbrace, hsplit], spaces_takeWhile s₂⟩
      · subst hr
        refine .inr ⟨_, by rw [hsplit], spaces_takeWhile s₂, hdark, ?_⟩
        rw [hsplit]
        exact hend

theorem readExponent_sound {s r : Bytes} {e : Option Int} (h : readExponent s = some (e, r)) :
    ∃ o, s = o ++ r ∧ ∀ words vs b r', Text (bodyFormat words) vs b → r = b ++ r' →
      Opening true e o b := by
  unfold readExponent at h
  split at h
  · rename_i start_char s₁ hread
    obtain ⟨w, c, rfl, hw, hspace, rfl⟩ := start_char_sound hread
    have hchar : ∀ k : UInt8, (c.toNat : Int) = k.toNat → c = k := fun k hk =>
      UInt8.toNat_inj.mp (Int.ofNat.inj hk)
    split at h
    · rename_i hbrace
      obtain ⟨rfl, rfl⟩ := Prod.mk.inj (Option.some.inj h)
      obtain rfl : c = 123 := hchar 123 hbrace
      exact ⟨w ++ [123], by simp, fun _ vs b r' _ _ => .version1 (.space hw (.lit .nil))⟩
    · rename_i hbrace
      split at h
      · rename_i hmark
        obtain rfl : c = 118 := hchar 118 hmark
        split at h
        · rename_i version s₂ hversion
          split at h
          · rename_i htwo
            obtain ⟨rfl, rfl⟩ := Prod.mk.inj (Option.some.inj h)
            subst htwo
            obtain ⟨t, ht, ⟨w', rfl, hw'⟩ | ⟨w', rfl, hw', hdark, hend⟩⟩ := version_sound hversion
            · refine ⟨w ++ 118 :: (t ++ (w' ++ [123])), by simp, fun _ vs b r' _ _ => .version2 ?_⟩
              rw [format_marked, format_version]
              exact .space hw (.lit (ht.append (.space hw' (.lit .nil))))
            · refine ⟨(w ++ 118 :: t) ++ w', by simp, fun _ vs b r' hbody hb => ?_⟩
              obtain ⟨d, b, rfl, hd⟩ := body_head hbody
              subst hb
              refine .unopened rfl (format_unopened ▸ .space hw (.lit ht)) hw'
                (fun c hc => hdark c hc) ?_
              cases w' with
              | cons a w' => exact stops_of_isSpace (hw' a (List.mem_cons_self ..)) _
              | nil =>
                have hdigit : isDigitIn 10 d = false := hend d rfl
                have hspace' : isSpace d = false := hdark d rfl
                rintro c hc
                cases hc
                rcases hd with hd | rfl | rfl | hd
                · rw [hspace'] at hd
                  cases hd
                · decide
                · decide
                · rw [hdigit] at hd
                  cases hd
          · cases h
        · cases h
      · rename_i hmark
        obtain ⟨rfl, rfl⟩ := Prod.mk.inj (Option.some.inj h)
        refine ⟨w ++ [c], by simp, fun _ vs b r' _ _ => .other rfl hw hspace ?_ ?_⟩
        · rintro rfl
          exact hbrace rfl
        · rintro rfl
          exact hmark rfl
  · cases h

/-! ## The end of a key -/

/-- The end of a file, or the comma that announces one more key. -/
def KeyEnd (r : Bytes) : Prop := r = [] ∨ ∃ f, r = 44 :: f

theorem KeyEnd.dark {r : Bytes} (h : KeyEnd r) : Dark r := by
  rcases h with rfl | ⟨f, rfl⟩
  · exact fun c hc => absurd hc (by simp)
  · intro c hc
    cases hc
    decide

theorem KeyEnd.stops {r : Bytes} (h : KeyEnd r) : Stops r := by
  rcases h with rfl | ⟨f, rfl⟩
  · exact fun c hc => absurd hc (by simp)
  · intro c hc
    cases hc
    decide

theorem KeyEnd.brace {r : Bytes} (h : KeyEnd r) (ds : List Directive) :
    fscanf (.lit 125 :: ds) r = ([], r) := by
  rcases h with rfl | ⟨f, rfl⟩
  · rfl
  · rfl

theorem closing_sound (s : Bytes) :
    ∃ c, s = c ++ (fscanf (format " \x7d \x7d ") s).2 ∧ Closing true c := by
  obtain ⟨pre, suf, t, s', hds, hs, htext, hstuck⟩ := fscanf_sound (format " \x7d \x7d ") s
  have hnil : (fscanf (format " \x7d \x7d ") s).1 = [] := by
    have hcount : (pre ++ suf).countP Directive.isConversion = 0 := by
      rw [← hds]
      rfl
    rw [List.countP_append] at hcount
    exact List.eq_nil_of_length_eq_zero (by rw [htext.length]; omega)
  rw [hnil] at htext
  refine ⟨t, ?_⟩
  rw [format_close] at hds
  -- reading never ends before white space
  simp only [List.cons_eq_append_iff, List.nil_eq_append_iff] at hds
  rcases hds with ⟨rfl, rfl⟩ | ⟨pre, rfl, ⟨rfl, rfl⟩ | ⟨pre, rfl, ⟨rfl, rfl⟩ | ⟨pre, rfl,
    ⟨rfl, rfl⟩ | ⟨pre, rfl, ⟨rfl, rfl⟩ | ⟨pre, rfl, rfl, rfl⟩⟩⟩⟩⟩
  · cases hstuck
  · cases hstuck
    exact ⟨hs, .missing rfl htext⟩
  · cases hstuck
  · cases hstuck
    exact ⟨hs, .single rfl htext⟩
  · cases hstuck
  · cases hstuck
    exact ⟨hs, .closed htext⟩

theorem Closing.read {slips : Bool} {c r : Bytes} (h : Closing slips c) (hr : KeyEnd r) :
    (fscanf (format " \x7d \x7d ") (c ++ r)).2 = r := by
  cases h with
  | closed h =>
    rw [fscanf_complete h ⟨rfl, rfl, hr.dark, trivial⟩]
  | single _ h =>
    have hformat : format " \x7d \x7d " = format " \x7d " ++ [.lit 125, .space] := rfl
    rw [hformat, fscanf_append h ⟨rfl, hr.dark, trivial⟩, hr.brace]
  | missing _ h =>
    have hformat : format " \x7d \x7d " = format " " ++ [.lit 125, .space, .lit 125, .space] := rfl
    rw [hformat, fscanf_append h ⟨hr.dark, trivial⟩, hr.brace]

theorem Closing.stops {slips : Bool} {c r : Bytes} (h : Closing slips c) (hr : KeyEnd r) :
    Stops (c ++ r) := by
  have hbrace : digitValue 125 = 36 := by decide
  cases h with
  | closed h => exact h.stops hbrace
  | single _ h => exact h.stops hbrace
  | missing _ h => exact h.stops hr.stops

theorem readMontgomery_sound {len : Int} {s r : Bytes} {rr : List Int}
    (h : readMontgomery len s = some (rr, r)) :
    ∃ t c, s = t ++ (c ++ r) ∧
      Text (format " \x7d , \x7b %u" ++ wordsFormat (len - 1).toNat) rr t ∧ Closing true c := by
  unfold readMontgomery at h
  split at h
  · rename_i rr0 s₁ hread
    obtain ⟨⟨ws, s₂⟩, hwords, heq⟩ := Option.map_eq_some_iff.mp h
    obtain ⟨rfl, rfl⟩ := Prod.mk.inj heq
    obtain ⟨t, rfl, ht⟩ := fscanf_all hread rfl ⟨_, rfl, rfl⟩
    obtain ⟨t', rfl, ht'⟩ := readWords_sound hwords
    obtain ⟨c, hc, hclose⟩ := closing_sound s₂
    refine ⟨t ++ t', c, ?_, ht.append ht', hclose⟩
    rw [← hc, List.append_assoc]
  · cases h

theorem readMontgomery_complete {len : Int} {slips : Bool} {rr : List Int} {t c r : Bytes}
    (h : Text (format " \x7d , \x7b %u" ++ wordsFormat (len - 1).toNat) rr t)
    (hclose : Closing slips c) (hr : KeyEnd r) :
    readMontgomery len (t ++ (c ++ r)) = some (rr, r) := by
  obtain ⟨vs, ws, t, t', rfl, rfl, ht, ht'⟩ := h.split
  obtain ⟨rr0, rfl⟩ := List.length_eq_one_iff.mp ht.length
  have hstops : Stops (t' ++ (c ++ r)) := by
    have hopens : OpensStop (wordsFormat (len - 1).toNat ++ []) (c ++ r) :=
      opensStop_wordsFormat (hclose.stops hr)
    rw [List.append_nil] at hopens
    exact ht'.stops hopens
  have hread : fscanf (format " \x7d , \x7b %u") (t ++ (t' ++ (c ++ r))) =
      ([rr0], t' ++ (c ++ r)) :=
    fscanf_complete ht ⟨rfl, rfl, rfl, trivial, by omega, hstops, trivial⟩
  rw [List.append_assoc]
  unfold readMontgomery
  rw [hread]
  simp only [readWords_complete ht' (hclose.stops hr), Option.map_some, hclose.read hr]
  rfl

/-! ## Keys -/

theorem toNat_pred (n : Nat) : ((n : Int) - 1).toNat = n - 1 := by
  omega

theorem readKey_sound (hwords : 0 < RSANUMWORDS) {s r : Bytes} {k : RSAPublicKey}
    (h : readKey RSANUMWORDS s = some (k, r)) :
    ∃ t, s = t ++ r ∧ KeyText RSANUMWORDS true k t := by
  unfold readKey at h
  split at h
  · cases h
  · rename_i e s₁ hexp
    obtain ⟨o, rfl, hopen⟩ := readExponent_sound hexp
    split at h
    · rename_i len n0inv n0 s₂ hread
      obtain ⟨t₁, rfl, ht₁⟩ := fscanf_all hread rfl ⟨_, rfl, rfl⟩
      split at h
      · cases h
      · rename_i hlen
        obtain rfl : len = RSANUMWORDS := not_not.mp hlen
        rw [toNat_pred] at h
        split at h
        · cases h
        · rename_i n s₃ hn
          obtain ⟨t₂, rfl, ht₂⟩ := readWords_sound hn
          obtain ⟨⟨rr, r'⟩, hrr, heq⟩ := Option.map_eq_some_iff.mp h
          obtain ⟨rfl, rfl⟩ := Prod.mk.inj heq
          obtain ⟨t₃, c, rfl, ht₃, hclose⟩ := readMontgomery_sound hrr
          rw [toNat_pred] at ht₃
          have hbody : Text (bodyFormat RSANUMWORDS)
              (RSANUMWORDS :: n0inv :: (n0 :: n ++ rr)) (t₁ ++ (t₂ ++ t₃)) :=
            ht₁.append (ht₂.append ht₃)
          have hnlen : (n0 :: n).length = RSANUMWORDS := by
            rw [List.length_cons, ht₂.length, countP_wordsFormat]
            omega
          have hrrlen : rr.length = RSANUMWORDS := by
            have hone : (format " \x7d , \x7b %u").countP Directive.isConversion = 1 := rfl
            rw [ht₃.length, List.countP_append, countP_wordsFormat, hone]
            omega
          refine ⟨o ++ ((t₁ ++ (t₂ ++ t₃)) ++ c), by simp, .key ?_ hbody hnlen hrrlen hclose⟩
          exact hopen _ _ _ (c ++ r') hbody (by simp)
    · cases h

theorem readKey_complete {slips : Bool} {t r : Bytes} {k : RSAPublicKey}
    (h : KeyText RSANUMWORDS slips k t) (hr : KeyEnd r) :
    readKey RSANUMWORDS (t ++ r) = some (k, r) := by
  cases h with
  | @key e n0inv n rr o b c hopen hbody hn hrr hclose =>
    have hexp := readExponent_complete hopen.slips hbody (c ++ r)
    obtain ⟨vs₁, vs, t₁, t, hvs, rfl, ht₁, ht⟩ := hbody.split
    obtain ⟨vs₂, vs₃, t₂, t₃, rfl, rfl, ht₂, ht₃⟩ := ht.split
    have hthree : vs₁.length = 3 := ht₁.length
    have htwo : vs₂.length = RSANUMWORDS - 1 := by rw [ht₂.length, countP_wordsFormat]
    obtain ⟨len, n0inv', n0, rfl⟩ := List.length_eq_three.mp hthree
    simp only [List.cons_append, List.nil_append, List.cons.injEq] at hvs
    obtain ⟨rfl, rfl, hlists⟩ := hvs
    have hpos : 0 < RSANUMWORDS := by
      have hlen := congrArg List.length hlists
      simp only [List.length_append, List.length_cons] at hlen
      omega
    have hnlen : n.length = (n0 :: vs₂).length := by
      rw [hn, List.length_cons, htwo]
      omega
    obtain ⟨rfl, rfl⟩ := List.append_inj hlists hnlen
    have hstops₃ : Stops (t₃ ++ (c ++ r)) := ht₃.stops (r := c ++ r) rfl
    have hstops₂ : Stops (t₂ ++ (t₃ ++ (c ++ r))) := by
      have hopens : OpensStop (wordsFormat (RSANUMWORDS - 1) ++ []) (t₃ ++ (c ++ r)) :=
        opensStop_wordsFormat hstops₃
      rw [List.append_nil] at hopens
      exact ht₂.stops hopens
    have hread : fscanf (format " %i , 0x%x , \x7b %u") (t₁ ++ (t₂ ++ (t₃ ++ (c ++ r)))) =
        ([(RSANUMWORDS : Int), n0inv, n0], t₂ ++ (t₃ ++ (c ++ r))) :=
      fscanf_complete ht₁ ⟨trivial, by omega, rfl, rfl, rfl, by omega, rfl, rfl, rfl, trivial,
        by omega, hstops₂, trivial⟩
    have hn' : readWords (RSANUMWORDS - 1) (t₂ ++ (t₃ ++ (c ++ r))) =
        some (vs₂, t₃ ++ (c ++ r)) := readWords_complete ht₂ hstops₃
    rw [← toNat_pred] at ht₃
    have hrr' := readMontgomery_complete ht₃ hclose hr
    simp only [List.append_assoc] at hexp ⊢
    unfold readKey
    simp only [hexp, hread, ne_eq, not_true_eq_false, if_false, toNat_pred, hn', hrr',
      Option.map_some]

/-! ## Files -/

theorem readKeys_sound (hwords : 0 < RSANUMWORDS) {fuel : Nat} {keys ks : List RSAPublicKey}
    {s : Bytes} {numKeys : Nat}
    (h : readKeys RSANUMWORDS fuel keys s = .done (some ks, numKeys)) :
    ∃ ks', ks = keys ++ ks' ∧ numKeys = ks.length ∧ FileText RSANUMWORDS true ks' s := by
  induction fuel generalizing keys s with
  | zero => cases h
  | succ fuel ih =>
    unfold readKeys at h
    split at h
    · cases h
    · rename_i key s₁ hkey
      obtain ⟨t, rfl, hkeytext⟩ := readKey_sound hwords hkey
      split at h
      · obtain ⟨hks, rfl⟩ := Prod.mk.inj (Outcome.done.inj h)
        obtain rfl := Option.some.inj hks
        exact ⟨[key], rfl, by simp, by simpa using FileText.last hkeytext⟩
      · rename_i c s₂
        split at h
        · rename_i hcomma
          subst hcomma
          obtain ⟨ks', rfl, hnum, hfile⟩ := ih h
          exact ⟨key :: ks', by simp, hnum, .more hkeytext hfile⟩
        · cases h

theorem readKeys_complete {slips : Bool} {ks : List RSAPublicKey} {s : Bytes}
    (h : FileText RSANUMWORDS slips ks s) {fuel : Nat} (hfuel : s.length < fuel)
    (keys : List RSAPublicKey) :
    readKeys RSANUMWORDS fuel keys s = .done (some (keys ++ ks), (keys ++ ks).length) := by
  induction h generalizing fuel keys with
  | @last k t h =>
    obtain ⟨fuel, rfl⟩ := Nat.exists_eq_succ_of_ne_zero (Nat.ne_of_gt (Nat.zero_lt_of_lt hfuel))
    have hkey := readKey_complete h (.inl rfl)
    rw [List.append_nil] at hkey
    unfold readKeys
    simp only [hkey, List.length_append, List.length_singleton]
  | @more k ks t f h hs ih =>
    obtain ⟨fuel, rfl⟩ := Nat.exists_eq_succ_of_ne_zero (Nat.ne_of_gt (Nat.zero_lt_of_lt hfuel))
    have hkey := readKey_complete h (.inr ⟨f, rfl⟩)
    have hrest : f.length < fuel := by
      rw [List.length_append, List.length_cons] at hfuel
      omega
    unfold readKeys
    simp only [hkey, if_true, ih hrest (keys ++ [k]), List.append_assoc, List.singleton_append]

/-- The loop ends, and without keys the number is 0. -/
theorem readKeys_total (hwords : 0 < RSANUMWORDS) {fuel : Nat} {s : Bytes}
    (hfuel : s.length < fuel) (keys : List RSAPublicKey) :
    ∃ ks numKeys, readKeys RSANUMWORDS fuel keys s = .done (ks, numKeys) ∧
      (ks = none → numKeys = 0) := by
  induction fuel generalizing keys s with
  | zero => omega
  | succ fuel ih =>
    unfold readKeys
    cases hkey : readKey RSANUMWORDS s with
    | none => exact ⟨none, 0, rfl, fun _ => rfl⟩
    | some result =>
      obtain ⟨key, s₁⟩ := result
      obtain ⟨t, rfl, -⟩ := readKey_sound hwords hkey
      cases s₁ with
      | nil => exact ⟨_, _, rfl, nofun⟩
      | cons c s₂ =>
        have hrest : s₂.length < fuel := by
          rw [List.length_append, List.length_cons] at hfuel
          omega
        simp only
        split
        · exact ih hrest (keys ++ [key])
        · exact ⟨none, 0, rfl, fun _ => rfl⟩

/-- A file that is accepted is one of the grammar with slips. -/
theorem load_keys_sound (hwords : 0 < RSANUMWORDS) {f : Bytes} {ks : List RSAPublicKey}
    {numKeys : Nat} (h : load_keys RSANUMWORDS (some f) = .done (some ks, numKeys)) :
    numKeys = ks.length ∧ FileText RSANUMWORDS true ks f := by
  obtain ⟨ks', rfl, hnum, hfile⟩ := readKeys_sound hwords h
  exact ⟨hnum, hfile⟩

/-- Every file of the grammar with slips is accepted. -/
theorem load_keys_complete {slips : Bool} {f : Bytes} {ks : List RSAPublicKey}
    (h : FileText RSANUMWORDS slips ks f) :
    load_keys RSANUMWORDS (some f) = .done (some ks, ks.length) :=
  readKeys_complete h (Nat.lt_succ_self _) []

/-- The documented result for a file: its keys and their number, or `NULL` and 0. -/
structure Documented (RSANUMWORDS : Nat) (f : Bytes) (result : Option (List RSAPublicKey) × Nat) :
    Prop where
  accepts : ∀ ks, result = (some ks, ks.length) ↔ FileText RSANUMWORDS false ks f
  rejects : (¬ ∃ ks, FileText RSANUMWORDS false ks f) → result = (none, 0)

/-- The parser implements the documented grammar on exactly the files that are no text of the
grammar with slips unless they are one of the documented grammar. -/
theorem load_keys_iff (hwords : 0 < RSANUMWORDS) (f : Bytes) :
    (∃ result, load_keys RSANUMWORDS (some f) = .done result ∧
      Documented RSANUMWORDS f result) ↔
    ∀ ks, FileText RSANUMWORDS true ks f → FileText RSANUMWORDS false ks f := by
  constructor
  · rintro ⟨result, hload, hdoc⟩ ks hks
    have hread := load_keys_complete hks
    rw [hload] at hread
    exact (hdoc.accepts ks).mp (Outcome.done.inj hread)
  · intro hslips
    obtain ⟨ks, numKeys, hload, hnone⟩ := readKeys_total hwords (Nat.lt_succ_self f.length) []
    refine ⟨(ks, numKeys), hload, fun ks' => ⟨fun heq => ?_, fun hks' => ?_⟩, fun hno => ?_⟩
    · rw [heq] at hload
      exact hslips ks' (load_keys_sound hwords hload).2
    · have hread := load_keys_complete hks'
      exact Outcome.done.inj (hload.symm.trans hread)
    · cases ks with
      | none => rw [hnone rfl]
      | some ks => exact absurd ⟨ks, hslips ks (load_keys_sound hwords hload).2⟩ hno

/-- Every key of the documented grammar has one of the two exponents. -/
theorem FileText.exponent {ks : List RSAPublicKey} {f : Bytes}
    (h : FileText RSANUMWORDS false ks f) :
    ∀ k ∈ ks, k.exponent = some 3 ∨ k.exponent = some 65537 := by
  have hkey : ∀ {k t}, KeyText RSANUMWORDS false k t →
      k.exponent = some 3 ∨ k.exponent = some 65537 := by
    intro k t h
    cases h with
    | key hopen =>
      cases hopen with
      | version1 => exact .inl rfl
      | version2 => exact .inr rfl
      | unopened hslips => cases hslips
      | other hslips => cases hslips
  induction h with
  | last h =>
    intro k hk
    rw [List.mem_singleton.mp hk]
    exact hkey h
  | more h _ ih =>
    intro k hk
    rcases List.mem_cons.mp hk with rfl | hk
    · exact hkey h
    · exact ih k hk

/-- A list of 64 words. -/
def onesText : Bytes := ascii "1" ++ (List.replicate 63 (ascii ",1")).flatten

/-- A key that begins with a bracket. -/
def bracketText : Bytes :=
  ascii "[64,0x1,\x7b" ++ onesText ++ ascii "\x7d,\x7b" ++ onesText ++ ascii "\x7d\x7d"

theorem load_keys_iff_bracket :
    (∃ result, load_keys 64 (some bracketText) = .done result ∧
      Documented 64 bracketText result) ↔
    ∀ ks, FileText 64 true ks bracketText → FileText 64 false ks bracketText :=
  load_keys_iff (by decide) bracketText

/-- A file that does not begin with a brace gives a key whose exponent was never set. -/
theorem load_keys_open :
    ¬ ∃ result, load_keys 64 (some bracketText) = .done result ∧
      Documented 64 bracketText result := by
  have hload : load_keys 64 (some bracketText) =
      .done (some [⟨64, 1, List.replicate 64 1, List.replicate 64 1, none⟩], 1) := by
    decide +kernel
  rintro ⟨result, hresult, hdoc⟩
  obtain rfl := Outcome.done.inj (hload.symm.trans hresult)
  have hfile := (hdoc.accepts _).mp rfl
  rcases hfile.exponent _ (List.mem_singleton_self _) with h | h
  · cases h
  · cases h

end BootableRecovery.Recovery
