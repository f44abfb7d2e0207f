import BootableRecovery.Lib.Numeral

/-!
# Reading with a format

`fscanf` for formats of white space, literal characters and the conversions `%c`, `%d`,
`%i`, `%u` and `%x`. A format is also a grammar: `Text` says which texts it describes.

* `scanNumber_sound`, `scanNumber_complete`: the input item of a number is a `Numeral`, and a
  numeral that ends before `Stops` is read as a whole.
* `fscanf_sound`: what was read is a text of the directives that were passed, and the next
  one is `Stuck`.
* `fscanf_append`, `fscanf_complete`: a text of a format is read as a whole before input that
  is `Separated` from it.
* `scanWords` reads words of limited widths, as `%s` does. `scanWords_complete` and
  `scanWords_cut`: words that fit are read when the input is not cut within them.

Nothing in this module mentions the programs that are verified.
-/

namespace BootableRecovery.Scanf

/-! ## Numbers -/

/-- The value of a digit; 36 for every other character. -/
def digitValue (c : UInt8) : Nat :=
  if isDigit c then c.toNat - 48
  else if 97 ≤ c && c ≤ 122 then c.toNat - 87
  else if 65 ≤ c && c ≤ 90 then c.toNat - 55
  else 36

def isDigitIn (base : Nat) (c : UInt8) : Bool := digitValue c < base

/-- The number that digits stand for. -/
def digitsValue (base : Nat) (ds : Bytes) : Nat :=
  ds.foldl (fun n c => base * n + digitValue c) 0

/-- The digits at the start of the input, if there are any. -/
def scanDigits (base : Nat) (s : Bytes) : Option Nat × Bytes :=
  (if s.takeWhile (isDigitIn base) = [] then none
    else some (digitsValue base (s.takeWhile (isDigitIn base))),
    s.dropWhile (isDigitIn base))

/-- `0x` or `0X`. -/
def HexPrefix (s : Bytes) : Prop := s[0]? = some 48 ∧ (s[1]? = some 120 ∨ s[1]? = some 88)

instance (s : Bytes) : Decidable (HexPrefix s) := inferInstanceAs (Decidable (_ ∧ _))

/-- A number without a sign; in base 0 the prefix selects the base. -/
def scanUnsigned (base : Nat) (s : Bytes) : Option Nat × Bytes :=
  if (base = 0 ∨ base = 16) ∧ HexPrefix s then scanDigits 16 (s.drop 2)
  else if base = 0 then scanDigits (if s[0]? = some 48 then 8 else 10) s
  else scanDigits base s

/-- A number after white space and an optional sign. -/
def scanNumber (base : Nat) (s : Bytes) : Option Int × Bytes :=
  match s.dropWhile isSpace with
  | 45 :: s => ((scanUnsigned base s).1.map fun n : Nat => -(n : Int), (scanUnsigned base s).2)
  | 43 :: s => ((scanUnsigned base s).1.map fun n : Nat => (n : Int), (scanUnsigned base s).2)
  | s => ((scanUnsigned base s).1.map fun n : Nat => (n : Int), (scanUnsigned base s).2)

/-- The text of a number without a sign, and its value. -/
inductive Digits : Nat → Bytes → Nat → Prop
  | fixed {base : Nat} {ds : Bytes} (hbase : base ≠ 0) (hne : ds ≠ [])
      (hall : ∀ c ∈ ds, isDigitIn base c = true) : Digits base ds (digitsValue base ds)
  | hex {base : Nat} {x : UInt8} {ds : Bytes} (hbase : base = 0 ∨ base = 16)
      (hx : x = 120 ∨ x = 88) (hne : ds ≠ []) (hall : ∀ c ∈ ds, isDigitIn 16 c = true) :
      Digits base (48 :: x :: ds) (digitsValue 16 ds)
  | octal {ds : Bytes} (hall : ∀ c ∈ ds, isDigitIn 8 c = true) :
      Digits 0 (48 :: ds) (digitsValue 8 (48 :: ds))
  | decimal {d : UInt8} {ds : Bytes} (hd : d ≠ 48)
      (hall : ∀ c ∈ d :: ds, isDigitIn 10 c = true) :
      Digits 0 (d :: ds) (digitsValue 10 (d :: ds))

/-- The text of a number, and its value. -/
inductive Numeral : Nat → Bytes → Int → Prop
  | plain {base : Nat} {ds : Bytes} {n : Nat} (h : Digits base ds n) : Numeral base ds n
  | plus {base : Nat} {ds : Bytes} {n : Nat} (h : Digits base ds n) : Numeral base (43 :: ds) n
  | minus {base : Nat} {ds : Bytes} {n : Nat} (h : Digits base ds n) :
      Numeral base (45 :: ds) (-(n : Int))

/-- No number goes on here, whatever its base. -/
def Stops (s : Bytes) : Prop := ∀ c ∈ s.head?, digitValue c = 36

/-- Input that does not begin with white space. -/
def Dark (s : Bytes) : Prop := ∀ c ∈ s.head?, isSpace c = false

def Spaces (w : Bytes) : Prop := ∀ c ∈ w, isSpace c = true

theorem Spaces.nil : Spaces [] := fun _ h => absurd h (List.not_mem_nil)

theorem Spaces.append {w w' : Bytes} (h : Spaces w) (h' : Spaces w') : Spaces (w ++ w') := by
  intro c hc
  exact (List.mem_append.mp hc).elim (h c) (h' c)

theorem spaces_takeWhile (s : Bytes) : Spaces (s.takeWhile isSpace) :=
  fun _ h => List.mem_takeWhile_imp h

/-- White space before other input is skipped. -/
theorem dropWhile_spaces {w s : Bytes} (h : Spaces w) :
    (w ++ s).dropWhile isSpace = s.dropWhile isSpace :=
  List.dropWhile_append_of_pos h

theorem Dark.dropWhile {s : Bytes} (h : Dark s) : s.dropWhile isSpace = s := by
  cases s with
  | nil => rfl
  | cons c s => exact List.dropWhile_cons_of_neg (by simp [h c rfl])

theorem stops_of_isSpace {c : UInt8} (h : isSpace c = true) (s : Bytes) : Stops (c :: s) := by
  have hall : ∀ c : UInt8, isSpace c = true → digitValue c = 36 := by decide +kernel
  intro d hd
  cases hd
  exact hall c h

/-- A character that can begin a number is no white space. -/
theorem isSpace_of_isDigitIn {c : UInt8} {base : Nat} (hbase : base ≤ 36)
    (h : isDigitIn base c = true) : isSpace c = false := by
  cases hspace : isSpace c with
  | false => rfl
  | true =>
    have hval : digitValue c = 36 := stops_of_isSpace hspace [] c rfl
    have hlt : digitValue c < base := of_decide_eq_true h
    omega

/-- Digits of a base end where no digit of it follows. -/
theorem scanDigits_append {base : Nat} {ds r : Bytes} (hne : ds ≠ [])
    (hall : ∀ c ∈ ds, isDigitIn base c = true) (hr : ∀ c ∈ r.head?, isDigitIn base c = false) :
    scanDigits base (ds ++ r) = (some (digitsValue base ds), r) := by
  have htake : r.takeWhile (isDigitIn base) = [] := by
    cases r with
    | nil => rfl
    | cons c r => exact List.takeWhile_cons_of_neg (by simp [hr c rfl])
  have hdrop : r.dropWhile (isDigitIn base) = r := by
    cases r with
    | nil => rfl
    | cons c r => exact List.dropWhile_cons_of_neg (by simp [hr c rfl])
  unfold scanDigits
  rw [List.takeWhile_append_of_pos hall, List.dropWhile_append_of_pos hall, htake, hdrop,
    List.append_nil, if_neg hne]

/-- The digits that were read stand before the rest, and the rest begins with none. -/
theorem scanDigits_eq {base n : Nat} {s r : Bytes} (h : scanDigits base s = (some n, r)) :
    ∃ ds, s = ds ++ r ∧ ds ≠ [] ∧ (∀ c ∈ ds, isDigitIn base c = true) ∧
      n = digitsValue base ds ∧ ∀ c ∈ r.head?, isDigitIn base c = false := by
  unfold scanDigits at h
  obtain ⟨hval, rfl⟩ := Prod.mk.inj h
  split at hval
  · cases hval
  · rename_i hne
    refine ⟨s.takeWhile (isDigitIn base), List.takeWhile_append_dropWhile.symm, hne,
      fun _ hc => List.mem_takeWhile_imp hc, (Option.some.inj hval).symm, ?_⟩
    intro c hc
    have hhead := List.head?_dropWhile_not (isDigitIn base) s
    rw [hc] at hhead
    simpa using hhead

theorem isDigitIn_of_stops {base : Nat} {r : Bytes} (hbase : base ≤ 36) (h : Stops r) :
    ∀ c ∈ r.head?, isDigitIn base c = false := by
  intro c hc
  have hval := h c hc
  exact decide_eq_false (by omega)

theorem HexPrefix.eq {s : Bytes} (h : HexPrefix s) :
    ∃ x t, s = 48 :: x :: t ∧ (x = 120 ∨ x = 88) := by
  obtain ⟨hzero, hx⟩ := h
  match s with
  | [] => cases hzero
  | [c] => rcases hx with hx | hx <;> cases hx
  | c :: x :: t =>
    have hc : c = 48 := Option.some.inj hzero
    subst hc
    exact ⟨x, t, rfl, hx.imp Option.some.inj Option.some.inj⟩

/-- Digits up to 16 that are followed by no number do not begin with `0x`. -/
theorem not_hexPrefix {base : Nat} {ds r : Bytes} (hbase : base ≤ 16) (hne : ds ≠ [])
    (hall : ∀ c ∈ ds, isDigitIn base c = true) (hr : Stops r) : ¬ HexPrefix (ds ++ r) := by
  have hmark : ∀ c : UInt8, c = 120 ∨ c = 88 → digitValue c = 33 := by decide +kernel
  rintro ⟨-, hx⟩
  obtain ⟨c, hc, hval⟩ : ∃ c, (ds ++ r)[1]? = some c ∧ digitValue c = 33 := by
    rcases hx with hx | hx
    · exact ⟨120, hx, hmark 120 (.inl rfl)⟩
    · exact ⟨88, hx, hmark 88 (.inr rfl)⟩
  match ds, hne with
  | [d], _ =>
    have hhead : c ∈ r.head? := by
      rw [List.head?_eq_getElem?]
      exact hc
    have := hr c hhead
    omega
  | d :: d' :: ds, _ =>
    have hd : d' = c := Option.some.inj hc
    have hlt : digitValue d' < base := of_decide_eq_true (hall d' (by simp))
    rw [hd] at hlt
    omega

theorem scanUnsigned_complete {base n : Nat} {ds r : Bytes} (h : Digits base ds n)
    (hbase : base ≤ 36) (hr : Stops r) : scanUnsigned base (ds ++ r) = (some n, r) := by
  unfold scanUnsigned
  cases h with
  | fixed hpos hne hall =>
    have hno : ¬ ((base = 0 ∨ base = 16) ∧ HexPrefix (ds ++ r)) := by
      rintro ⟨hzero | hhex, hprefix⟩
      · exact hpos hzero
      · exact not_hexPrefix hhex.le hne hall hr hprefix
    rw [if_neg hno, if_neg hpos]
    exact scanDigits_append hne hall (isDigitIn_of_stops hbase hr)
  | @hex _ x ds hzero hx hne hall =>
    have hprefix : HexPrefix (48 :: x :: ds ++ r) :=
      ⟨rfl, hx.imp (congrArg some) (congrArg some)⟩
    rw [if_pos ⟨hzero, hprefix⟩]
    exact scanDigits_append hne hall (isDigitIn_of_stops (by omega) hr)
  | @octal ds hall =>
    have hall' : ∀ c ∈ 48 :: ds, isDigitIn 8 c = true := by
      intro c hc
      rcases List.mem_cons.mp hc with rfl | hc
      · decide
      · exact hall c hc
    have hno := not_hexPrefix (by omega) (List.cons_ne_nil 48 ds) hall' hr
    have hhead : (48 :: ds ++ r)[0]? = some 48 := rfl
    rw [if_neg fun hex => hno hex.2, if_pos rfl, if_pos hhead]
    exact scanDigits_append (List.cons_ne_nil _ _) hall' (isDigitIn_of_stops (by omega) hr)
  | @decimal d ds hd hall =>
    have hno := not_hexPrefix (by omega) (List.cons_ne_nil d ds) hall hr
    have hhead : (d :: ds ++ r)[0]? ≠ some 48 := fun heq => hd (Option.some.inj heq)
    rw [if_neg fun hex => hno hex.2, if_pos rfl, if_neg hhead]
    exact scanDigits_append (List.cons_ne_nil _ _) hall (isDigitIn_of_stops (by omega) hr)

theorem scanUnsigned_sound {base n : Nat} {s r : Bytes} (h : scanUnsigned base s = (some n, r)) :
    ∃ ds, s = ds ++ r ∧ Digits base ds n ∧ ∀ c ∈ r.head?, isDigitIn base c = false := by
  have hzero : ∀ c, isDigitIn 0 c = false := fun c => decide_eq_false (Nat.not_lt_zero _)
  unfold scanUnsigned at h
  split at h
  · rename_i hex
    obtain ⟨hbase, hprefix⟩ := hex
    obtain ⟨x, t, rfl, hx⟩ := hprefix.eq
    obtain ⟨ds, hs, hne, hall, rfl, hr⟩ := scanDigits_eq h
    refine ⟨48 :: x :: ds, congrArg (fun t => 48 :: x :: t) hs, .hex hbase hx hne hall, ?_⟩
    intro c hc
    rcases hbase with rfl | rfl
    · exact hzero c
    · exact hr c hc
  · split at h
    · rename_i hbase
      subst hbase
      obtain ⟨ds, rfl, hne, hall, rfl, -⟩ := scanDigits_eq h
      refine ⟨ds, rfl, ?_, fun c _ => hzero c⟩
      obtain ⟨d, ds, rfl⟩ := List.exists_cons_of_ne_nil hne
      by_cases hd : d = 48
      · subst hd
        exact .octal fun c hc => hall c (List.mem_cons_of_mem _ hc)
      · have hhead : (d :: ds ++ r)[0]? ≠ some 48 := fun heq => hd (Option.some.inj heq)
        rw [if_neg hhead] at hall ⊢
        exact .decimal hd hall
    · rename_i hbase
      obtain ⟨ds, hs, hne, hall, rfl, hr⟩ := scanDigits_eq h
      exact ⟨ds, hs, .fixed hbase hne hall, hr⟩

/-- A number begins with a digit of base 16 or its own. -/
theorem Digits.head {base n : Nat} {ds : Bytes} (h : Digits base ds n) (hbase : base ≤ 36) :
    ∃ c t, ds = c :: t ∧ digitValue c < 36 := by
  have hdigit : ∀ b ≤ 36, ∀ c t, (∀ x ∈ c :: t, isDigitIn b x = true) → digitValue c < 36 := by
    intro b hb c t hall
    have hlt : digitValue c < b := of_decide_eq_true (hall c (List.mem_cons_self ..))
    omega
  cases h with
  | fixed hpos hne hall =>
    obtain ⟨d, ds, rfl⟩ := List.exists_cons_of_ne_nil hne
    exact ⟨d, ds, rfl, hdigit base hbase d ds hall⟩
  | hex => exact ⟨48, _, rfl, by decide⟩
  | octal => exact ⟨48, _, rfl, by decide⟩
  | @decimal d ds hd hall => exact ⟨d, ds, rfl, hdigit 10 (by omega) d ds hall⟩

/-- A number of base 0 begins with a sign or a decimal digit. -/
theorem Numeral.head {n : Bytes} {v : Int} (h : Numeral 0 n v) :
    ∃ c t, n = c :: t ∧ (c = 43 ∨ c = 45 ∨ isDigitIn 10 c = true) := by
  have hzero : isDigitIn 10 48 = true := by decide
  cases h with
  | plain h =>
    cases h with
    | fixed hbase => exact absurd rfl hbase
    | hex => exact ⟨48, _, rfl, .inr (.inr hzero)⟩
    | octal => exact ⟨48, _, rfl, .inr (.inr hzero)⟩
    | @decimal d ds hd hall => exact ⟨d, ds, rfl, .inr (.inr (hall d (List.mem_cons_self ..)))⟩
  | plus => exact ⟨43, _, rfl, .inl rfl⟩
  | minus => exact ⟨45, _, rfl, .inr (.inl rfl)⟩

/-- A number is read as a whole where it ends. -/
theorem scanNumber_complete {base : Nat} {v : Int} {w n r : Bytes} (hw : Spaces w)
    (h : Numeral base n v) (hbase : base ≤ 36) (hr : Stops r) :
    scanNumber base (w ++ (n ++ r)) = (some v, r) := by
  have hsigns : isSpace 43 = false ∧ isSpace 45 = false ∧ digitValue 43 = 36 ∧
      digitValue 45 = 36 := by decide
  unfold scanNumber
  rw [dropWhile_spaces hw]
  cases h with
  | @plain ds n h =>
    have hread := scanUnsigned_complete h hbase hr
    obtain ⟨c, t, rfl, hc⟩ := h.head hbase
    have hspace : isSpace c = false := isSpace_of_isDigitIn le_rfl (decide_eq_true hc)
    rw [List.cons_append, List.dropWhile_cons_of_neg (by simp [hspace])]
    rw [List.cons_append] at hread
    split
    · rename_i heq
      rw [(List.cons.inj heq).1] at hc
      omega
    · rename_i heq
      rw [(List.cons.inj heq).1] at hc
      omega
    · rw [hread]
      rfl
  | plus h =>
    rw [List.cons_append, List.dropWhile_cons_of_neg (by simp [hsigns.1])]
    simp only [scanUnsigned_complete h hbase hr, Option.map_some]
  | minus h =>
    rw [List.cons_append, List.dropWhile_cons_of_neg (by simp [hsigns.2.1])]
    simp only [scanUnsigned_complete h hbase hr, Option.map_some]

/-- What was read as a number is one, and no digit of its base follows. -/
theorem scanNumber_sound {base : Nat} {v : Int} {s r : Bytes}
    (h : scanNumber base s = (some v, r)) :
    ∃ w n, s = w ++ (n ++ r) ∧ Spaces w ∧ Numeral base n v ∧
      ∀ c ∈ r.head?, isDigitIn base c = false := by
  have hsplit : s.takeWhile isSpace ++ s.dropWhile isSpace = s := List.takeWhile_append_dropWhile
  have hmap : ∀ (t : Bytes) (f : Nat → Int),
      ((scanUnsigned base t).1.map f, (scanUnsigned base t).2) = (some v, r) →
      ∃ m, scanUnsigned base t = (some m, r) ∧ f m = v := by
    intro t f ht
    obtain ⟨hval, hrest⟩ := Prod.mk.inj ht
    obtain ⟨m, hm, hv⟩ := Option.map_eq_some_iff.mp hval
    exact ⟨m, Prod.ext hm hrest, hv⟩
  unfold scanNumber at h
  split at h
  · rename_i t heq
    obtain ⟨m, hm, rfl⟩ := hmap t _ h
    obtain ⟨ds, rfl, hds, hr⟩ := scanUnsigned_sound hm
    exact ⟨_, 45 :: ds, by rw [List.cons_append, ← heq, hsplit], spaces_takeWhile s, .minus hds, hr⟩
  · rename_i t heq
    obtain ⟨m, hm, rfl⟩ := hmap t _ h
    obtain ⟨ds, rfl, hds, hr⟩ := scanUnsigned_sound hm
    exact ⟨_, 43 :: ds, by rw [List.cons_append, ← heq, hsplit], spaces_takeWhile s, .plus hds, hr⟩
  · obtain ⟨m, hm, rfl⟩ := hmap _ _ h
    obtain ⟨ds, hs, hds, hr⟩ := scanUnsigned_sound hm
    exact ⟨_, ds, by rw [← hs, hsplit], spaces_takeWhile s, .plain hds, hr⟩

/-! ## Formats -/

/-- One directive of a format. -/
inductive Directive where
  | space
  | lit (c : UInt8)
  | char
  | number (signed : Bool) (base : Nat)
  deriving DecidableEq, Repr

def Directive.isConversion : Directive → Bool
  | .char => true
  | .number _ _ => true
  | _ => false

/-- What stands behind a percent sign: `c`, `d`, `i`, `u` and `x`. -/
def conversion (c : UInt8) : Directive :=
  if c = 99 then .char
  else if c = 100 then .number true 10
  else if c = 105 then .number true 0
  else if c = 117 then .number false 10
  else if c = 120 then .number false 16
  else .lit c

def directives : Bytes → List Directive
  | 37 :: c :: f => conversion c :: directives f
  | c :: f => (if isSpace c then .space else .lit c) :: directives f
  | [] => []

/-- The directives of a format string. -/
def format (s : String) : List Directive := directives (ascii s)

/-- The value of `strtoul`, which negates a number that has a minus sign. -/
def clampUnsigned (w : Nat) (x : Int) : Int := if x.natAbs < 2 ^ w then x % 2 ^ w else 2 ^ w - 1

/-- What a conversion stores in a 32-bit variable. -/
def store (signed : Bool) (v : Int) : Int :=
  if signed then wrap32 (clampLong 64 v) else (toU32 (clampUnsigned 64 v) : Int)

/-- `fscanf`: the values that were stored and the rest of the input. The result of the C
function is the number of the values, or `EOF` when there is none and the input has ended. -/
def fscanf : List Directive → Bytes → List Int × Bytes
  | [], s => ([], s)
  | .space :: ds, s => fscanf ds (s.dropWhile isSpace)
  | .lit c :: ds, s =>
    match s with
    | [] => ([], [])
    | b :: s => if b = c then fscanf ds s else ([], b :: s)
  | .char :: ds, s =>
    match s with
    | [] => ([], [])
    | b :: s => ((b.toNat : Int) :: (fscanf ds s).1, (fscanf ds s).2)
  | .number signed base :: ds, s =>
    match scanNumber base s with
    | (none, s) => ([], s)
    | (some v, s) => (store signed v :: (fscanf ds s).1, (fscanf ds s).2)

/-- The texts that a format describes, with the values of its conversions. -/
inductive Text : List Directive → List Int → Bytes → Prop
  | nil : Text [] [] []
  | space {ds : List Directive} {vs : List Int} {w t : Bytes} (hw : Spaces w) (h : Text ds vs t) :
      Text (.space :: ds) vs (w ++ t)
  | lit {ds : List Directive} {vs : List Int} {c : UInt8} {t : Bytes} (h : Text ds vs t) :
      Text (.lit c :: ds) vs (c :: t)
  | char {ds : List Directive} {vs : List Int} {c : UInt8} {t : Bytes} (h : Text ds vs t) :
      Text (.char :: ds) ((c.toNat : Int) :: vs) (c :: t)
  | number {signed : Bool} {base : Nat} {ds : List Directive} {vs : List Int} {v : Int}
      {w n t : Bytes} (hw : Spaces w) (hn : Numeral base n v) (h : Text ds vs t) :
      Text (.number signed base :: ds) (store signed v :: vs) (w ++ (n ++ t))

variable {ds ds' : List Directive} {vs vs' us : List Int} {s t t' r u : Bytes}

theorem fscanf_space (ds : List Directive) (s : Bytes) :
    fscanf (.space :: ds) s = fscanf ds (s.dropWhile isSpace) := rfl

theorem fscanf_number {base : Nat} {v : Int} (signed : Bool) (h : scanNumber base s = (some v, r)) :
    fscanf (.number signed base :: ds) s =
      (store signed v :: (fscanf ds r).1, (fscanf ds r).2) := by
  rw [fscanf, h]

theorem Text.append (h : Text ds vs t) (h' : Text ds' vs' t') :
    Text (ds ++ ds') (vs ++ vs') (t ++ t') := by
  induction h with
  | nil => exact h'
  | space hw _ ih =>
    rw [List.append_assoc]
    exact .space hw ih
  | lit _ ih => exact .lit ih
  | char _ ih => exact .char ih
  | number hw hn _ ih =>
    rw [List.append_assoc, List.append_assoc]
    exact .number hw hn ih

/-- A text of two formats one after the other is a text of each. -/
theorem Text.split (h : Text (ds ++ ds') us u) :
    ∃ vs vs' t t', us = vs ++ vs' ∧ u = t ++ t' ∧ Text ds vs t ∧ Text ds' vs' t' := by
  induction ds generalizing us u with
  | nil => exact ⟨[], us, [], u, rfl, rfl, .nil, h⟩
  | cons d ds ih =>
    cases h with
    | @space _ _ w _ hw h =>
      obtain ⟨vs, vs', t, t', rfl, rfl, hds, hds'⟩ := ih h
      exact ⟨vs, vs', w ++ t, t', rfl, (List.append_assoc ..).symm, .space hw hds, hds'⟩
    | @lit _ _ c _ h =>
      obtain ⟨vs, vs', t, t', rfl, rfl, hds, hds'⟩ := ih h
      exact ⟨vs, vs', c :: t, t', rfl, rfl, .lit hds, hds'⟩
    | @char _ _ c _ h =>
      obtain ⟨vs, vs', t, t', rfl, rfl, hds, hds'⟩ := ih h
      exact ⟨(c.toNat : Int) :: vs, vs', c :: t, t', rfl, rfl, .char hds, hds'⟩
    | @number signed base _ _ v w n _ hw hn h =>
      obtain ⟨vs, vs', t, t', rfl, rfl, hds, hds'⟩ := ih h
      refine ⟨store signed v :: vs, vs', w ++ (n ++ t), t', rfl, ?_, .number hw hn hds, hds'⟩
      simp only [List.append_assoc]

theorem Text.length (h : Text ds vs t) : vs.length = ds.countP Directive.isConversion := by
  induction h with
  | nil => rfl
  | space _ _ ih => rw [ih, List.countP_cons_of_neg (by simp [Directive.isConversion])]
  | lit _ ih => rw [ih, List.countP_cons_of_neg (by simp [Directive.isConversion])]
  | char _ ih => rw [List.length_cons, ih, List.countP_cons_of_pos rfl]
  | number _ _ _ ih => rw [List.length_cons, ih, List.countP_cons_of_pos rfl]

/-! ## What was read -/

/-- Reading ends before these directives: at the end of the format or at one that fails. The
input goes from `s` to `r`. -/
inductive Stuck : List Directive → Bytes → Bytes → Prop
  | done {r : Bytes} : Stuck [] r r
  | lit {c : UInt8} {ds : List Directive} {r : Bytes} (h : r.head? ≠ some c) :
      Stuck (.lit c :: ds) r r
  | char {ds : List Directive} : Stuck (.char :: ds) [] []
  | number {signed : Bool} {base : Nat} {ds : List Directive} {s r : Bytes}
      (h : scanNumber base s = (none, r)) : Stuck (.number signed base :: ds) s r

/-- What `fscanf` read is a text of the directives it got through. -/
theorem fscanf_sound (ds : List Directive) (s : Bytes) :
    ∃ pre suf t s', ds = pre ++ suf ∧ s = t ++ s' ∧ Text pre (fscanf ds s).1 t ∧
      Stuck suf s' (fscanf ds s).2 := by
  induction ds generalizing s with
  | nil => exact ⟨[], [], [], s, rfl, rfl, .nil, .done⟩
  | cons d ds ih =>
    cases d with
    | space =>
      obtain ⟨pre, suf, t, s', hds, hs, htext, hstuck⟩ := ih (s.dropWhile isSpace)
      refine ⟨.space :: pre, suf, s.takeWhile isSpace ++ t, s', by rw [hds]; rfl, ?_,
        .space (spaces_takeWhile s) htext, hstuck⟩
      rw [List.append_assoc, ← hs, List.takeWhile_append_dropWhile]
    | lit c =>
      cases s with
      | nil => exact ⟨[], _, [], [], rfl, rfl, .nil, .lit (by simp)⟩
      | cons b s =>
        by_cases hb : b = c
        · subst hb
          obtain ⟨pre, suf, t, s', hds, hs, htext, hstuck⟩ := ih s
          have hread : fscanf (.lit b :: ds) (b :: s) = fscanf ds s := if_pos rfl
          rw [hread]
          exact ⟨.lit b :: pre, suf, b :: t, s', by rw [hds]; rfl, by rw [hs]; rfl, .lit htext,
            hstuck⟩
        · have hread : fscanf (.lit c :: ds) (b :: s) = ([], b :: s) := if_neg hb
          rw [hread]
          exact ⟨[], _, [], b :: s, rfl, rfl, .nil, .lit fun h => hb (Option.some.inj h)⟩
    | char =>
      cases s with
      | nil => exact ⟨[], _, [], [], rfl, rfl, .nil, .char⟩
      | cons b s =>
        obtain ⟨pre, suf, t, s', hds, hs, htext, hstuck⟩ := ih s
        exact ⟨.char :: pre, suf, b :: t, s', by rw [hds]; rfl, by rw [hs]; rfl, .char htext,
          hstuck⟩
    | number signed base =>
      unfold fscanf
      rcases hnum : scanNumber base s with ⟨_ | v, s₁⟩
      · exact ⟨[], _, [], s, rfl, rfl, .nil, .number hnum⟩
      · obtain ⟨w, n, hs₁, hw, hn, -⟩ := scanNumber_sound hnum
        obtain ⟨pre, suf, t, s', hds, hs, htext, hstuck⟩ := ih s₁
        refine ⟨.number signed base :: pre, suf, w ++ (n ++ t), s', by rw [hds]; rfl, ?_,
          .number hw hn htext, hstuck⟩
        rw [hs₁, hs]
        simp only [List.append_assoc]

/-- A format that ends in a conversion was read as a whole when all its values were stored. -/
theorem fscanf_all (h : fscanf ds s = (vs, r)) (hlen : vs.length = ds.countP Directive.isConversion)
    (hlast : ∃ d ∈ ds.getLast?, d.isConversion = true) : ∃ t, s = t ++ r ∧ Text ds vs t := by
  obtain ⟨pre, suf, t, s', hds, hs, htext, hstuck⟩ := fscanf_sound ds s
  rw [h] at htext hstuck
  have hnone : suf.countP Directive.isConversion = 0 := by
    have hpre : vs.length = pre.countP Directive.isConversion := htext.length
    rw [hds, List.countP_append] at hlen
    omega
  cases suf with
  | nil =>
    rw [List.append_nil] at hds
    subst hds
    cases hstuck
    exact ⟨t, hs, htext⟩
  | cons d suf =>
    obtain ⟨e, he, hconv⟩ := hlast
    rw [hds, List.getLast?_append_of_ne_nil _ (List.cons_ne_nil _ _)] at he
    have hmem : e ∈ d :: suf := List.mem_of_getLast? he
    exact absurd hconv (List.countP_eq_zero.mp hnone e hmem)

/-! ## What is read as a whole -/

/-- What follows white space in a format is not white space itself. -/
def OpensDark : List Directive → Bytes → Prop
  | [], r => Dark r
  | .lit c :: _, _ => isSpace c = false
  | .char :: _, _ => False
  | _, _ => True

/-- What follows a number in a format ends it. -/
def OpensStop : List Directive → Bytes → Prop
  | [], r => Stops r
  | .space :: ds, r => OpensStop ds r
  | .lit c :: _, _ => digitValue c = 36
  | _, _ => False

/-- No directive of the format takes anything of what stands behind its text, where `r`
follows the whole of it. -/
def Separated : List Directive → Bytes → Prop
  | [], _ => True
  | .space :: ds, r => OpensDark ds r ∧ Separated ds r
  | .number _ base :: ds, r => base ≤ 36 ∧ OpensStop ds r ∧ Separated ds r
  | _ :: ds, r => Separated ds r

theorem Text.stops (h : Text ds vs t) (hstop : OpensStop ds r) : Stops (t ++ r) := by
  induction h with
  | nil => exact hstop
  | @space ds vs w t hw _ ih =>
    cases w with
    | nil => exact ih hstop
    | cons c w => exact stops_of_isSpace (hw c (List.mem_cons_self ..)) _
  | lit => exact fun d hd => Option.some.inj hd ▸ hstop
  | char => exact hstop.elim
  | number => exact hstop.elim

/-- White space before a text makes no difference where it is skipped anyway. -/
theorem Text.fscanf_dropWhile (h : Text ds vs t) (hdark : OpensDark ds r) :
    fscanf (ds ++ ds') ((t ++ r).dropWhile isSpace) = fscanf (ds ++ ds') (t ++ r) := by
  cases h with
  | nil => rw [List.nil_append, List.nil_append, Dark.dropWhile hdark]
  | space hw h =>
    rw [List.cons_append, fscanf_space, fscanf_space, List.dropWhile_idempotent]
  | @lit _ _ c t h =>
    have hc : isSpace c = false := hdark
    have hdrop : (c :: t ++ r).dropWhile isSpace = c :: t ++ r :=
      List.dropWhile_cons_of_neg (by simp [hc])
    rw [hdrop]
  | char => exact hdark.elim
  | number hw hn h =>
    rw [List.cons_append]
    unfold fscanf scanNumber
    rw [List.dropWhile_idempotent]

/-- A text of the first directives is read as a whole, and reading goes on behind it. -/
theorem fscanf_append (h : Text ds vs t) (hsep : Separated ds r) :
    fscanf (ds ++ ds') (t ++ r) = (vs ++ (fscanf ds' r).1, (fscanf ds' r).2) := by
  induction h with
  | nil => rfl
  | space hw h ih =>
    rw [List.append_assoc, List.cons_append, fscanf_space, dropWhile_spaces hw,
      h.fscanf_dropWhile hsep.1, ih hsep.2]
  | lit h ih => exact (if_pos rfl).trans (ih hsep)
  | char h ih =>
    have hrest := ih hsep
    simp only [List.cons_append, fscanf, hrest]
  | number hw hn h ih =>
    have hrest := ih hsep.2.2
    have hnum := scanNumber_complete hw hn hsep.1 (h.stops hsep.2.1)
    rw [List.append_assoc, List.append_assoc, List.cons_append, fscanf_number _ hnum, hrest]
    rfl

/-- A text of a format is read as a whole. -/
theorem fscanf_complete (h : Text ds vs t) (hsep : Separated ds r) :
    fscanf ds (t ++ r) = (vs, r) := by
  have hread : fscanf (ds ++ []) (t ++ r) = (vs ++ [], r) := fscanf_append h hsep
  rw [List.append_nil, List.append_nil] at hread
  exact hread

/-! ## Words -/

/-- `%s` with a width: a word, which may be cut, and the rest of the input. -/
def scanWord (width : Nat) (s : Bytes) : Option (Bytes × Bytes) :=
  let word := ((s.dropWhile isSpace).takeWhile fun c => !isSpace c).take width
  if s.dropWhile isSpace = [] then none else some (word, (s.dropWhile isSpace).drop word.length)

/-- The words that were stored before the input ended. -/
def scanWords : List Nat → Bytes → List Bytes
  | [], _ => []
  | width :: widths, s =>
    match scanWord width s with
    | none => []
    | some (word, s) => word :: scanWords widths s

def Word (f : Bytes) : Prop := f ≠ [] ∧ ∀ c ∈ f, isSpace c = false

/-- A word ends here. -/
def Ends (s : Bytes) : Prop := ∀ c ∈ s.head?, isSpace c = true

/-- The texts that begin with white space and end with the last of the words. -/
inductive Words : List Bytes → Bytes → Prop
  | nil : Words [] []
  | cons {w f t : Bytes} {fs : List Bytes} (hw : Spaces w) (hf : Word f) (ht : Ends t)
      (h : Words fs t) : Words (f :: fs) (w ++ (f ++ t))

section Words

variable {width : Nat} {widths : List Nat} {f w : Bytes} {fs : List Bytes}

theorem Ends.append (h : Ends t) (h' : Ends r) : Ends (t ++ r) := by
  cases t with
  | nil => exact h'
  | cons c t => exact h

theorem Ends.take (h : Ends t) (n : Nat) : Ends (t.take n) := by
  cases t with
  | nil =>
    rw [List.take_nil]
    exact h
  | cons c t =>
    cases n with
    | zero => exact fun _ hc => by cases hc
    | succ n => exact h

theorem Word.dropWhile (h : Word f) (s : Bytes) : (f ++ s).dropWhile isSpace = f ++ s := by
  obtain ⟨hne, hall⟩ := h
  obtain ⟨c, f, rfl⟩ := List.exists_cons_of_ne_nil hne
  exact List.dropWhile_cons_of_neg (by simp [hall c List.mem_cons_self])

theorem Word.takeWhile (h : Word f) (hr : Ends r) :
    (f ++ r).takeWhile (fun c => !isSpace c) = f := by
  have hrest : r.takeWhile (fun c => !isSpace c) = [] := by
    cases r with
    | nil => rfl
    | cons c r => exact List.takeWhile_cons_of_neg (by simp [hr c rfl])
  rw [List.takeWhile_append_of_pos fun c hc => by simp [h.2 c hc], hrest, List.append_nil]

theorem Words.ne_nil (h : Words fs t) (hne : fs ≠ []) : t ≠ [] := by
  cases h with
  | nil => exact fun _ => hne rfl
  | cons _ hf _ _ =>
    exact fun h => hf.1 (List.append_eq_nil_iff.mp (List.append_eq_nil_iff.mp h).2).1

/-- The words at the start of a text are determined by their number. -/
theorem Words.unique (h : Words fs t) {fs' : List Bytes} {t' r' : Bytes} (h' : Words fs' t')
    (hr : Ends r) (hr' : Ends r') (heq : t ++ r = t' ++ r') (hlen : fs.length = fs'.length) :
    fs = fs' := by
  induction h generalizing fs' t' with
  | nil => exact (List.length_eq_zero_iff.mp hlen.symm).symm
  | @cons w f t fs hw hf ht _ ih =>
    cases h' with
    | nil => cases hlen
    | @cons w' f' t' fs' hw' hf' ht' h' =>
      rw [List.append_assoc, List.append_assoc, List.append_assoc, List.append_assoc] at heq
      have hdark := congrArg (List.dropWhile isSpace) heq
      rw [dropWhile_spaces hw, dropWhile_spaces hw', hf.dropWhile, hf'.dropWhile] at hdark
      have hword := congrArg (List.takeWhile fun c => !isSpace c) hdark
      rw [hf.takeWhile (ht.append hr), hf'.takeWhile (ht'.append hr')] at hword
      subst hword
      rw [ih h' (List.append_cancel_left hdark) (Nat.succ_inj.mp hlen)]

theorem scanWord_spaces (hw : Spaces w) : scanWord width (w ++ s) = scanWord width s := by
  unfold scanWord
  rw [dropWhile_spaces hw]

/-- There is no word in white space. -/
theorem scanWord_none (hw : Spaces w) : scanWord width w = none := by
  have hdrop : w.dropWhile isSpace = [] := List.dropWhile_eq_nil_iff.mpr fun c hc => hw c hc
  unfold scanWord
  rw [if_pos hdrop]

/-- A word is read as far as the width allows. -/
theorem scanWord_word (hf : Word f) (hr : Ends r) :
    scanWord width (f ++ r) = some (f.take width, (f ++ r).drop (f.take width).length) := by
  have hne : f ++ r ≠ [] := fun h => hf.1 (List.append_eq_nil_iff.mp h).1
  unfold scanWord
  rw [hf.dropWhile, hf.takeWhile hr, if_neg hne]

theorem scanWord_fits (hf : Word f) (hr : Ends r) (hfits : f.length ≤ width) :
    scanWord width (f ++ r) = some (f, r) := by
  rw [scanWord_word hf hr, List.take_of_length_le hfits, List.drop_left]

theorem scanWord_length_le (h : scanWord width s = some (f, r)) :
    f.length ≤ width ∧ f.length ≤ s.length := by
  unfold scanWord at h
  split_ifs at h
  obtain ⟨rfl, -⟩ := Prod.mk.inj (Option.some.inj h)
  refine ⟨List.length_take_le _ _, ?_⟩
  calc List.length _ ≤ ((s.dropWhile isSpace).takeWhile fun c => !isSpace c).length :=
        List.length_take_le' _ _
    _ ≤ (s.dropWhile isSpace).length := (List.takeWhile_prefix _).length_le
    _ ≤ s.length := (List.dropWhile_suffix _).length_le

/-- The words that are stored fit. -/
theorem scanWords_fit (h : (scanWords widths s).length = widths.length) :
    List.Forall₂ (fun f width => f.length ≤ width) (scanWords widths s) widths := by
  induction widths generalizing s with
  | nil => exact .nil
  | cons width widths ih =>
    unfold scanWords at h ⊢
    cases hword : scanWord width s with
    | none =>
      rw [hword] at h
      cases h
    | some p =>
      rw [hword] at h
      exact .cons (scanWord_length_le hword).1 (ih (Nat.succ_inj.mp h))

/-- Words that fit are read. -/
theorem scanWords_complete (h : Words fs t) (hr : Ends r)
    (hfits : List.Forall₂ (fun f width => f.length ≤ width) fs widths) :
    scanWords widths (t ++ r) = fs := by
  induction h generalizing widths with
  | nil =>
    cases hfits
    rfl
  | @cons w f t fs hw hf ht _ ih =>
    cases hfits with
    | cons hfit hfits =>
      rw [List.append_assoc, List.append_assoc, scanWords, scanWord_spaces hw,
        scanWord_fits hf (ht.append hr) hfit]
      exact congrArg (f :: ·) (ih hfits)

/-- A text that is cut within its words does not give all of them. -/
theorem scanWords_cut (h : Words fs t)
    (hfits : List.Forall₂ (fun f width => f.length ≤ width) fs widths) {n : Nat}
    (hn : n < t.length) : scanWords widths (t.take n) ≠ fs := by
  induction h generalizing widths n with
  | nil => cases hn
  | @cons w f t fs hw hf ht _ ih =>
    cases hfits with
    | @cons _ width _ widths hfit hfits =>
      simp only [List.length_append] at hn
      unfold scanWords
      rcases le_total n w.length with hspace | hword
      · -- only white space is left
        have hnone : scanWord width ((w ++ (f ++ t)).take n) = none := by
          rw [List.take_append_of_le_length hspace]
          exact scanWord_none fun c hc => hw c (List.mem_of_mem_take hc)
        rw [hnone]
        exact List.cons_ne_nil f fs ∘ Eq.symm
      obtain ⟨k, rfl⟩ := Nat.exists_eq_add_of_le hword
      rw [List.take_length_add_append, scanWord_spaces hw]
      rcases lt_or_ge k f.length with hcut | hrest
      · -- the word is cut
        rw [List.take_append_of_le_length hcut.le]
        intro heq
        cases hread : scanWord width (f.take k) with
        | none =>
          rw [hread] at heq
          cases heq
        | some p =>
          rw [hread] at heq
          have hle := (scanWord_length_le (f := p.1) (r := p.2) hread).2
          rw [(List.cons.inj heq).1, List.length_take] at hle
          omega
      · obtain ⟨k, rfl⟩ := Nat.exists_eq_add_of_le hrest
        rw [List.take_length_add_append, scanWord_fits hf (ht.take k) hfit]
        intro heq
        exact ih hfits (by omega) (List.cons.inj heq).2

end Words

end BootableRecovery.Scanf
