import BootableRecovery.Lib.CString

/-!
# Numbers as text

The conversions `%o`, `%d` and `%lu` of `printf`, and the number that `atoi` and
`strtol` read at the start of a string.

* `atoi_printInt`: a number that was printed is read again.
* `strtol_whole_iff`: `strtol` takes a whole string for a number exactly when it is
  a decimal one after leading white space, and limits its value to a `long`.
* `readNat_printNat`: digits of another base, read as decimal ones.

Nothing in this module mentions the programs that are verified.
-/

namespace BootableRecovery

/-- The character of a digit below 10. -/
def digitChar (d : Nat) : UInt8 := UInt8.ofNat (48 + d)

def isDigit (c : UInt8) : Bool := 48 ≤ c && c ≤ 57

/-- `isspace`. -/
def isSpace (c : UInt8) : Bool := c == 32 || (9 ≤ c && c ≤ 13)

/-- `%o` for base 8 and `%lu` for base 10. -/
def printNat (base n : Nat) : Bytes :=
  if n = 0 then [48] else (Nat.digits base n).reverse.map digitChar

/-- `%d`. -/
def printInt (n : Int) : Bytes :=
  if n < 0 then 45 :: printNat 10 n.natAbs else printNat 10 n.natAbs

/-- The decimal number at the start of a string. -/
def readNat (s : Bytes) : Nat := (s.takeWhile isDigit).foldl (fun n c => 10 * n + (c.toNat - 48)) 0

/-- `atoi`, and `strtol` in base 10, for numbers in range. -/
def atoi (s : Bytes) : Int :=
  match s.dropWhile isSpace with
  | 45 :: s => -(readNat s : Int)
  | 43 :: s => readNat s
  | s => readNat s

/-! ## Digits -/

theorem digitChar_toNat {d : Nat} (h : d < 10) : (digitChar d).toNat = 48 + d := by
  unfold digitChar
  rw [UInt8.toNat_ofNat', Nat.mod_eq_of_lt (by omega)]

theorem isDigit_iff (c : UInt8) : isDigit c = true ↔ 48 ≤ c.toNat ∧ c.toNat ≤ 57 := by
  unfold isDigit
  simp only [Bool.and_eq_true, decide_eq_true_eq, UInt8.le_iff_toNat_le]
  rfl

theorem isDigit_digitChar {d : Nat} (h : d < 10) : isDigit (digitChar d) = true := by
  rw [isDigit_iff, digitChar_toNat h]
  omega

variable {base n : Nat}

theorem printNat_ne_nil : printNat base n ≠ [] := by
  unfold printNat
  split
  · simp
  · rename_i h
    simpa using Nat.digits_ne_nil_iff_ne_zero.mpr h

/-- A printed number consists of digits. -/
theorem isDigit_of_mem_printNat (hbase : 1 < base) (hle : base ≤ 10) {c : UInt8}
    (h : c ∈ printNat base n) : isDigit c = true := by
  unfold printNat at h
  split at h
  · rw [List.mem_singleton.mp h]
    decide
  · obtain ⟨d, hd, rfl⟩ := List.mem_map.mp h
    have hlt := Nat.digits_lt_base hbase (List.mem_reverse.mp hd)
    exact isDigit_digitChar (by omega)

theorem printNat_length_le (hbase : 1 < base) {k : Nat} (hk : 0 < k) (h : n < base ^ k) :
    (printNat base n).length ≤ k := by
  unfold printNat
  split
  · exact hk
  · rw [List.length_map, List.length_reverse]
    exact (Nat.digits_length_le_iff hbase n).mpr h

/-- Digits that are read as decimal ones. -/
theorem foldl_digitChar (ds : List Nat) (h : ∀ d ∈ ds, d < 10) :
    (ds.reverse.map digitChar).foldl (fun n c => 10 * n + (c.toNat - 48)) 0 =
      Nat.ofDigits 10 ds := by
  induction ds with
  | nil => rfl
  | cons d ds ih =>
    have hd := h d (List.mem_cons_self ..)
    have hds := ih fun d' hd' => h d' (List.mem_cons_of_mem _ hd')
    rw [List.reverse_cons, List.map_append, List.foldl_append, hds, Nat.ofDigits_cons]
    simp only [List.map_cons, List.map_nil, List.foldl_cons, List.foldl_nil, digitChar_toNat hd]
    omega

/-- Reading a printed number that is followed by something that is no digit. -/
theorem readNat_printNat (hbase : 1 < base) (hle : base ≤ 10) {rest : Bytes}
    (hrest : ∀ c ∈ rest.head?, isDigit c = false) :
    readNat (printNat base n ++ rest) = Nat.ofDigits 10 (Nat.digits base n) := by
  have hall : ∀ c ∈ printNat base n, isDigit c = true := fun c hc =>
    isDigit_of_mem_printNat hbase hle hc
  have hstop : rest.takeWhile isDigit = [] := by
    cases rest with
    | nil => rfl
    | cons c rest =>
      have hc : isDigit c = false := hrest c rfl
      simp [hc]
  unfold readNat
  rw [List.takeWhile_append_of_pos hall, hstop, List.append_nil]
  unfold printNat
  split
  · rename_i h
    subst h
    simp
  · exact foldl_digitChar _ fun d hd => lt_of_lt_of_le (Nat.digits_lt_base hbase hd) hle

theorem readNat_printNat_ten {rest : Bytes} (hrest : ∀ c ∈ rest.head?, isDigit c = false) :
    readNat (printNat 10 n ++ rest) = n := by
  rw [readNat_printNat (by omega) le_rfl hrest, Nat.ofDigits_digits]

/-- A digit is no sign and no space. -/
theorem atoi_of_isDigit {c : UInt8} (h : isDigit c = true) (s : Bytes) :
    atoi (c :: s) = readNat (c :: s) := by
  rw [isDigit_iff] at h
  have hspace : isSpace c = false := by
    unfold isSpace
    simp only [Bool.or_eq_false_iff, beq_eq_false_iff_ne, ne_eq, Bool.and_eq_false_iff,
      decide_eq_false_iff_not, UInt8.le_iff_toNat_le]
    refine ⟨fun hc => ?_, .inr ?_⟩
    · rw [hc] at h
      exact absurd h.1 (by decide)
    · rw [show (13 : UInt8).toNat = 13 from rfl]
      omega
  have h45 : c ≠ 45 := fun hc => by rw [hc] at h; exact absurd h.1 (by decide)
  have h43 : c ≠ 43 := fun hc => by rw [hc] at h; exact absurd h.1 (by decide)
  unfold atoi
  rw [List.dropWhile_cons_of_neg (by simp [hspace])]
  split
  · rename_i heq
    exact absurd (List.cons.inj heq).1 h45
  · rename_i heq
    exact absurd (List.cons.inj heq).1 h43
  · rfl

theorem atoi_printNat (hbase : 1 < base) (hle : base ≤ 10) (rest : Bytes)
    (hrest : ∀ c ∈ rest.head?, isDigit c = false) :
    atoi (printNat base n ++ rest) = ((Nat.ofDigits 10 (Nat.digits base n) : Nat) : Int) := by
  have hread := readNat_printNat (n := n) hbase hle hrest
  cases hp : printNat base n with
  | nil => exact absurd hp printNat_ne_nil
  | cons c s =>
    have hc : isDigit c = true := isDigit_of_mem_printNat hbase hle (by
      rw [hp]
      exact List.mem_cons_self ..)
    rw [hp] at hread
    rw [List.cons_append, atoi_of_isDigit hc, ← List.cons_append, hread]

/-- A printed number is read again. -/
theorem atoi_printInt (n : Int) {rest : Bytes} (hrest : ∀ c ∈ rest.head?, isDigit c = false) :
    atoi (printInt n ++ rest) = n := by
  unfold printInt
  split
  · have hread : readNat (printNat 10 n.natAbs ++ rest) = n.natAbs := readNat_printNat_ten hrest
    have hminus : atoi (45 :: (printNat 10 n.natAbs ++ rest)) =
        -(readNat (printNat 10 n.natAbs ++ rest) : Int) := rfl
    rw [List.cons_append, hminus, hread]
    omega
  · rw [atoi_printNat (by omega) le_rfl rest hrest, Nat.ofDigits_digits]
    omega

theorem mem_printInt {n : Int} {c : UInt8} (h : c ∈ printInt n) : c = 45 ∨ isDigit c = true := by
  unfold printInt at h
  split at h
  · rcases List.mem_cons.mp h with h | h
    · exact .inl h
    · exact .inr (isDigit_of_mem_printNat (by omega) le_rfl h)
  · exact .inr (isDigit_of_mem_printNat (by omega) le_rfl h)

theorem printInt_length_le {n : Int} {k : Nat} (hk : 0 < k) (h : n.natAbs < 10 ^ k) :
    (printInt n).length ≤ k + 1 := by
  have hlen := printNat_length_le (by omega) hk h
  unfold printInt
  split
  · rw [List.length_cons]
    omega
  · omega

/-! ## Whole strings -/

/-- The value of a string of one or more digits. -/
def decimalNat (s : Bytes) : Option Nat :=
  if s ≠ [] ∧ s.all isDigit then some (readNat s) else none

/-- The value of a decimal integer: an optional sign and one or more digits. -/
def decimal : Bytes → Option Int
  | 45 :: s => (decimalNat s).map fun n : Nat => -(n : Int)
  | 43 :: s => (decimalNat s).map fun n : Nat => (n : Int)
  | s => (decimalNat s).map fun n : Nat => (n : Int)

/-- The value of an integer when it is limited to a `long` of `w` bits. -/
def clampLong (w : Nat) (x : Int) : Int := max (-2 ^ (w - 1)) (min (2 ^ (w - 1) - 1) x)

/-- What follows white space and a sign. -/
def afterSign (s : Bytes) : Bytes :=
  match s.dropWhile isSpace with
  | 45 :: s => s
  | 43 :: s => s
  | s => s

/-- `strtol(s, &end, 10)` for a `long` of `w` bits: the value and the string at
`end`. -/
def strtol (w : Nat) (s : Bytes) : Int × Bytes :=
  if (afterSign s).takeWhile isDigit = [] then (0, s)
  else (clampLong w (atoi s), (afterSign s).dropWhile isDigit)

theorem decimalNat_eq_some_iff {s : Bytes} {n : Nat} :
    decimalNat s = some n ↔
      s.takeWhile isDigit ≠ [] ∧ s.dropWhile isDigit = [] ∧ readNat s = n := by
  have hall : s.all isDigit = true ↔ s.dropWhile isDigit = [] := by
    rw [List.all_eq_true, List.dropWhile_eq_nil_iff]
  have hne : s.dropWhile isDigit = [] → (s ≠ [] ↔ s.takeWhile isDigit ≠ []) := by
    intro hrest
    have hsplit : s.takeWhile isDigit ++ s.dropWhile isDigit = s :=
      List.takeWhile_append_dropWhile
    rw [hrest, List.append_nil] at hsplit
    rw [hsplit]
  unfold decimalNat
  by_cases hrest : s.dropWhile isDigit = []
  · by_cases hnil : s = []
    · simp [hnil]
    · simp [hall.mpr hrest, hrest, hnil, (hne hrest).mp hnil]
  · have hfalse : ¬ (s ≠ [] ∧ s.all isDigit = true) := fun h => hrest (hall.mp h.2)
    rw [if_neg hfalse]
    simp [hrest]

/-- No decimal integer begins with white space. -/
theorem dropWhile_isSpace_of_decimal {s : Bytes} {x : Int} (h : decimal s = some x) :
    s.dropWhile isSpace = s := by
  cases s with
  | nil => rfl
  | cons c s =>
    refine List.dropWhile_cons_of_neg ?_
    intro hspace
    unfold decimal at h
    split at h
    · rename_i heq
      rw [(List.cons.inj heq).1] at hspace
      exact absurd hspace (by decide)
    · rename_i heq
      rw [(List.cons.inj heq).1] at hspace
      exact absurd hspace (by decide)
    · obtain ⟨n, hn, -⟩ := Option.map_eq_some_iff.mp h
      have hdigit : isDigit c = true := by
        by_contra hno
        exact (decimalNat_eq_some_iff.mp hn).1 (List.takeWhile_cons_of_neg hno)
      rw [isDigit_iff] at hdigit
      simp only [isSpace, Bool.or_eq_true, beq_iff_eq, Bool.and_eq_true, decide_eq_true_eq,
        UInt8.le_iff_toNat_le] at hspace
      rcases hspace with rfl | ⟨-, hle⟩
      · exact absurd hdigit.1 (by decide)
      · rw [show (13 : UInt8).toNat = 13 from rfl] at hle
        omega

/-- `strtol` takes the whole of a string for a number. -/
theorem strtol_whole_iff {w : Nat} {s : Bytes} {v : Int} :
    s ≠ [] ∧ strtol w s = (v, []) ↔
      ∃ x, decimal (s.dropWhile isSpace) = some x ∧ v = clampLong w x := by
  have hmap : ∀ (t : Bytes) (f : Nat → Int), afterSign s = t → atoi s = f (readNat t) →
      (s ≠ [] ∧ strtol w s = (v, []) ↔
        ∃ x, (decimalNat t).map f = some x ∧ v = clampLong w x) := by
    intro t f ht hf
    simp only [strtol, ht, hf, Option.map_eq_some_iff, decimalNat_eq_some_iff]
    by_cases hdigits : t.takeWhile isDigit = []
    · simp only [hdigits, if_true, Prod.mk.injEq, ne_eq, not_true_eq_false, false_and,
        exists_const, iff_false, not_and]
      exact fun hne _ => hne
    · simp only [if_neg hdigits, Prod.mk.injEq]
      constructor
      · rintro ⟨-, rfl, hrest⟩
        exact ⟨_, ⟨_, ⟨hdigits, hrest, rfl⟩, rfl⟩, rfl⟩
      · rintro ⟨_, ⟨_, ⟨-, hrest, rfl⟩, rfl⟩, rfl⟩
        refine ⟨?_, rfl, hrest⟩
        rintro rfl
        exact hdigits (by rw [← ht]; rfl)
  unfold decimal
  split
  · rename_i t heq
    refine hmap t (fun n => -(n : Int)) ?_ ?_
    · simp only [afterSign, heq]
    · simp only [atoi, heq]
  · rename_i t heq
    refine hmap t (fun n => (n : Int)) ?_ ?_
    · simp only [afterSign, heq]
    · simp only [atoi, heq]
  · rename_i hminus hplus
    refine hmap _ (fun n => (n : Int)) ?_ ?_
    · unfold afterSign
      split
      · rename_i heq
        exact absurd heq (hminus _)
      · rename_i heq
        exact absurd heq (hplus _)
      · rfl
    · unfold atoi
      split
      · rename_i heq
        exact absurd heq (hminus _)
      · rename_i heq
        exact absurd heq (hplus _)
      · rfl

/-! ## Unsigned numbers -/

/-- `strtoul(s, &end, 10)` for an `unsigned long` of `w` bits: the value and the string at
`end`. -/
def strtoul (w : Nat) (s : Bytes) : Nat × Bytes :=
  if (afterSign s).takeWhile isDigit = [] then (0, s)
  else
    (if 2 ^ w ≤ (atoi s).natAbs then 2 ^ w - 1 else (atoi s % 2 ^ w).toNat,
      (afterSign s).dropWhile isDigit)

theorem readNat_lt (s : Bytes) : readNat s < 10 ^ (s.takeWhile isDigit).length := by
  have hdigit : ∀ c ∈ s.takeWhile isDigit, isDigit c = true := fun c hc => List.mem_takeWhile_imp hc
  unfold readNat
  generalize s.takeWhile isDigit = ds at *
  induction ds using List.reverseRecOn with
  | nil => simp
  | append_singleton ds c ih =>
    have hc := (isDigit_iff c).mp (hdigit c (by simp))
    have hds := ih fun d hd => hdigit d (by simp [hd])
    rw [List.foldl_append, List.length_append, List.length_singleton, Nat.pow_succ]
    simp only [List.foldl_cons, List.foldl_nil]
    omega

/-- The number is minus or plus the digits. -/
theorem natAbs_atoi (s : Bytes) : (atoi s).natAbs = readNat (afterSign s) := by
  unfold atoi afterSign
  split <;> simp

theorem afterSign_suffix (s : Bytes) : afterSign s <:+ s := by
  have hdrop : s.dropWhile isSpace <:+ s := List.dropWhile_suffix _
  unfold afterSign
  split
  · rename_i heq
    exact (List.suffix_cons _ _).trans (heq ▸ hdrop)
  · rename_i heq
    exact (List.suffix_cons _ _).trans (heq ▸ hdrop)
  · exact hdrop

theorem strtoul_suffix (w : Nat) (s : Bytes) : (strtoul w s).2 <:+ s := by
  unfold strtoul
  split
  · exact List.suffix_rfl
  · exact (List.dropWhile_suffix _).trans (afterSign_suffix s)

/-- Where no number is read. -/
theorem strtoul_eq_zero {w : Nat} {s : Bytes} (h : (strtoul w s).2 = s) : (strtoul w s).1 = 0 := by
  unfold strtoul at h ⊢
  split
  · rfl
  · rename_i hdigits
    rw [if_neg hdigits] at h
    have hsplit := congrArg List.length
      (List.takeWhile_append_dropWhile (p := isDigit) (l := afterSign s))
    have hle := (afterSign_suffix s).length_le
    have hpos := List.length_pos_iff.mpr hdigits
    rw [List.length_append] at hsplit
    have hlen := congrArg List.length h
    simp only at hlen
    omega

end BootableRecovery
