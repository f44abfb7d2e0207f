import BootableRecovery.Edify.Parser

/-!
# `edify/expr.c`: the comparison of integers

`less_than_int` and `greater_than_int` evaluate two expressions, convert both strings
with `strtol` and compare the results. What the function of an expression does is a
parameter; `w` is the width of a `long`.

Main results:
* `int_comparison_iff`: for which pairs of strings both functions compare the integers
  that the strings are, and are false when one of them is none.
* `int_comparison_saturates`: two times that a 32-bit `long` does not hold compare as
  equal.
-/

namespace BootableRecovery.Edify

variable {F C : Type}

/-- `State` of `edify/expr.h`; the script is not used here. -/
structure State (C : Type) where
  cookie : C
  errmsg : Option Bytes

/-- `Value` of `edify/expr.h`. -/
inductive Value where
  | VAL_STRING (data : Bytes)
  | VAL_BLOB (data : Bytes)
  deriving DecidableEq, Repr

/-- What a `Function` does with the name and the arguments of an expression. -/
abbrev Function (F C : Type) := Bytes → State C → List (Expr F) → Option Value × State C

def StringValue (str : Bytes) : Value := .VAL_STRING str

section Evaluation

variable (call : Fn F → Function F C)

def EvaluateValue (state : State C) : Expr F → Option Value × State C
  | .node fn name argv _ => call fn name state argv

/-- The string that an expression evaluates to. -/
def Evaluate (state : State C) (expr : Expr F) : Option Bytes × State C :=
  match EvaluateValue call state expr with
  | (none, state) => (none, state)
  | (some (.VAL_BLOB _), state) =>
    (none, { state with errmsg := some (ascii "expecting string, got value type 2") })
  | (some (.VAL_STRING data), state) => (some (cstr data), state)

/-- Evaluate the arguments in order, up to the first that fails. -/
def ReadArgs (state : State C) : List (Expr F) → Option (List Bytes) × State C
  | [] => (some [], state)
  | expr :: argv =>
    match Evaluate call state expr with
    | (none, state) => (none, state)
    | (some arg, state) =>
      match ReadArgs state argv with
      | (none, state) => (none, state)
      | (some args, state) => (some (arg :: args), state)

/-- The `result` of `LessThanIntFn` for two strings. -/
def lessThanInt (w : Nat) (left right : Bytes) : Bool :=
  if left = [] ∨ (strtol w left).2 ≠ [] then false
  else if right = [] ∨ (strtol w right).2 ≠ [] then false
  else decide ((strtol w left).1 < (strtol w right).1)

def LessThanIntFn (w : Nat) : Function F C := fun _ state argv =>
  if argv.length ≠ 2 then
    (none, { state with errmsg := some (ascii "less_than_int expects 2 arguments") })
  else
    match ReadArgs call state argv with
    | (some [left, right], state) =>
      (some (StringValue (if lessThanInt w left right then ascii "t" else [])), state)
    | (_, state) => (none, state)

/-- The arguments are evaluated in the other order. -/
def GreaterThanIntFn (w : Nat) : Function F C := fun name state argv =>
  match argv with
  | [left, right] => LessThanIntFn call w name state [right, left]
  | _ => (none, { state with errmsg := some (ascii "greater_than_int expects 2 arguments") })

/-! ## Integers -/

/-- The strings are decimal integers, the first less than the second. -/
def IntLess (a b : Bytes) : Prop := ∃ x y, decimal a = some x ∧ decimal b = some y ∧ x < y

/-- Both integers lie at or beyond the same end of a `long` of `w` bits. -/
def SameEnd (w : Nat) (x y : Int) : Prop :=
  (2 ^ (w - 1) - 1 ≤ x ∧ 2 ^ (w - 1) - 1 ≤ y) ∨ (x ≤ -2 ^ (w - 1) ∧ y ≤ -2 ^ (w - 1))

/-- The conversion keeps apart what is compared: two different integers do not lie
beyond the same end of a `long`, and strings that are integers only after white space
do not have values that differ in a `long`. -/
def Comparable (w : Nat) (a b : Bytes) : Prop :=
  ∀ x y, decimal (a.dropWhile isSpace) = some x → decimal (b.dropWhile isSpace) = some y →
    if (decimal a).isSome ∧ (decimal b).isSome then x = y ∨ ¬ SameEnd w x y
    else x = y ∨ SameEnd w x y

/-- The function returned a string that is true exactly when `P` is. -/
def ReturnsTruth (r : Option Value × State C) (P : Prop) : Prop :=
  (P ∧ r.1 = some (StringValue (ascii "t"))) ∨ (¬ P ∧ r.1 = some (StringValue []))

/-- The expression evaluates to a string, whatever the state. -/
def Yields (expr : Expr F) (a : Bytes) : Prop :=
  ∀ state, ∃ state', Evaluate call state expr = (some a, state')

variable {call}

theorem clampLong_lt_iff {w : Nat} {x y : Int} :
    clampLong w x < clampLong w y ↔ x < y ∧ ¬ SameEnd w x y := by
  have hpos : (1 : Int) ≤ 2 ^ (w - 1) := one_le_pow₀ (by decide)
  simp only [clampLong, SameEnd]
  generalize (2 : Int) ^ (w - 1) = m at *
  omega

theorem lessThanInt_iff {w : Nat} {a b : Bytes} :
    lessThanInt w a b = true ↔
      ∃ x y, decimal (a.dropWhile isSpace) = some x ∧ decimal (b.dropWhile isSpace) = some y ∧
        clampLong w x < clampLong w y := by
  have hwhole : ∀ s : Bytes, ¬ (s = [] ∨ (strtol w s).2 ≠ []) ↔
      ∃ x, decimal (s.dropWhile isSpace) = some x ∧ (strtol w s).1 = clampLong w x := by
    intro s
    rw [← strtol_whole_iff, not_or, not_not, Prod.ext_iff]
    simp
  constructor
  · intro h
    unfold lessThanInt at h
    split at h
    · cases h
    rename_i hleft
    split at h
    · cases h
    rename_i hright
    obtain ⟨x, hx, hxv⟩ := (hwhole a).mp hleft
    obtain ⟨y, hy, hyv⟩ := (hwhole b).mp hright
    rw [hxv, hyv] at h
    exact ⟨x, y, hx, hy, of_decide_eq_true h⟩
  · rintro ⟨x, y, hx, hy, hlt⟩
    obtain ⟨hne, hxv⟩ := (strtol_whole_iff (w := w)).mpr ⟨x, hx, rfl⟩
    obtain ⟨hne', hyv⟩ := (strtol_whole_iff (w := w)).mpr ⟨y, hy, rfl⟩
    simp [lessThanInt, hxv, hyv, hne, hne', hlt]

/-- Two arguments that evaluate to strings are compared. -/
theorem lessThanIntFn_eq (w : Nat) {e₁ e₂ : Expr F} {a b : Bytes} (h₁ : Yields call e₁ a)
    (h₂ : Yields call e₂ b) (name : Bytes) (state : State C) :
    (LessThanIntFn call w name state [e₁, e₂]).1 =
      some (StringValue (if lessThanInt w a b then ascii "t" else [])) := by
  obtain ⟨state₁, heval₁⟩ := h₁ state
  obtain ⟨state₂, heval₂⟩ := h₂ state₁
  simp [LessThanIntFn, ReadArgs, heval₁, heval₂]

theorem lessThanIntFn_returnsTruth_iff (w : Nat) {e₁ e₂ : Expr F} {a b : Bytes}
    (h₁ : Yields call e₁ a) (h₂ : Yields call e₂ b) (name : Bytes) (state : State C) (P : Prop) :
    ReturnsTruth (LessThanIntFn call w name state [e₁, e₂]) P ↔ (lessThanInt w a b = true ↔ P) := by
  have hne : StringValue (ascii "t") ≠ StringValue [] := by decide
  rw [ReturnsTruth, lessThanIntFn_eq w h₁ h₂]
  by_cases hP : P
  · by_cases hless : lessThanInt w a b = true
    · simp [hP, hless]
    · simp [hP, hless, hne.symm]
  · by_cases hless : lessThanInt w a b = true
    · simp [hP, hless, hne]
    · simp [hP, hless]

theorem sameEnd_comm {w : Nat} {x y : Int} : SameEnd w x y ↔ SameEnd w y x := by
  simp only [SameEnd, and_comm]

/-- A string that is an integer is the same integer after white space. -/
theorem decimal_dropWhile_of_isSome {a : Bytes} (h : (decimal a).isSome) :
    decimal (a.dropWhile isSpace) = decimal a := by
  obtain ⟨x, hx⟩ := Option.isSome_iff_exists.mp h
  rw [dropWhile_isSpace_of_decimal hx]

section Converted

variable {w : Nat} {a b : Bytes} {x y : Int}

theorem lessThanInt_iff_of_decimal (hx : decimal (a.dropWhile isSpace) = some x)
    (hy : decimal (b.dropWhile isSpace) = some y) :
    lessThanInt w a b = true ↔ x < y ∧ ¬ SameEnd w x y := by
  rw [lessThanInt_iff, ← clampLong_lt_iff]
  simp [hx, hy]

/-- Two integers. -/
theorem lessThanInt_both_iff_of_integers (hx : decimal (a.dropWhile isSpace) = some x)
    (hy : decimal (b.dropWhile isSpace) = some y)
    (hboth : (decimal a).isSome ∧ (decimal b).isSome) :
    ((lessThanInt w a b = true ↔ IntLess a b) ∧ (lessThanInt w b a = true ↔ IntLess b a)) ↔
      x = y ∨ ¬ SameEnd w x y := by
  have hxa : decimal a = some x := by rw [← decimal_dropWhile_of_isSome hboth.1, hx]
  have hyb : decimal b = some y := by rw [← decimal_dropWhile_of_isSome hboth.2, hy]
  have hab : IntLess a b ↔ x < y := by simp [IntLess, hxa, hyb]
  have hba : IntLess b a ↔ y < x := by simp [IntLess, hxa, hyb]
  rw [lessThanInt_iff_of_decimal hx hy, lessThanInt_iff_of_decimal hy hx, hab, hba,
    @sameEnd_comm w y x]
  by_cases hsame : SameEnd w x y
  · simp only [hsame, not_true_eq_false, and_false, false_iff, or_false]
    omega
  · simp [hsame]

/-- Two strings that `strtol` takes for numbers, one of which is no integer. -/
theorem lessThanInt_both_iff_of_spaces (hx : decimal (a.dropWhile isSpace) = some x)
    (hy : decimal (b.dropWhile isSpace) = some y)
    (hnot : ¬ ((decimal a).isSome ∧ (decimal b).isSome)) :
    ((lessThanInt w a b = true ↔ IntLess a b) ∧ (lessThanInt w b a = true ↔ IntLess b a)) ↔
      x = y ∨ SameEnd w x y := by
  have hab : ¬ IntLess a b := fun ⟨_, _, ha, hb, _⟩ => hnot (by simp [ha, hb])
  have hba : ¬ IntLess b a := fun ⟨_, _, hb, ha, _⟩ => hnot (by simp [ha, hb])
  rw [lessThanInt_iff_of_decimal hx hy, lessThanInt_iff_of_decimal hy hx,
    @sameEnd_comm w y x]
  by_cases hsame : SameEnd w x y
  · simp [hsame, hab, hba]
  · simp only [hsame, not_false_eq_true, and_true, hab, hba, iff_false, or_false]
    omega

end Converted

/-- The conversion of two strings gives the order of the integers in both directions. -/
theorem lessThanInt_both_iff (w : Nat) (a b : Bytes) :
    ((lessThanInt w a b = true ↔ IntLess a b) ∧ (lessThanInt w b a = true ↔ IntLess b a)) ↔
      Comparable w a b := by
  have hrefused : (∀ x y, decimal (a.dropWhile isSpace) = some x →
      decimal (b.dropWhile isSpace) = some y → False) →
      ((lessThanInt w a b = true ↔ IntLess a b) ∧ (lessThanInt w b a = true ↔ IntLess b a)) := by
    intro hno
    have hab : ¬ lessThanInt w a b = true := by
      rw [lessThanInt_iff]
      exact fun ⟨x, y, hx, hy, _⟩ => hno x y hx hy
    have hba : ¬ lessThanInt w b a = true := by
      rw [lessThanInt_iff]
      exact fun ⟨y, x, hy, hx, _⟩ => hno x y hx hy
    refine ⟨iff_of_false hab ?_, iff_of_false hba ?_⟩
    · rintro ⟨x, y, hx, hy, -⟩
      exact hno x y (by rw [dropWhile_isSpace_of_decimal hx, hx])
        (by rw [dropWhile_isSpace_of_decimal hy, hy])
    · rintro ⟨y, x, hy, hx, -⟩
      exact hno x y (by rw [dropWhile_isSpace_of_decimal hx, hx])
        (by rw [dropWhile_isSpace_of_decimal hy, hy])
  by_cases htaken : ∃ x y, decimal (a.dropWhile isSpace) = some x ∧
      decimal (b.dropWhile isSpace) = some y
  · obtain ⟨x, y, hx, hy⟩ := htaken
    by_cases hboth : (decimal a).isSome ∧ (decimal b).isSome
    · rw [lessThanInt_both_iff_of_integers hx hy hboth]
      simp [Comparable, hx, hy, hboth]
    · rw [lessThanInt_both_iff_of_spaces hx hy hboth]
      simp [Comparable, hx, hy, hboth]
  · have hno : ∀ x y, decimal (a.dropWhile isSpace) = some x →
        decimal (b.dropWhile isSpace) = some y → False := fun x y hx hy => htaken ⟨x, y, hx, hy⟩
    exact iff_of_true (hrefused hno) fun x y hx hy => (hno x y hx hy).elim

/-- `less_than_int` and `greater_than_int` compare integers, and are false for strings
that are none, exactly when the conversion keeps the two strings apart. -/
theorem int_comparison_iff (w : Nat) {e₁ e₂ : Expr F} {a b : Bytes} (h₁ : Yields call e₁ a)
    (h₂ : Yields call e₂ b) (name : Bytes) (state : State C) :
    (ReturnsTruth (LessThanIntFn call w name state [e₁, e₂]) (IntLess a b) ∧
      ReturnsTruth (GreaterThanIntFn call w name state [e₁, e₂]) (IntLess b a)) ↔
      Comparable w a b := by
  rw [lessThanIntFn_returnsTruth_iff w h₁ h₂, ← lessThanInt_both_iff]
  rw [GreaterThanIntFn, lessThanIntFn_returnsTruth_iff w h₂ h₁]

end Evaluation

/-- The expression for a literal of the script, with a table of functions in which
`Literal` returns its name. -/
def literalExpr (str : Bytes) : Expr Unit := .literal str ⟨0, 0⟩

def literalCall : Fn Unit → Function Unit Unit := fun _ name state _ =>
  (some (StringValue name), state)

theorem literalExpr_yields {str : Bytes} (h : cstr str = str) :
    Yields literalCall (literalExpr str) str := by
  intro state
  refine ⟨state, ?_⟩
  simp [Evaluate, EvaluateValue, literalExpr, Expr.literal, literalCall, StringValue, h]

theorem int_comparison_iff_literals :
    (ReturnsTruth (LessThanIntFn literalCall 32 [] ⟨(), none⟩
        [literalExpr (ascii "-3"), literalExpr (ascii "14")]) (IntLess (ascii "-3") (ascii "14")) ∧
      ReturnsTruth (GreaterThanIntFn literalCall 32 [] ⟨(), none⟩
        [literalExpr (ascii "-3"), literalExpr (ascii "14")])
        (IntLess (ascii "14") (ascii "-3"))) ↔
      Comparable 32 (ascii "-3") (ascii "14") :=
  int_comparison_iff 32 (literalExpr_yields (by decide)) (literalExpr_yields (by decide)) _ _

/-- Two build times in milliseconds: a 32-bit `long` holds neither, so that none is
less than the other. -/
theorem int_comparison_saturates :
    decimal (ascii "1315000000000") = some 1315000000000 ∧
      decimal (ascii "1320000000000") = some 1320000000000 ∧
      (LessThanIntFn literalCall 32 [] ⟨(), none⟩
        [literalExpr (ascii "1315000000000"), literalExpr (ascii "1320000000000")]).1 =
        some (StringValue []) ∧
      ¬ ReturnsTruth (LessThanIntFn literalCall 32 [] ⟨(), none⟩
        [literalExpr (ascii "1315000000000"), literalExpr (ascii "1320000000000")])
        (IntLess (ascii "1315000000000") (ascii "1320000000000")) := by
  have hx : decimal (ascii "1315000000000") = some 1315000000000 := by decide
  have hy : decimal (ascii "1320000000000") = some 1320000000000 := by decide
  have hret : (LessThanIntFn literalCall 32 [] ⟨(), none⟩
      [literalExpr (ascii "1315000000000"), literalExpr (ascii "1320000000000")]).1 =
      some (StringValue []) := by decide
  refine ⟨hx, hy, hret, ?_⟩
  rintro (⟨-, h⟩ | ⟨h, -⟩)
  · rw [hret] at h
    exact absurd h (by decide)
  · exact h ⟨_, _, hx, hy, by decide⟩

end BootableRecovery.Edify
