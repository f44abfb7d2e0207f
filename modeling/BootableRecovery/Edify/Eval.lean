import BootableRecovery.Lib.Abortable
import BootableRecovery.Lib.Substring
import BootableRecovery.Edify.Compare
import BootableRecovery.Edify.Ranges

/-!
# `edify/expr.c`: evaluation

`EvaluateValue` with the literal, the operators and the functions of `RegisterBuiltins`.
What a program registers besides is a parameter. The arguments of a function are
computations: it evaluates those that it wants, in the order that it wants. `w` is the width
of a `long`.

Main results:
* `evaluateValue_keeps`: what the built-in functions and those of the program keep, every
  expression keeps.
* `evaluate_stops`: after the first error nothing else happens, and the whole evaluation
  returns NULL, with a message.
* `evaluate_returns`: an expression whose calls have the arguments that they index does not
  read behind an array.
-/

namespace BootableRecovery.Edify.Eval

open Abortable

variable {G C : Type}

/-- `Value`; a blob that could not be made has no data, and the size -1. -/
inductive Value where
  | VAL_STRING (data : Bytes)
  | VAL_BLOB (data : Option Bytes)
  deriving DecidableEq, Repr

def StringValue (str : Bytes) : Value := .VAL_STRING str

/-- What a script does. The program does not keep `aborted`, which is an error with its message,
if it has one, and what `state->cookie` points to at that time. -/
inductive Event (C : Type) where
  | stdout (str : Bytes)
  | stderr (str : Bytes)
  | sleep (seconds : Nat)
  | aborted (errmsg : Option Bytes) (cookie : C)
  deriving DecidableEq, Repr

def Event.isAborted : Event C → Bool
  | .aborted .. => true
  | _ => false

/-- `State` without the script, which does not change, and what has happened so far. -/
structure World (C : Type) where
  cookie : C
  errmsg : Option Bytes
  log : List (Event C)
  deriving DecidableEq, Repr

abbrev Comp (C α : Type) := Abortable (World C) α

/-- An argument of a function: its place in the script, and `EvaluateValue` of it. -/
structure Arg (C : Type) where
  loc : YYLTYPE
  value : Comp C Value

/-- The functions of `RegisterBuiltins`, and those that a program registers. -/
inductive Builtin (G : Type) where
  | IfElseFn
  | AbortFn
  | AssertFn
  | ConcatFn
  | SubstringFn
  | StdoutFn
  | SleepFn
  | LessThanIntFn
  | GreaterThanIntFn
  | other (g : G)
  deriving DecidableEq, Repr

def World.emit (w : World C) (ev : Event C) : World C := { w with log := w.log ++ [ev] }

def World.abort (w : World C) (msg : Bytes) : World C :=
  { w with errmsg := some msg, log := w.log ++ [.aborted (some msg) w.cookie] }

def World.giveUp (w : World C) : World C := { w with log := w.log ++ [.aborted none w.cookie] }

def emit (ev : Event C) : Comp C Unit := act fun w => w.emit ev

/-- Set `state->errmsg` and return NULL. -/
def errorAbort {α : Type} (msg : Bytes) : Comp C α := do
  act fun w => w.abort msg
  abort

/-- Return NULL without a message. -/
def giveUp {α : Type} : Comp C α := do
  act World.giveUp
  abort

/-- `argv[i]`; there is nothing behind the last argument. -/
def argAt (argv : List (Arg C)) (i : Nat) : Comp C (Arg C) :=
  match argv[i]? with
  | some a => ret a
  | none => fault

/-! ## The functions -/

def BooleanString (s : Bytes) : Bool := s ≠ []

def truth (b : Bool) : Value := StringValue (if b then ascii "t" else [])

/-- `Evaluate` -/
def Evaluate (a : Arg C) : Comp C Bytes := do
  match ← a.value with
  | .VAL_STRING data => ret (cstr data)
  | .VAL_BLOB _ => errorAbort (ascii "expecting string, got value type 2")

def ConcatFn (argv : List (Arg C)) : Comp C Value := do
  let strings ← gather (argv.map Evaluate)
  ret (StringValue strings.flatten)

def IfElseFn (argv : List (Arg C)) : Comp C Value :=
  if argv.length ≠ 2 ∧ argv.length ≠ 3 then errorAbort (ascii "ifelse expects 2 or 3 arguments")
  else do
    let cond ← Evaluate (← argAt argv 0)
    if BooleanString cond then (← argAt argv 1).value
    else if argv.length = 3 then (← argAt argv 2).value
    else ret (StringValue cond)

def AbortFn : List (Arg C) → Comp C Value
  | [] => errorAbort (ascii "called abort()")
  | a :: _ => do
    let msg ← attempt (Evaluate a)
    errorAbort (msg.getD (ascii "called abort()"))

/-- The bytes of the script that `AssertFn` copies. -/
def quoteSource (script : Bytes) (loc : YYLTYPE) : Outcome Bytes :=
  if loc.start ≤ loc.end_ then load script loc.start (loc.end_ - loc.start) else .fault

def AssertFn (script : Bytes) : List (Arg C) → Comp C Value
  | [] => ret (StringValue [])
  | a :: argv => do
    let v ← Evaluate a
    if BooleanString v then AssertFn script argv
    else do
      let src ← lift (quoteSource script a.loc)
      errorAbort (ascii "assert failed: " ++ src)

def SleepFn (w : Nat) (argv : List (Arg C)) : Comp C Value := do
  let val ← Evaluate (← argAt argv 0)
  emit (.sleep (toU32 (strtol w val).1))
  ret (StringValue val)

def StdoutFn : List (Arg C) → Comp C Value
  | [] => ret (StringValue [])
  | a :: argv => do
    let v ← Evaluate a
    emit (.stdout v)
    StdoutFn argv

def LogicalAndFn (argv : List (Arg C)) : Comp C Value := do
  let left ← Evaluate (← argAt argv 0)
  if BooleanString left then (← argAt argv 1).value else ret (StringValue left)

def LogicalOrFn (argv : List (Arg C)) : Comp C Value := do
  let left ← Evaluate (← argAt argv 0)
  if BooleanString left then ret (StringValue left) else (← argAt argv 1).value

def LogicalNotFn (argv : List (Arg C)) : Comp C Value := do
  let val ← Evaluate (← argAt argv 0)
  ret (truth !BooleanString val)

/-- `SubstringFn`, `EqualityFn` and `InequalityFn` evaluate two strings and compare them. -/
def compareFn (test : Bytes → Bytes → Bool) (argv : List (Arg C)) : Comp C Value := do
  let left ← Evaluate (← argAt argv 0)
  let right ← Evaluate (← argAt argv 1)
  ret (truth (test left right))

def SubstringFn : List (Arg C) → Comp C Value :=
  compareFn fun needle haystack => (strstr needle haystack).isSome

def EqualityFn : List (Arg C) → Comp C Value := compareFn fun left right => left = right

def InequalityFn : List (Arg C) → Comp C Value := compareFn fun left right => left ≠ right

def SequenceFn (argv : List (Arg C)) : Comp C Value := do
  let _ ← (← argAt argv 0).value
  (← argAt argv 1).value

/-- `strtol` does not read a string or leaves something of it. -/
def notInt (w : Nat) (s : Bytes) : Bool := s = [] ∨ (strtol w s).2 ≠ []

/-- What `LessThanIntFn` prints for two strings. -/
def reportNotInt (w : Nat) (left right : Bytes) : Comp C Unit :=
  if notInt w left then emit (.stderr (ascii "[" ++ left ++ ascii "] is not an int\n"))
  else if notInt w right then emit (.stderr (ascii "[" ++ right ++ ascii "] is not an int\n"))
  else ret ()

/-- `LessThanIntFn` behind the test of `argc` -/
def lessThan (w : Nat) (left right : Arg C) : Comp C Value := do
  let l ← Evaluate left
  let r ← Evaluate right
  reportNotInt w l r
  ret (truth (lessThanInt w l r))

def LessThanIntFn (w : Nat) : List (Arg C) → Comp C Value
  | [left, right] => lessThan w left right
  | _ => errorAbort (ascii "less_than_int expects 2 arguments")

def GreaterThanIntFn (w : Nat) : List (Arg C) → Comp C Value
  | [left, right] => lessThan w right left
  | _ => errorAbort (ascii "greater_than_int expects 2 arguments")

def Literal (name : Bytes) : Comp C Value := ret (StringValue (cstr name))

/-! ## Expressions -/

section Interpreter

variable (w : Nat) (script : Bytes) (call : G → Bytes → List (Arg C) → Comp C Value)

/-- `expr->fn(expr->name, state, expr->argc, expr->argv)` -/
def apply (name : Bytes) (argv : List (Arg C)) : Fn (Builtin G) → Comp C Value
  | .Literal => Literal name
  | .SequenceFn => SequenceFn argv
  | .ConcatFn => ConcatFn argv
  | .EqualityFn => EqualityFn argv
  | .InequalityFn => InequalityFn argv
  | .LogicalAndFn => LogicalAndFn argv
  | .LogicalOrFn => LogicalOrFn argv
  | .LogicalNotFn => LogicalNotFn argv
  | .IfElseFn => IfElseFn argv
  | .found .IfElseFn => IfElseFn argv
  | .found .AbortFn => AbortFn argv
  | .found .AssertFn => AssertFn script argv
  | .found .ConcatFn => ConcatFn argv
  | .found .SubstringFn => SubstringFn argv
  | .found .StdoutFn => StdoutFn argv
  | .found .SleepFn => SleepFn w argv
  | .found .LessThanIntFn => LessThanIntFn w argv
  | .found .GreaterThanIntFn => GreaterThanIntFn w argv
  | .found (.other g) => call g name argv

mutual

def EvaluateValue : Expr (Builtin G) → Comp C Value
  | .node fn name argv _ => apply w script call name (arguments argv) fn

def arguments : List (Expr (Builtin G)) → List (Arg C)
  | [] => []
  | e :: argv => ⟨e.loc, EvaluateValue e⟩ :: arguments argv

end

/-- `Evaluate(&state, root)` -/
def evaluateRoot (root : Expr (Builtin G)) : Comp C Bytes :=
  Evaluate ⟨root.loc, EvaluateValue w script call root⟩

end Interpreter

/-! ## What every expression keeps -/

/-- `P` outlives what the functions do, and `R` holds from the first error on. -/
structure Admits (P R : World C → Prop) : Prop where
  emit : ∀ w ev, ev.isAborted = false → P w → P (w.emit ev)
  abort : ∀ w msg, P w ∨ R w → R (w.abort msg)
  giveUp : ∀ w, P w → R w.giveUp

/-- How many arguments a function reads without a look at `argc`. -/
def arity : Fn (Builtin G) → Nat
  | .SequenceFn => 2
  | .EqualityFn => 2
  | .InequalityFn => 2
  | .LogicalAndFn => 2
  | .LogicalOrFn => 2
  | .LogicalNotFn => 1
  | .found .SubstringFn => 2
  | .found .SleepFn => 1
  | _ => 0

/-- The call has the arguments that the function reads, and `assert` can quote its
arguments. -/
structure Ready (script : Bytes) (fn : Fn (Builtin G)) (locs : List YYLTYPE) : Prop where
  arity : arity fn ≤ locs.length
  quote : fn = .found .AssertFn → ∀ loc ∈ locs, ∃ src, quoteSource script loc = .done src

section Keeping

variable {P R : World C → Prop} {X : Prop} {w : Nat} {script : Bytes} {argv : List (Arg C)}

theorem emit_keeps (h : Admits P R) {ev : Event C} (hev : ev.isAborted = false) :
    Keeps P (emit ev) R X :=
  .act fun s hs => h.emit s ev hev hs

theorem errorAbort_keeps {α : Type} (h : Admits P R) (msg : Bytes) :
    Keeps P (errorAbort msg : Comp C α) R X :=
  fun s hs => h.abort s msg (.inl hs)

theorem giveUp_keeps {α : Type} (h : Admits P R) : Keeps P (giveUp : Comp C α) R X :=
  fun s hs => h.giveUp s hs

theorem argAt_keeps {α : Type} {i : Nat} (hi : X ∨ i < argv.length) {f : Arg C → Comp C α}
    (hf : ∀ a ∈ argv, Keeps P (f a) R X) : Keeps P (argAt argv i >>= f) R X := by
  unfold argAt
  cases hget : argv[i]? with
  | some a => exact hf a (List.mem_of_getElem? hget)
  | none =>
    have hX : X := hi.resolve_right fun hlt => by simp [List.getElem?_eq_getElem hlt] at hget
    exact fun _ _ => hX

variable (h : Admits P R) (hargs : ∀ a ∈ argv, Keeps P a.value R X)

include h

theorem evaluate_keeps {a : Arg C} (ha : Keeps P a.value R X) : Keeps P (Evaluate a) R X := by
  unfold Evaluate
  refine ha.bind fun v => ?_
  cases v with
  | VAL_STRING data => exact .ret _
  | VAL_BLOB data => exact errorAbort_keeps h _

include hargs

theorem concatFn_keeps : Keeps P (ConcatFn argv) R X := by
  unfold ConcatFn
  refine Keeps.bind (.gather fun m hm => ?_) fun strings => .ret _
  obtain ⟨a, ha, rfl⟩ := List.mem_map.mp hm
  exact evaluate_keeps h (hargs a ha)

theorem ifElseFn_keeps : Keeps P (IfElseFn argv) R X := by
  unfold IfElseFn
  split
  · exact errorAbort_keeps h _
  · refine argAt_keeps (.inr (by omega)) fun a ha => ?_
    refine (evaluate_keeps h (hargs a ha)).bind fun cond => ?_
    split_ifs
    · exact argAt_keeps (.inr (by omega)) fun a ha => hargs a ha
    · exact argAt_keeps (.inr (by omega)) fun a ha => hargs a ha
    · exact .ret _

theorem abortFn_keeps : Keeps P (AbortFn argv) R X := by
  cases argv with
  | nil => exact errorAbort_keeps h _
  | cons a argv =>
    unfold AbortFn
    have heval := evaluate_keeps h (hargs a List.mem_cons_self)
    have hattempt : Triple P (attempt (Evaluate a)) (fun _ w => P w ∨ R w) R X :=
      .attempt (heval.conseq (fun _ hs => hs) (fun _ _ hs => .inl hs) fun _ hs => .inr hs)
    refine hattempt.bind fun msg s hs => ?_
    exact h.abort s _ hs

theorem assertFn_keeps (hquote : X ∨ ∀ a ∈ argv, ∃ src, quoteSource script a.loc = .done src) :
    Keeps P (AssertFn script argv) R X := by
  induction argv with
  | nil => exact .ret _
  | cons a argv ih =>
    unfold AssertFn
    refine (evaluate_keeps h (hargs a List.mem_cons_self)).bind fun v => ?_
    have hquote' := hquote.imp_right fun hall => hall a List.mem_cons_self
    split_ifs with hv
    · refine ih (fun b hb => hargs b (List.mem_cons_of_mem _ hb)) ?_
      exact hquote.imp_right fun hall b hb => hall b (List.mem_cons_of_mem _ hb)
    · exact (Keeps.lift hquote').bind fun src => errorAbort_keeps h _

theorem sleepFn_keeps (hargc : X ∨ 0 < argv.length) : Keeps P (SleepFn w argv) R X := by
  unfold SleepFn
  refine argAt_keeps hargc fun a ha => ?_
  refine (evaluate_keeps h (hargs a ha)).bind fun val => ?_
  exact (emit_keeps h rfl).bind fun _ => .ret _

theorem stdoutFn_keeps : Keeps P (StdoutFn argv) R X := by
  induction argv with
  | nil => exact .ret _
  | cons a argv ih =>
    unfold StdoutFn
    refine (evaluate_keeps h (hargs a List.mem_cons_self)).bind fun v => ?_
    refine (emit_keeps h rfl).bind fun _ => ?_
    exact ih fun b hb => hargs b (List.mem_cons_of_mem _ hb)

theorem logicalAndFn_keeps (hargc : X ∨ 1 < argv.length) : Keeps P (LogicalAndFn argv) R X := by
  unfold LogicalAndFn
  refine argAt_keeps (hargc.imp_right Nat.zero_lt_of_lt) fun a ha => ?_
  refine (evaluate_keeps h (hargs a ha)).bind fun left => ?_
  split_ifs
  · exact argAt_keeps hargc fun a ha => hargs a ha
  · exact .ret _

theorem logicalOrFn_keeps (hargc : X ∨ 1 < argv.length) : Keeps P (LogicalOrFn argv) R X := by
  unfold LogicalOrFn
  refine argAt_keeps (hargc.imp_right Nat.zero_lt_of_lt) fun a ha => ?_
  refine (evaluate_keeps h (hargs a ha)).bind fun left => ?_
  split_ifs
  · exact .ret _
  · exact argAt_keeps hargc fun a ha => hargs a ha

theorem logicalNotFn_keeps (hargc : X ∨ 0 < argv.length) : Keeps P (LogicalNotFn argv) R X := by
  unfold LogicalNotFn
  refine argAt_keeps hargc fun a ha => ?_
  exact (evaluate_keeps h (hargs a ha)).bind fun val => .ret _

theorem compareFn_keeps (test : Bytes → Bytes → Bool) (hargc : X ∨ 1 < argv.length) :
    Keeps P (compareFn test argv) R X := by
  unfold compareFn
  refine argAt_keeps (hargc.imp_right Nat.zero_lt_of_lt) fun a ha => ?_
  refine (evaluate_keeps h (hargs a ha)).bind fun left => ?_
  refine argAt_keeps hargc fun b hb => ?_
  exact (evaluate_keeps h (hargs b hb)).bind fun right => .ret _

omit h in
theorem sequenceFn_keeps (hargc : X ∨ 1 < argv.length) : Keeps P (SequenceFn argv) R X := by
  unfold SequenceFn
  refine argAt_keeps (hargc.imp_right Nat.zero_lt_of_lt) fun a ha => ?_
  refine (hargs a ha).bind fun _ => ?_
  exact argAt_keeps hargc fun b hb => hargs b hb

omit hargs in
theorem lessThan_keeps {left right : Arg C} (hl : Keeps P left.value R X)
    (hr : Keeps P right.value R X) : Keeps P (lessThan w left right) R X := by
  unfold lessThan
  refine (evaluate_keeps h hl).bind fun l => (evaluate_keeps h hr).bind fun r => ?_
  refine Keeps.bind ?_ fun _ => .ret _
  unfold reportNotInt
  split_ifs
  · exact emit_keeps h rfl
  · exact emit_keeps h rfl
  · exact .ret _

/-- Both functions evaluate two arguments or none. -/
theorem lessThanIntFn_keeps :
    Keeps P (LessThanIntFn w argv) R X ∧ Keeps P (GreaterThanIntFn w argv) R X := by
  rcases argv with _ | ⟨left, _ | ⟨right, _ | ⟨third, argv⟩⟩⟩
  · exact ⟨errorAbort_keeps h _, errorAbort_keeps h _⟩
  · exact ⟨errorAbort_keeps h _, errorAbort_keeps h _⟩
  · have hl := hargs left (by simp)
    have hr := hargs right (by simp)
    exact ⟨lessThan_keeps h hl hr, lessThan_keeps h hr hl⟩
  · exact ⟨errorAbort_keeps h _, errorAbort_keeps h _⟩

theorem apply_keeps {call : G → Bytes → List (Arg C) → Comp C Value} {fn : Fn (Builtin G)}
    {name : Bytes} (hcall : ∀ g, fn = .found (.other g) → Keeps P (call g name argv) R X)
    (hready : X ∨ Ready script fn (argv.map Arg.loc)) :
    Keeps P (apply w script call name argv fn) R X := by
  have hargc : X ∨ arity fn ≤ argv.length :=
    hready.imp_right fun hr => by simpa using hr.arity
  cases fn with
  | Literal => exact .ret _
  | SequenceFn => exact sequenceFn_keeps hargs hargc
  | ConcatFn => exact concatFn_keeps h hargs
  | EqualityFn => exact compareFn_keeps h hargs _ hargc
  | InequalityFn => exact compareFn_keeps h hargs _ hargc
  | LogicalAndFn => exact logicalAndFn_keeps h hargs hargc
  | LogicalOrFn => exact logicalOrFn_keeps h hargs hargc
  | LogicalNotFn => exact logicalNotFn_keeps h hargs hargc
  | IfElseFn => exact ifElseFn_keeps h hargs
  | found fn =>
    cases fn with
    | IfElseFn => exact ifElseFn_keeps h hargs
    | AbortFn => exact abortFn_keeps h hargs
    | AssertFn =>
      refine assertFn_keeps h hargs (hready.imp_right fun hr a ha => ?_)
      exact hr.quote rfl a.loc (List.mem_map_of_mem ha)
    | ConcatFn => exact concatFn_keeps h hargs
    | SubstringFn => exact compareFn_keeps h hargs _ hargc
    | StdoutFn => exact stdoutFn_keeps h hargs
    | SleepFn => exact sleepFn_keeps h hargs hargc
    | LessThanIntFn => exact (lessThanIntFn_keeps h hargs).1
    | GreaterThanIntFn => exact (lessThanIntFn_keeps h hargs).2
    | other g => exact hcall g rfl

end Keeping

/-- Every call inside an expression is ready. -/
def AllReady (script : Bytes) (root : Expr (Builtin G)) : Prop :=
  ∀ fn name argv loc, (Expr.node fn name argv loc).Within root → Ready script fn (argv.map Expr.loc)

section Expressions

variable {P R : World C → Prop} {X : Prop} {w : Nat} {script : Bytes}
  {call : G → Bytes → List (Arg C) → Comp C Value}

theorem arguments_loc (argv : List (Expr (Builtin G))) :
    (arguments w script call argv).map Arg.loc = argv.map Expr.loc := by
  induction argv with
  | nil => rfl
  | cons e argv ih => simp [arguments, ih]

/-- The functions of the program that an expression calls keep `P` when their arguments do. -/
def CallsKeep (w : Nat) (script : Bytes) (call : G → Bytes → List (Arg C) → Comp C Value)
    (P R : World C → Prop) (X : Prop) (root : Expr (Builtin G)) : Prop :=
  ∀ g name argv loc, (Expr.node (.found (.other g)) name argv loc).Within root →
    (∀ a ∈ arguments w script call argv, Keeps P a.value R X) →
    Keeps P (call g name (arguments w script call argv)) R X

/-- What the functions keep when their arguments do, every expression keeps. -/
theorem evaluateValue_keeps (h : Admits P R) (root : Expr (Builtin G))
    (hcalls : CallsKeep w script call P R X root) (hready : X ∨ AllReady script root) :
    Keeps P (EvaluateValue w script call root) R X := by
  refine @Expr.rec (Builtin G)
    (fun e => CallsKeep w script call P R X e → (X ∨ AllReady script e) →
      Keeps P (EvaluateValue w script call e) R X)
    (fun argv => (∀ e ∈ argv, CallsKeep w script call P R X e) →
      (∀ e ∈ argv, X ∨ AllReady script e) →
      ∀ a ∈ arguments w script call argv, Keeps P a.value R X)
    ?node ?nil ?cons root hcalls hready
  case node =>
    intro fn name argv loc ih hcalls hready
    rw [EvaluateValue]
    have hargs := ih
      (fun e he g name' argv' loc' hin => hcalls g name' argv' loc' (.arg he hin))
      fun e he => hready.imp_right fun hall fn' name' argv' loc' hin =>
        hall fn' name' argv' loc' (.arg he hin)
    refine apply_keeps h hargs (fun g hfn => ?_) ?_
    · subst hfn
      exact hcalls g name argv loc .self hargs
    · rw [arguments_loc]
      exact hready.imp_right fun hall => hall fn name argv loc .self
  case nil =>
    intro _ _ a ha
    cases ha
  case cons =>
    intro e argv ihe ihargv hcalls hready a ha
    rw [arguments] at ha
    rcases List.mem_cons.mp ha with rfl | ha
    · exact ihe (hcalls e List.mem_cons_self) (hready e List.mem_cons_self)
    · exact ihargv (fun e' he' => hcalls e' (List.mem_cons_of_mem _ he'))
        (fun e' he' => hready e' (List.mem_cons_of_mem _ he')) a ha

theorem evaluateRoot_keeps (h : Admits P R) (root : Expr (Builtin G))
    (hcalls : CallsKeep w script call P R X root) (hready : X ∨ AllReady script root) :
    Keeps P (evaluateRoot w script call root) R X :=
  evaluate_keeps h (evaluateValue_keeps h root hcalls hready)

/-! ## Errors -/

/-- Nothing was aborted. -/
structure Clean (s : World C) : Prop where
  log : ∀ ev ∈ s.log, ev.isAborted = false
  errmsg : s.errmsg = none

/-- An error is the last thing that happened, or it was reported again. Since then nothing was
done, and `errmsg` has the last message. -/
structure Stopped (s : World C) : Prop where
  log : ∃ l msgs, s.log = l ++ msgs.map (Event.aborted · s.cookie) ∧
    (∀ ev ∈ l, ev.isAborted = false) ∧ msgs ≠ [] ∧ s.errmsg = (msgs.filterMap id).getLast?

theorem admits_stopped : Admits (C := C) Clean Stopped where
  emit s ev hev hs := by
    refine ⟨fun ev' hev' => ?_, hs.errmsg⟩
    rcases List.mem_append.mp hev' with hev' | hev'
    · exact hs.log ev' hev'
    · rw [List.mem_singleton.mp hev']
      exact hev
  abort s msg hs := by
    rcases hs with hs | ⟨l, msgs, hlog, hl, -, -⟩
    · exact ⟨s.log, [some msg], rfl, hs.log, by simp, rfl⟩
    · refine ⟨l, msgs ++ [some msg], ?_, hl, by simp, by simp [World.abort]⟩
      simp [World.abort, hlog]
  giveUp s hs := ⟨s.log, [none], rfl, hs.log, by simp, hs.errmsg⟩

/-- A function of the program stops at the first error, as those of `expr.c` do. -/
def StopsAtErrors (call : G → Bytes → List (Arg C) → Comp C Value) : Prop :=
  ∀ g name argv, (∀ a ∈ argv, Keeps Clean a.value Stopped True) →
    Keeps Clean (call g name argv) Stopped True

/-- A script returns NULL exactly when there was an error. After the first error nothing
happens: no function prints, sleeps or changes what the cookie points to, but `abort` may
set another message. -/
theorem evaluate_stops (hcall : StopsAtErrors call) {root : Expr (Builtin G)} {s s' : World C}
    {r : Option Bytes} (hs : Clean s) (h : evaluateRoot w script call root s = .done (r, s')) :
    (r.isSome → Clean s') ∧ (r = none → Stopped s') := by
  have hkeeps : Keeps Clean (evaluateRoot w script call root) Stopped True :=
    evaluateRoot_keeps admits_stopped root (fun g name _ _ _ => hcall g name _) (.inl trivial)
  have hends := hkeeps s hs
  rw [h] at hends
  cases r with
  | none => exact ⟨fun hr => by simp at hr, fun _ => hends⟩
  | some str => exact ⟨fun _ => hends, fun hr => by simp at hr⟩

/-- The program registers a function that prints all its arguments. -/
def sampleCall : Unit → Bytes → List (Arg Unit) → Comp Unit Value := fun _ _ argv => StdoutFn argv

/-- `abort(); f(a)`, where `f` is not called -/
def sampleRoot : Expr (Builtin Unit) :=
  .Build .SequenceFn ⟨0, 0⟩ [.node (.found .AbortFn) (ascii "abort") [] ⟨0, 0⟩,
    .node (.found (.other ())) (ascii "f") [.literal (ascii "a") ⟨0, 0⟩] ⟨0, 0⟩]

def sampleWorld : World Unit := ⟨(), none, []⟩

theorem sampleWorld_clean : Clean sampleWorld := ⟨by simp [sampleWorld], rfl⟩

theorem sampleCall_stops : StopsAtErrors sampleCall :=
  fun _ _ _ hargs => stdoutFn_keeps admits_stopped hargs

theorem evaluate_stops_sample :
    ((none : Option Bytes).isSome → Clean (sampleWorld.abort (ascii "called abort()"))) ∧
    ((none : Option Bytes) = none → Stopped (sampleWorld.abort (ascii "called abort()"))) := by
  have hrun : evaluateRoot 32 [] sampleCall sampleRoot sampleWorld =
      .done (none, sampleWorld.abort (ascii "called abort()")) := rfl
  exact evaluate_stops sampleCall_stops sampleWorld_clean hrun

/-! ## Faults -/

theorem admits_true : Admits (C := C) (fun _ => True) fun _ => True where
  emit _ _ _ _ := trivial
  abort _ _ _ := trivial
  giveUp _ _ := trivial

/-- The computation does not fault. -/
def Returns {α : Type} (m : Comp C α) : Prop := Keeps (fun _ => True) m (fun _ => True) False

theorem Returns.done {α : Type} {m : Comp C α} (h : Returns m) (s : World C) :
    ∃ r s', m s = .done (r, s') := by
  have hends := h s trivial
  cases hms : m s with
  | done x => exact ⟨x.1, x.2, rfl⟩
  | fault =>
    rw [hms] at hends
    exact hends.elim
  | spin =>
    rw [hms] at hends
    exact hends.elim

/-- Nothing behind the end of an argument array or of the script is read. -/
theorem evaluate_returns
    (hcall : ∀ g name argv, (∀ a ∈ argv, Returns a.value) → Returns (call g name argv))
    {root : Expr (Builtin G)} (hready : AllReady script root) (s : World C) :
    ∃ r s', evaluateRoot w script call root s = .done (r, s') :=
  Returns.done
    (evaluateRoot_keeps admits_true root (fun g name _ _ _ => hcall g name _) (.inr hready)) s

end Expressions

end BootableRecovery.Edify.Eval
