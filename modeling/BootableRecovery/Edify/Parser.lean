import BootableRecovery.Edify.Lexer

/-!
# The parser of edify: `edify/parser.y`

The LALR(1) automaton that bison builds from the grammar, with the declared
precedences, the default reductions and the error recovery. A state is written as
what it is about: `Ctx` is a rule up to the point where an expression is expected
in it, and `Top` is the symbol on top of the stack.

How bison resolves the grammar:
* A state that has only a default reduction left reduces without a lookahead; the
  shift of the last symbol of such a rule and the reduction are one step here.
* The states where an expression is expected are those that shift `error`, so that
  they have no default reduction. All others reduce by default where they can.

`find` stands for `FindFunction`. The parser's stack is not bounded.

Main results:
* `yyparse_returns`: the parser always returns.
* `yyparse_error`: when it fails it has counted an error.
-/

namespace BootableRecovery.Edify

/-! ## Expressions -/

/-- The functions that the parser puts into expressions; `found` is one that
`FindFunction` returned. -/
inductive Fn (F : Type) where
  | Literal
  | SequenceFn
  | ConcatFn
  | EqualityFn
  | InequalityFn
  | LogicalAndFn
  | LogicalOrFn
  | LogicalNotFn
  | IfElseFn
  | found (fn : F)
  deriving DecidableEq, Repr

/-- `Expr` of `edify/expr.h`. -/
inductive Expr (F : Type) where
  | node (fn : Fn F) (name : Bytes) (argv : List (Expr F)) (loc : YYLTYPE)

variable {F : Type}

namespace Expr

/-- The `start` and `end` of an expression. -/
def loc : Expr F → YYLTYPE
  | node _ _ _ loc => loc

/-- `$$ = $n` with another `start` and `end`. -/
def withLoc : Expr F → YYLTYPE → Expr F
  | node fn name argv _, loc => node fn name argv loc

/-- The value of the rule for a literal. -/
def literal (str : Bytes) (loc : YYLTYPE) : Expr F := node .Literal str [] loc

/-- `Build` of `edify/expr.c`. -/
def Build (fn : Fn F) (loc : YYLTYPE) (argv : List (Expr F)) : Expr F :=
  node fn (ascii "(operator)") argv loc

end Expr

/-- `YYLLOC_DEFAULT` of `yydefs.h` for a rule with symbols at `first` and `last`. -/
def YYLTYPE.to (first last : YYLTYPE) : YYLTYPE := ⟨first.start, last.end_⟩

/-! ## Operators -/

/-- The binary operators. -/
inductive Op where
  | semi
  | OR
  | AND
  | EQ
  | NE
  | plus
  deriving DecidableEq, Repr

/-- The declared precedence; the comma is 2 and `!` is 7. -/
def Op.prec : Op → Nat
  | semi => 1
  | OR => 3
  | AND => 4
  | EQ => 5
  | NE => 5
  | plus => 6

def Op.fn : Op → Fn F
  | semi => .SequenceFn
  | OR => .LogicalOrFn
  | AND => .LogicalAndFn
  | EQ => .EqualityFn
  | NE => .InequalityFn
  | plus => .ConcatFn

def Op.token : Op → Token
  | semi => .semi
  | OR => .OR
  | AND => .AND
  | EQ => .EQ
  | NE => .NE
  | plus => .plus

/-- The operator that a token is. -/
def Token.op? : Token → Option Op
  | .semi => some .semi
  | .OR => some .OR
  | .AND => some .AND
  | .EQ => some .EQ
  | .NE => some .NE
  | .plus => some .plus
  | _ => none

@[simp] theorem Op.op?_token (o : Op) : o.token.op? = some o := by
  cases o <;> rfl

/-! ## The automaton -/

/-- A rule up to a place where an expression is expected, with the values and the
places of the symbols before it. -/
inductive Ctx (F : Type) where
  /-- `'(' . expr ')'` -/
  | paren (l : YYLTYPE)
  /-- `'!' . expr` -/
  | not (l : YYLTYPE)
  /-- `expr op . expr`, and `expr ';' .` for the semicolon -/
  | binary (o : Op) (left : Expr F) (l lop : YYLTYPE)
  /-- `error ';' . expr` -/
  | errorSemi (l : YYLTYPE)
  /-- `IF . expr THEN expr ...` -/
  | cond (l : YYLTYPE)
  /-- `IF expr THEN . expr ...` -/
  | then_ (l : YYLTYPE) (cond : Expr F)
  /-- `IF expr THEN expr ELSE . expr ENDIF` -/
  | else_ (l : YYLTYPE) (cond yes : Expr F)
  /-- `STRING '(' . arglist ')'` -/
  | call (str : Bytes) (l lparen : YYLTYPE)
  /-- `STRING '(' arglist ',' . expr` -/
  | comma (str : Bytes) (l lparen : YYLTYPE) (argv : List (Expr F)) (largs : YYLTYPE)

/-- The precedence of a rule that ends with the expression; 0 for the others. -/
def Ctx.prec : Ctx F → Nat
  | not _ => 7
  | binary o _ _ _ => o.prec
  | errorSemi _ => 1
  | _ => 0

/-- The precedence of the innermost open rule. -/
def ctxPrec : List (Ctx F) → Nat
  | [] => 0
  | k :: _ => k.prec

/-- The symbol behind the innermost open rule. -/
inductive Top (F : Type) where
  | expects
  | string (str : Bytes) (l : YYLTYPE)
  | expr (e : Expr F) (l : YYLTYPE)
  | args (argv : List (Expr F)) (l : YYLTYPE)
  | error (l : YYLTYPE)
  | input (l : YYLTYPE)

/-- The place of the symbol that error recovery takes off the stack. -/
def Top.loc? : Top F → Option YYLTYPE
  | expects => none
  | string _ l => some l
  | expr _ l => some l
  | args _ l => some l
  | error l => some l
  | input l => some l

/-- `yyparse` between two steps. `input` starts with the lookahead; at its end comes
`$end` at the place `eof`. -/
structure Config (F : Type) where
  top : Top F
  ctxs : List (Ctx F)
  input : List (Token × YYLTYPE)
  eof : YYLTYPE
  yyerrstatus : Nat
  error_count : Nat
  root : Option (Expr F)

namespace Config

/-- The place of the lookahead. -/
def yylloc (c : Config F) : YYLTYPE :=
  match c.input with
  | [] => c.eof
  | (_, l) :: _ => l

/-- Shift the lookahead. -/
def shift (c : Config F) (top : Top F) (ctxs : List (Ctx F)) : Config F :=
  { c with top := top, ctxs := ctxs, input := c.input.tail, yyerrstatus := c.yyerrstatus - 1 }

/-- Reduce, with the lookahead as it is. -/
def reduce (c : Config F) (top : Top F) (ctxs : List (Ctx F)) : Config F :=
  { c with top := top, ctxs := ctxs }

/-- The lookahead is an error. What is on top of the stack is an expression or a part
of one, and the state below it shifts `error`. -/
def syntaxError (c : Config F) : Config F ⊕ Nat :=
  let error_count := if c.yyerrstatus = 0 then c.error_count + 1 else c.error_count
  let error := Top.error ((c.top.loc?.getD c.yylloc).to c.yylloc)
  if c.yyerrstatus = 3 then
    match c.input with
    -- nothing is left to discard
    | [] => .inr 1
    | _ :: input => .inl { c with top := error, input := input, yyerrstatus := 3 }
  else .inl { c with top := error, yyerrstatus := 3, error_count := error_count }

/-- `expr ';' .` is reduced in front of these. -/
def endsExpr : List (Token × YYLTYPE) → Bool
  | [] => true
  | (t, _) :: _ => t.op?.isSome || t ∈ [.rparen, .comma, .THEN, .ELSE, .ENDIF]

/-- A state in which an expression is expected. -/
def expects (c : Config F) : Config F ⊕ Nat :=
  match c.input with
  | (.STRING str, l) :: _ => .inl (c.shift (.string str l) c.ctxs)
  | (.lparen, l) :: _ => .inl (c.shift .expects (.paren l :: c.ctxs))
  | (.not, l) :: _ => .inl (c.shift .expects (.not l :: c.ctxs))
  | (.IF, l) :: _ => .inl (c.shift .expects (.cond l :: c.ctxs))
  | input =>
    match c.ctxs, input with
    -- an empty argument list stands where the parenthesis does
    | .call _ _ lparen :: _, (.rparen, _) :: _ => .inl (c.reduce (.args [] lparen) c.ctxs)
    | .call _ _ lparen :: _, (.comma, _) :: _ => .inl (c.reduce (.args [] lparen) c.ctxs)
    | .binary .semi e l lop :: ctxs, _ =>
      if endsExpr input then .inl (c.reduce (.expr (e.withLoc l) (l.to lop)) ctxs)
      else c.syntaxError
    | _, _ => c.syntaxError

/-- The state after an expression, when the lookahead is not an operator to shift. -/
def closeExpr (c : Config F) (e : Expr F) (l : YYLTYPE) : Config F ⊕ Nat :=
  match c.ctxs, c.input with
  | [], _ => .inl { c.reduce (.input l) [] with root := some e }
  | .paren l₀ :: ctxs, (.rparen, l₁) :: _ =>
    .inl (c.shift (.expr (e.withLoc (l₀.to l₁)) (l₀.to l₁)) ctxs)
  | .not l₀ :: ctxs, _ =>
    .inl (c.reduce (.expr (.Build .LogicalNotFn (l₀.to l) [e]) (l₀.to l)) ctxs)
  | .binary o left l₀ _ :: ctxs, _ =>
    .inl (c.reduce (.expr (.Build o.fn (l₀.to l) [left, e]) (l₀.to l)) ctxs)
  | .errorSemi l₀ :: ctxs, _ => .inl (c.reduce (.expr (e.withLoc (l₀.to l)) (l₀.to l)) ctxs)
  | .cond l₀ :: ctxs, (.THEN, _) :: _ => .inl (c.shift .expects (.then_ l₀ e :: ctxs))
  | .then_ l₀ cond :: ctxs, (.ELSE, _) :: _ => .inl (c.shift .expects (.else_ l₀ cond e :: ctxs))
  | .then_ l₀ cond :: ctxs, (.ENDIF, l₁) :: _ =>
    .inl (c.shift (.expr (.Build .IfElseFn (l₀.to l₁) [cond, e]) (l₀.to l₁)) ctxs)
  | .else_ l₀ cond yes :: ctxs, (.ENDIF, l₁) :: _ =>
    .inl (c.shift (.expr (.Build .IfElseFn (l₀.to l₁) [cond, yes, e]) (l₀.to l₁)) ctxs)
  | .call _ _ _ :: _, _ => .inl (c.reduce (.args [e] l) c.ctxs)
  | .comma str l₀ lparen argv largs :: ctxs, _ =>
    .inl (c.reduce (.args (argv ++ [e]) (largs.to l)) (.call str l₀ lparen :: ctxs))
  | _, _ => c.syntaxError

/-- The state after an expression. -/
def afterExpr (c : Config F) (e : Expr F) (l : YYLTYPE) : Config F ⊕ Nat :=
  match c.input with
  | (t, lop) :: _ =>
    match t.op? with
    | some o =>
      if ctxPrec c.ctxs < o.prec then .inl (c.shift .expects (.binary o e l lop :: c.ctxs))
      else c.closeExpr e l
    | none => c.closeExpr e l
  | [] => c.closeExpr e l

/-- The state after an argument list. An unknown function is an error of its own
(`YYERROR`), and the four symbols of the call are taken off the stack. -/
def afterArgs (find : Bytes → Option F) (c : Config F) (argv : List (Expr F)) : Config F ⊕ Nat :=
  match c.ctxs, c.input with
  | .call str l _ :: ctxs, (.rparen, l₁) :: _ =>
    match find str with
    | some fn => .inl (c.shift (.expr (.node (.found fn) str argv (l.to l₁)) (l.to l₁)) ctxs)
    | none => .inl { c.shift (.error (l.to l₁)) ctxs with
        yyerrstatus := 3, error_count := c.error_count + 1 }
  | .call str l lparen :: ctxs, (.comma, _) :: _ =>
    .inl (c.shift .expects (.comma str l lparen argv (c.top.loc?.getD lparen) :: ctxs))
  | _, _ => c.syntaxError

/-- One step of `yyparse`; it returns 0 when the input is accepted and 1 when the
parser gives up. -/
def step (find : Bytes → Option F) (c : Config F) : Config F ⊕ Nat :=
  match c.top with
  | .expects => c.expects
  | .string str l =>
    match c.input with
    | (.lparen, lparen) :: _ => .inl (c.shift .expects (.call str l lparen :: c.ctxs))
    | _ => .inl (c.reduce (.expr (.literal str l) l) c.ctxs)
  | .expr e l => c.afterExpr e l
  | .args argv _ => c.afterArgs find argv
  | .error l =>
    match c.input with
    | (.semi, _) :: _ => .inl (c.shift .expects (.errorSemi l :: c.ctxs))
    | _ => c.syntaxError
  | .input _ =>
    match c.input with
    | [] => .inr 0
    | _ => c.syntaxError

end Config

/-! ## `yyparse` -/

/-- What a call of `yyparse` leaves: its value, `*error_count` and `*root`, which is
`none` when it was not written. -/
structure Parsed (F : Type) where
  error : Nat
  error_count : Nat
  root : Option (Expr F)

variable (find : Bytes → Option F)

def run : Nat → Config F → Outcome (Parsed F)
  | 0, _ => .spin
  | n + 1, c =>
    match c.step find with
    | .inl c' => run n c'
    | .inr error => .done ⟨error, c.error_count, c.root⟩

/-- What a symbol on the stack still costs; see `step_measure`. -/
def Top.weight : Top F → List (Ctx F) → Nat
  | .expects, .call _ _ _ :: _ => 2
  | .expects, _ => 0
  | .string _ _, _ => 3
  | .expr _ _, _ => 2
  | .args _ _, _ => 1
  | .error _, _ => 1
  | .input _, _ => 0

/-- A bound on the number of steps. -/
def Config.measure (c : Config F) : Nat :=
  8 * c.input.length + 3 * c.ctxs.length + c.top.weight c.ctxs + 2 * (3 - c.yyerrstatus)

/-- The parser at the start of a script. -/
def Config.initial (input : List (Token × YYLTYPE)) (eof : YYLTYPE) : Config F :=
  ⟨.expects, [], input, eof, 0, 0, none⟩

/-- `yyparse` on the tokens of a script. -/
def yyparse (input : List (Token × YYLTYPE)) (eof : YYLTYPE) : Outcome (Parsed F) :=
  let c : Config F := .initial input eof
  run find (c.measure + 1) c

/-- Scan and parse a script with the globals `g`. -/
def parse (g : Lexer) (script : Bytes) : Outcome (Parsed F × Lexer) := do
  let (input, g') ← tokens g script
  let p ← yyparse find input g'.yylloc
  .done (p, g')

/-! ## Termination and the error counter -/

namespace Config

/-- The parser recovers from an error only after it has counted it. -/
structure Counted (c : Config F) : Prop where
  status : c.yyerrstatus ≤ 3
  counted : c.yyerrstatus ≠ 0 → 0 < c.error_count

/-- What is shown of each step: there is less left to do, and the parser gives up only
at the end of the input, with an error that it counted. -/
def Progress (c : Config F) : Config F ⊕ Nat → Prop
  | .inl c' => c'.Counted ∧ c'.measure < c.measure ∧ c.error_count ≤ c'.error_count
  | .inr error => c.input = [] ∧ (error ≠ 0 → 0 < c.error_count)

variable {c : Config F} {top : Top F} {ctxs : List (Ctx F)}

theorem shift_progress (hc : c.Counted) {x : Token × YYLTYPE} {rest : List (Token × YYLTYPE)}
    (hinput : c.input = x :: rest)
    (hw : 3 * ctxs.length + top.weight ctxs ≤ 3 * c.ctxs.length + c.top.weight c.ctxs + 5) :
    c.Progress (.inl (c.shift top ctxs)) := by
  obtain ⟨hstatus, hcounted⟩ := hc
  refine ⟨⟨Nat.le_trans (Nat.sub_le _ _) hstatus, fun h => hcounted fun h0 => h ?_⟩, ?_, le_rfl⟩
  · simp [shift, h0]
  · simp only [measure, shift, hinput, List.tail_cons, List.length_cons]
    omega

theorem reduce_progress (hc : c.Counted)
    (hw : 3 * ctxs.length + top.weight ctxs < 3 * c.ctxs.length + c.top.weight c.ctxs) :
    c.Progress (.inl (c.reduce top ctxs)) := by
  refine ⟨⟨hc.status, hc.counted⟩, ?_, le_rfl⟩
  simp only [measure, reduce]
  omega

theorem syntaxError_progress (hc : c.Counted) : c.Progress c.syntaxError := by
  obtain ⟨hstatus, hcounted⟩ := hc
  unfold syntaxError
  by_cases h3 : c.yyerrstatus = 3
  · have hpos : 0 < c.error_count := hcounted (by rw [h3]; exact Nat.succ_ne_zero 2)
    simp only [if_pos h3]
    cases hinput : c.input with
    | nil => exact ⟨hinput, fun _ => hpos⟩
    | cons x rest =>
      refine ⟨⟨le_rfl, fun _ => hpos⟩, ?_, le_rfl⟩
      simp only [measure, Top.weight, hinput, List.length_cons]
      omega
  · simp only [if_neg h3]
    refine ⟨⟨le_rfl, fun _ => ?_⟩, ?_, ?_⟩
    · by_cases h0 : c.yyerrstatus = 0
      · simp only [if_pos h0]
        exact Nat.succ_pos _
      · simp only [if_neg h0]
        exact hcounted h0
    · simp only [measure, Top.weight]
      omega
    · simp only
      split_ifs
      · exact Nat.le_succ _
      · exact le_rfl

theorem expects_progress (hc : c.Counted) (htop : c.top = .expects) : c.Progress c.expects := by
  unfold expects
  split
  next hinput => exact shift_progress hc hinput (by simp only [Top.weight]; omega)
  next hinput => exact shift_progress hc hinput (by simp [Top.weight]; omega)
  next hinput => exact shift_progress hc hinput (by simp [Top.weight]; omega)
  next hinput => exact shift_progress hc hinput (by simp [Top.weight]; omega)
  next =>
    split
    next hctxs _ =>
      refine reduce_progress hc ?_
      rw [htop, hctxs]
      simp [Top.weight]
    next hctxs _ =>
      refine reduce_progress hc ?_
      rw [htop, hctxs]
      simp [Top.weight]
    next hctxs =>
      split_ifs
      · refine reduce_progress hc ?_
        rw [htop, hctxs]
        simp only [Top.weight, List.length_cons]
        omega
      · exact syntaxError_progress hc
    next => exact syntaxError_progress hc

theorem closeExpr_progress (hc : c.Counted) {e : Expr F} {l : YYLTYPE} (htop : c.top = .expr e l) :
    c.Progress (c.closeExpr e l) := by
  have hreduce : ∀ {k : Ctx F} {rest : List (Ctx F)} {e' : Expr F} {l' : YYLTYPE},
      c.ctxs = k :: rest → c.Progress (.inl (c.reduce (.expr e' l') rest)) := by
    intro k rest e' l' hctxs
    refine reduce_progress hc ?_
    rw [htop, hctxs]
    simp only [Top.weight, List.length_cons]
    omega
  unfold closeExpr
  split
  next hctxs =>
    refine ⟨⟨hc.status, hc.counted⟩, ?_, le_rfl⟩
    simp only [measure, reduce, hctxs, htop, Top.weight]
    omega
  next hctxs hinput => exact shift_progress hc hinput (by rw [hctxs]; simp [Top.weight]; omega)
  next hctxs => exact hreduce hctxs
  next hctxs => exact hreduce hctxs
  next hctxs => exact hreduce hctxs
  next hctxs hinput => exact shift_progress hc hinput (by rw [hctxs]; simp [Top.weight]; omega)
  next hctxs hinput => exact shift_progress hc hinput (by rw [hctxs]; simp [Top.weight]; omega)
  next hctxs hinput => exact shift_progress hc hinput (by rw [hctxs]; simp [Top.weight]; omega)
  next hctxs hinput => exact shift_progress hc hinput (by rw [hctxs]; simp [Top.weight]; omega)
  next hctxs => exact reduce_progress hc (by rw [htop]; simp [Top.weight])
  next hctxs => exact reduce_progress hc (by rw [htop, hctxs]; simp [Top.weight])
  next => exact syntaxError_progress hc

theorem afterExpr_progress (hc : c.Counted) {e : Expr F} {l : YYLTYPE} (htop : c.top = .expr e l) :
    c.Progress (c.afterExpr e l) := by
  unfold afterExpr
  split
  next hinput =>
    split
    next =>
      split_ifs
      · exact shift_progress hc hinput (by simp [Top.weight]; omega)
      · exact closeExpr_progress hc htop
    next => exact closeExpr_progress hc htop
  next => exact closeExpr_progress hc htop

theorem afterArgs_progress (find : Bytes → Option F) (hc : c.Counted) (argv : List (Expr F)) :
    c.Progress (c.afterArgs find argv) := by
  unfold afterArgs
  split
  next hctxs hinput =>
    split
    next => exact shift_progress hc hinput (by rw [hctxs]; simp [Top.weight]; omega)
    next =>
      refine ⟨⟨le_rfl, fun _ => Nat.succ_pos _⟩, ?_, Nat.le_succ _⟩
      simp only [measure, shift, hinput, hctxs, Top.weight, List.tail_cons, List.length_cons]
      omega
  next hctxs hinput => exact shift_progress hc hinput (by rw [hctxs]; simp [Top.weight]; omega)
  next => exact syntaxError_progress hc

theorem step_progress (find : Bytes → Option F) (hc : c.Counted) : c.Progress (c.step find) := by
  unfold step
  split
  next htop => exact expects_progress hc htop
  next htop =>
    split
    next hinput => exact shift_progress hc hinput (by rw [htop]; simp [Top.weight]; omega)
    next => exact reduce_progress hc (by rw [htop]; simp [Top.weight])
  next htop => exact afterExpr_progress hc htop
  next => exact afterArgs_progress find hc _
  next =>
    split
    next hinput => exact shift_progress hc hinput (by simp [Top.weight]; omega)
    next => exact syntaxError_progress hc
  next =>
    split
    next hinput => exact ⟨hinput, fun h => absurd rfl h⟩
    next => exact syntaxError_progress hc

end Config

/-- Some steps of the parser. -/
def Steps : Config F → Config F → Prop :=
  Relation.ReflTransGen fun c c' => c.step find = .inl c'

variable {find}

theorem Steps.counted {c c' : Config F} (h : Steps find c c') (hc : c.Counted) :
    c'.Counted ∧ c.error_count ≤ c'.error_count := by
  induction h with
  | refl => exact ⟨hc, le_rfl⟩
  | tail _ hstep ih =>
    have hprogress := Config.step_progress find ih.1
    rw [hstep] at hprogress
    exact ⟨hprogress.1, ih.2.trans hprogress.2.2⟩

/-- A run ends where some steps of the parser lead. -/
theorem run_eq_done {n : Nat} {c : Config F} {p : Parsed F} (h : run find n c = .done p) :
    ∃ c', Steps find c c' ∧ c'.step find = .inr p.error ∧ p.error_count = c'.error_count ∧
      p.root = c'.root := by
  induction n generalizing c with
  | zero => exact nomatch h
  | succ n ih =>
    rw [run] at h
    cases hstep : c.step find with
    | inl c₁ =>
      rw [hstep] at h
      obtain ⟨c', hsteps, hlast⟩ := ih h
      exact ⟨c', .head hstep hsteps, hlast⟩
    | inr error =>
      rw [hstep] at h
      cases h
      exact ⟨c, .refl, hstep, rfl, rfl⟩

theorem run_of_steps {c c' : Config F} {error : Nat} (h : Steps find c c') (hc : c.Counted)
    (hstep : c'.step find = .inr error) {n : Nat} (hn : c.measure < n) :
    run find n c = .done ⟨error, c'.error_count, c'.root⟩ := by
  induction h using Relation.ReflTransGen.head_induction_on generalizing n with
  | refl =>
    obtain ⟨n, rfl⟩ := Nat.exists_eq_succ_of_ne_zero (Nat.ne_of_gt (Nat.zero_lt_of_lt hn))
    rw [run, hstep]
  | @head c₁ c₂ h₁ _ ih =>
    obtain ⟨n, rfl⟩ := Nat.exists_eq_succ_of_ne_zero (Nat.ne_of_gt (Nat.zero_lt_of_lt hn))
    have hprogress := Config.step_progress find hc
    rw [h₁] at hprogress
    rw [run, h₁]
    exact ih hprogress.1 (Nat.lt_of_lt_of_le hprogress.2.1 (Nat.le_of_lt_succ hn))

theorem run_returns {n : Nat} {c : Config F} (hc : c.Counted) (hn : c.measure < n) :
    ∃ p, run find n c = .done p := by
  induction n generalizing c with
  | zero => exact absurd hn (Nat.not_lt_zero _)
  | succ n ih =>
    have hprogress := Config.step_progress find hc
    rw [run]
    cases hstep : c.step find with
    | inl c' =>
      rw [hstep] at hprogress
      exact ih hprogress.1 (Nat.lt_of_lt_of_le hprogress.2.1 (Nat.le_of_lt_succ hn))
    | inr error => exact ⟨_, rfl⟩

theorem Config.initial_counted (input : List (Token × YYLTYPE)) (eof : YYLTYPE) :
    (Config.initial input eof : Config F).Counted :=
  ⟨Nat.zero_le _, fun h => absurd rfl h⟩

theorem yyparse_returns (find : Bytes → Option F) (input : List (Token × YYLTYPE)) (eof : YYLTYPE) :
    ∃ p, yyparse find input eof = .done p :=
  run_returns (Config.initial_counted input eof) (Nat.lt_succ_self _)

/-- The parser gives up only with an error that it has counted, and it stops only when
it has read the whole script. -/
theorem yyparse_error {input : List (Token × YYLTYPE)} {eof : YYLTYPE} {p : Parsed F}
    (h : yyparse find input eof = .done p) : p.error ≠ 0 → 0 < p.error_count := by
  obtain ⟨c', hsteps, hstep, hcount, _⟩ := run_eq_done h
  have hprogress := Config.step_progress find (hsteps.counted (Config.initial_counted _ _)).1
  rw [hstep] at hprogress
  rw [hcount]
  exact hprogress.2

theorem parse_ne_spin (find : Bytes → Option F) (g : Lexer) (script : Bytes) :
    parse find g script ≠ .spin := by
  unfold parse
  cases htokens : tokens g script with
  | done x =>
    obtain ⟨p, hp⟩ := yyparse_returns find x.1 x.2.yylloc
    rw [Outcome.done_bind]
    simp only [hp, Outcome.done_bind]
    exact fun h => nomatch h
  | fault => exact fun h => nomatch h
  | spin => exact absurd htokens (tokens_ne_spin g script)

end BootableRecovery.Edify
