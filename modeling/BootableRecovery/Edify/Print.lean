import BootableRecovery.Edify.Parser

/-!
# Parsing inverts printing

`Prints` relates a tree to the sequences of tokens that print it: parentheses stand
at least where the precedence asks for them, and a `;` may stand at the end of an
expression that something closes. `Spells` of the lexer relates the tokens to texts.

Main results:
* `prints_print`: every tree has a printing with the parentheses it needs and no others.
* `closed_steps`: the parser takes the tokens of a tree to the tree.
* `parse_prints`: a text of a tree is parsed to the tree.
-/

namespace BootableRecovery.Edify

variable {F : Type}

/-! ## Trees -/

/-- What can be written in edify; a call names a function that is registered as `fn`. -/
inductive Tree (F : Type) where
  | literal (str : Bytes)
  | binary (o : Op) (left right : Tree F)
  | not (e : Tree F)
  | ifThen (cond yes : Tree F)
  | ifThenElse (cond yes no : Tree F)
  | call (str : Bytes) (fn : F) (argv : List (Tree F))

mutual

/-- The expression without its places in a script. -/
def Expr.erase : Expr F → Expr F
  | .node fn name argv _ => .node fn name (Expr.eraseAll argv) ⟨0, 0⟩

def Expr.eraseAll : List (Expr F) → List (Expr F)
  | [] => []
  | e :: argv => e.erase :: Expr.eraseAll argv

end

mutual

/-- The expression that a tree stands for. -/
def Tree.expr : Tree F → Expr F
  | .literal str => .literal str ⟨0, 0⟩
  | .binary o left right => .Build o.fn ⟨0, 0⟩ [left.expr, right.expr]
  | .not e => .Build .LogicalNotFn ⟨0, 0⟩ [e.expr]
  | .ifThen cond yes => .Build .IfElseFn ⟨0, 0⟩ [cond.expr, yes.expr]
  | .ifThenElse cond yes no => .Build .IfElseFn ⟨0, 0⟩ [cond.expr, yes.expr, no.expr]
  | .call str fn argv => .node (.found fn) str (Tree.exprAll argv) ⟨0, 0⟩

def Tree.exprAll : List (Tree F) → List (Expr F)
  | [] => []
  | t :: argv => t.expr :: Tree.exprAll argv

end

/-! ## Printing -/

variable (find : Bytes → Option F)

mutual

/-- `Prints find p t w`: the tokens `w` print `t` where the precedence `p` is asked for. -/
inductive Prints : Nat → Tree F → List Token → Prop where
  | literal {p str} : Prints p (.literal str) [.STRING str]
  | binary {p o left right wl wr} : p ≤ o.prec → Prints o.prec left wl →
      Prints (o.prec + 1) right wr → Prints p (.binary o left right) (wl ++ o.token :: wr)
  | not {p e w} : Prints 7 e w → Prints p (.not e) (.not :: w)
  | paren {p t w} : Closed t w → Prints p t (.lparen :: (w ++ [.rparen]))
  | ifThen {p cond yes wc wy} : Closed cond wc → Closed yes wy →
      Prints p (.ifThen cond yes) (.IF :: (wc ++ .THEN :: (wy ++ [.ENDIF])))
  | ifThenElse {p cond yes no wc wy wn} : Closed cond wc → Closed yes wy → Closed no wn →
      Prints p (.ifThenElse cond yes no)
        (.IF :: (wc ++ .THEN :: (wy ++ .ELSE :: (wn ++ [.ENDIF]))))
  | call {p str fn argv w} : find str = some fn → PrintsArgs argv w →
      Prints p (.call str fn argv) (.STRING str :: .lparen :: (w ++ [.rparen]))

/-- An expression in front of `)`, `,`, `then`, `else`, `endif` or the end. -/
inductive Closed : Tree F → List Token → Prop where
  | plain {t w} : Prints 1 t w → Closed t w
  | semi {t w} : Prints 1 t w → Closed t (w ++ [.semi])

inductive PrintsArgs : List (Tree F) → List Token → Prop where
  | nil : PrintsArgs [] []
  | one {t w} : Closed t w → PrintsArgs [t] w
  | cons {argv t w wt} : argv ≠ [] → PrintsArgs argv w → Closed t wt →
      PrintsArgs (argv ++ [t]) (w ++ .comma :: wt)

end

/-! ## The printing without needless parentheses -/

mutual

/-- The tree with the parentheses that precedence `p` asks for. -/
def Tree.print : Nat → Tree F → List Token
  | _, .literal str => [.STRING str]
  | p, .binary o left right =>
    let w := left.print o.prec ++ o.token :: right.print (o.prec + 1)
    if p ≤ o.prec then w else .lparen :: (w ++ [.rparen])
  | _, .not e => .not :: e.print 7
  | _, .ifThen cond yes => .IF :: (cond.print 1 ++ .THEN :: (yes.print 1 ++ [.ENDIF]))
  | _, .ifThenElse cond yes no =>
    .IF :: (cond.print 1 ++ .THEN :: (yes.print 1 ++ .ELSE :: (no.print 1 ++ [.ENDIF])))
  | _, .call str _ argv => .STRING str :: .lparen :: (Tree.printArgs argv ++ [.rparen])

def Tree.printArgs : List (Tree F) → List Token
  | [] => []
  | [t] => t.print 1
  | t :: t' :: argv => t.print 1 ++ .comma :: Tree.printArgs (t' :: argv)

end

mutual

/-- Every call names a registered function. -/
def Tree.Registered : Tree F → Prop
  | .literal _ => True
  | .binary _ left right => left.Registered ∧ right.Registered
  | .not e => e.Registered
  | .ifThen cond yes => cond.Registered ∧ yes.Registered
  | .ifThenElse cond yes no => cond.Registered ∧ yes.Registered ∧ no.Registered
  | .call str fn argv => find str = some fn ∧ Tree.AllRegistered argv

def Tree.AllRegistered : List (Tree F) → Prop
  | [] => True
  | t :: argv => t.Registered ∧ Tree.AllRegistered argv

end

variable {find} in
/-- One more argument in front. -/
theorem PrintsArgs.front {argv : List (Tree F)} {w : List Token} (h : PrintsArgs find argv w)
    (hne : argv ≠ []) {t : Tree F} {wt : List Token} (ht : Closed find t wt) :
    PrintsArgs find (t :: argv) (wt ++ .comma :: w) := by
  refine @PrintsArgs.rec F find (fun _ _ _ _ => True) (fun _ _ _ => True)
    (fun argv w _ => argv ≠ [] → PrintsArgs find (t :: argv) (wt ++ .comma :: w))
    ?literal ?binary ?not ?paren ?ifThen ?ifThenElse ?call ?plain ?semi ?nil ?one ?cons argv w h hne
  case nil => exact fun h => absurd rfl h
  case one =>
    intro t' w' h' _ _
    have hone : PrintsArgs find [t] wt := .one ht
    exact .cons (List.cons_ne_nil _ _) hone h'
  case cons =>
    intro argv t' w w' hne _ ht' ih _ _
    have := PrintsArgs.cons (List.cons_ne_nil _ _) (ih hne) ht'
    simpa using this
  all_goals
    intros
    trivial

mutual

/-- Every tree with registered calls can be printed, with the parentheses it needs. -/
theorem prints_print : ∀ (t : Tree F), t.Registered find → ∀ p, Prints find p t (t.print p)
  | .literal str, _, p => .literal
  | .binary o left right, h, p => by
    have hprec : o.prec ≤ o.prec := le_rfl
    have hleft := prints_print left h.1 o.prec
    have hright := prints_print right h.2 (o.prec + 1)
    rw [Tree.print]
    split_ifs with hp
    · exact .binary hp hleft hright
    · have hone : 1 ≤ o.prec := by cases o <;> decide
      exact .paren (.plain (.binary hone hleft hright))
  | .not e, h, p => .not (prints_print e h 7)
  | .ifThen cond yes, h, p =>
    .ifThen (.plain (prints_print cond h.1 1)) (.plain (prints_print yes h.2 1))
  | .ifThenElse cond yes no, h, p =>
    .ifThenElse (.plain (prints_print cond h.1 1)) (.plain (prints_print yes h.2.1 1))
      (.plain (prints_print no h.2.2 1))
  | .call str fn argv, h, p => .call h.1 (prints_printArgs argv h.2)

theorem prints_printArgs : ∀ (argv : List (Tree F)), Tree.AllRegistered find argv →
    PrintsArgs find argv (Tree.printArgs argv)
  | [], _ => .nil
  | [t], h => .one (.plain (prints_print t h.1 1))
  | t :: t' :: argv, h =>
    (prints_printArgs (t' :: argv) h.2).front (List.cons_ne_nil _ _)
      (.plain (prints_print t h.1 1))

end

theorem Tree.exprAll_append (argv argv' : List (Tree F)) :
    Tree.exprAll (argv ++ argv') = Tree.exprAll argv ++ Tree.exprAll argv' := by
  induction argv with
  | nil => rfl
  | cons t argv ih => simp only [List.cons_append, Tree.exprAll, ih]

theorem Expr.eraseAll_append (argv argv' : List (Expr F)) :
    Expr.eraseAll (argv ++ argv') = Expr.eraseAll argv ++ Expr.eraseAll argv' := by
  induction argv with
  | nil => rfl
  | cons t argv ih => simp only [List.cons_append, Expr.eraseAll, ih]

@[simp] theorem Expr.erase_withLoc (e : Expr F) (l : YYLTYPE) : (e.withLoc l).erase = e.erase := by
  cases e with
  | node => rfl

/-! ## The parser on printed trees -/

section Steps

variable {find}

/-- The parser without an error so far. -/
def Config.clean (eof : YYLTYPE) (top : Top F) (ctxs : List (Ctx F))
    (input : List (Token × YYLTYPE)) : Config F :=
  ⟨top, ctxs, input, eof, 0, 0, none⟩

/-- What follows an expression of precedence `p` is not taken into it. -/
def Stops (p : Nat) (rest : List (Token × YYLTYPE)) : Prop :=
  ∀ x ∈ rest.head?, x.1 ≠ .lparen ∧ ∀ o, x.1.op? = some o → o.prec ≤ p

/-- The rule that is open binds weaker than every operator of precedence `p` or more. -/
def Fits (p : Nat) (ctxs : List (Ctx F)) : Prop :=
  ∀ o : Op, p ≤ o.prec → ctxPrec ctxs < o.prec

/-- Something closes the expression. -/
def Closes (rest : List (Token × YYLTYPE)) : Prop :=
  ∀ x ∈ rest.head?, x.1 ∈ [Token.rparen, .comma, .THEN, .ELSE, .ENDIF]

variable (find)

/-- The parser takes the tokens `w` to an expression of `t`. -/
def ParsesTo (eof : YYLTYPE) (ctxs : List (Ctx F)) (t : Tree F) (w : List (Token × YYLTYPE))
    (rest : List (Token × YYLTYPE)) : Prop :=
  ∃ e l, e.erase = t.expr ∧
    Steps find (.clean eof .expects ctxs (w ++ rest)) (.clean eof (.expr e l) ctxs rest)

variable {find} {eof : YYLTYPE} {ctxs : List (Ctx F)} {e : Expr F} {l : YYLTYPE}
  {rest : List (Token × YYLTYPE)}

theorem Closes.stops (h : Closes rest) (p : Nat) : Stops p rest := by
  intro x hx
  have hmem := h x hx
  simp only [List.mem_cons, List.not_mem_nil, or_false] at hmem
  rcases hmem with ht | ht | ht | ht | ht
  all_goals
    rw [ht]
    refine ⟨?_, fun o h => ?_⟩
    · intro h
      cases h
    · cases h

theorem Stops.mono {p q : Nat} (h : Stops p rest) (hpq : p ≤ q) : Stops q rest := fun x hx =>
  ⟨(h x hx).1, fun o ho => ((h x hx).2 o ho).trans hpq⟩

/-- An operator that binds stronger than the open rule is shifted. -/
theorem step_operator {o : Op} {lop : YYLTYPE} (h : ctxPrec ctxs < o.prec) :
    (Config.clean eof (.expr e l) ctxs ((o.token, lop) :: rest)).step find =
      .inl (.clean eof .expects (.binary o e l lop :: ctxs) rest) := by
  simp only [Config.step, Config.clean, Config.afterExpr, Op.op?_token]
  exact if_pos h

/-- In front of anything else the open rule goes on. -/
theorem step_closeExpr
    (h : ∀ x ∈ rest.head?, ∀ o, x.1.op? = some o → o.prec ≤ ctxPrec ctxs) :
    (Config.clean eof (.expr e l) ctxs rest).step find =
      (Config.clean eof (.expr e l) ctxs rest).closeExpr e l := by
  cases rest with
  | nil => rfl
  | cons x rest =>
    obtain ⟨t, lt⟩ := x
    simp only [Config.step, Config.clean, Config.afterExpr]
    cases ho : t.op? with
    | none => rfl
    | some o => exact if_neg (Nat.not_lt.mpr (h _ rfl o ho))

theorem Closes.step (h : Closes rest) :
    (Config.clean eof (.expr e l) ctxs rest).step find =
      (Config.clean eof (.expr e l) ctxs rest).closeExpr e l :=
  step_closeExpr fun x hx o ho => (((h.stops 0) x hx).2 o ho).trans (Nat.zero_le _)

/-- A semicolon in front of what closes the expression. -/
theorem Closes.steps_semi (h : Closes rest) (hctx : ctxPrec ctxs = 0) {ls : YYLTYPE} :
    Steps find (.clean eof (.expr e l) ctxs ((.semi, ls) :: rest))
      (.clean eof (.expr (e.withLoc l) (l.to ls)) ctxs rest) := by
  have hprec : ctxPrec ctxs < Op.semi.prec := by
    rw [hctx]
    exact Nat.one_pos
  have hshift : (Config.clean eof (.expr e l) ctxs ((.semi, ls) :: rest)).step find =
      .inl (.clean eof .expects (.binary .semi e l ls :: ctxs) rest) := step_operator hprec
  refine .head hshift (.single ?_)
  cases rest with
  | nil => rfl
  | cons x rest =>
    obtain ⟨t, lt⟩ := x
    have hmem := h _ rfl
    simp only [List.mem_cons, List.not_mem_nil, or_false] at hmem
    rcases hmem with rfl | rfl | rfl | rfl | rfl
    all_goals rfl

theorem steps_literal {str : Bytes} (hstop : ∀ x ∈ rest.head?, x.1 ≠ .lparen) :
    Steps find (.clean eof .expects ctxs ((.STRING str, l) :: rest))
      (.clean eof (.expr (.literal str l) l) ctxs rest) := by
  have hshift : (Config.clean eof .expects ctxs ((.STRING str, l) :: rest)).step find =
      .inl (.clean eof (.string str l) ctxs rest) := rfl
  refine .head hshift (.single ?_)
  cases rest with
  | nil => rfl
  | cons x rest =>
    obtain ⟨t, lt⟩ := x
    cases t with
    | lparen => exact absurd rfl (hstop _ rfl)
    | _ => rfl

theorem fits_of_zero {p : Nat} (hp : 1 ≤ p) (h : ctxPrec ctxs = 0) : Fits p ctxs := by
  intro o ho
  rw [h]
  exact Nat.lt_of_lt_of_le hp ho

theorem closes_cons {t : Token} {lt : YYLTYPE}
    (h : t ∈ [Token.rparen, .comma, .THEN, .ELSE, .ENDIF]) : Closes ((t, lt) :: rest) := by
  intro x hx
  obtain rfl := Option.some.inj hx
  exact h

/-! One lemma for each rule: the rule is parsed when its parts are. -/

theorem ParsesTo.binary {o : Op} {left right : Tree F} {wl wr : List (Token × YYLTYPE)}
    {lop : YYLTYPE} (hleft : ParsesTo find eof ctxs left wl ((o.token, lop) :: (wr ++ rest)))
    (hright : ∀ e l, ParsesTo find eof (.binary o e l lop :: ctxs) right wr rest)
    (hctx : ctxPrec ctxs < o.prec) (hstop : Stops o.prec rest) :
    ParsesTo find eof ctxs (.binary o left right) (wl ++ (o.token, lop) :: wr) rest := by
  obtain ⟨e₁, l₁, he₁, hsteps₁⟩ := hleft
  obtain ⟨e₂, l₂, he₂, hsteps₂⟩ := hright e₁ l₁
  have hshift : (Config.clean eof (.expr e₁ l₁) ctxs ((o.token, lop) :: (wr ++ rest))).step find =
      .inl (.clean eof .expects (.binary o e₁ l₁ lop :: ctxs) (wr ++ rest)) := step_operator hctx
  have hreduce : (Config.clean eof (.expr e₂ l₂) (.binary o e₁ l₁ lop :: ctxs) rest).step find =
      .inl (.clean eof (.expr (.Build o.fn (l₁.to l₂) [e₁, e₂]) (l₁.to l₂)) ctxs rest) :=
    step_closeExpr fun x hx => (hstop x hx).2
  refine ⟨.Build o.fn (l₁.to l₂) [e₁, e₂], l₁.to l₂, ?_, ?_⟩
  · simp only [Expr.Build, Expr.erase, Expr.eraseAll, Tree.expr, he₁, he₂]
  · rw [List.append_assoc]
    exact hsteps₁.trans (.head hshift (hsteps₂.tail hreduce))

theorem Op.prec_le (o : Op) : o.prec ≤ 6 := by
  cases o <;> decide

theorem ParsesTo.not {t : Tree F} {w : List (Token × YYLTYPE)} {ln : YYLTYPE}
    (h : ParsesTo find eof (.not ln :: ctxs) t w rest) :
    ParsesTo find eof ctxs (.not t) ((.not, ln) :: w) rest := by
  obtain ⟨e, l, he, hsteps⟩ := h
  have hshift : (Config.clean eof .expects ctxs ((.not, ln) :: (w ++ rest))).step find =
      .inl (.clean eof .expects (.not ln :: ctxs) (w ++ rest)) := rfl
  have hreduce : (Config.clean eof (.expr e l) (.not ln :: ctxs) rest).step find =
      .inl (.clean eof (.expr (.Build .LogicalNotFn (ln.to l) [e]) (ln.to l)) ctxs rest) :=
    step_closeExpr fun x _ o _ => o.prec_le.trans (Nat.le_succ 6)
  refine ⟨.Build .LogicalNotFn (ln.to l) [e], ln.to l, ?_, .head hshift (hsteps.tail hreduce)⟩
  simp only [Expr.Build, Expr.erase, Expr.eraseAll, Tree.expr, he]

theorem ParsesTo.paren {t : Tree F} {w : List (Token × YYLTYPE)} {l₀ l₁ : YYLTYPE}
    (h : ParsesTo find eof (.paren l₀ :: ctxs) t w ((.rparen, l₁) :: rest)) :
    ParsesTo find eof ctxs t ((.lparen, l₀) :: (w ++ [(.rparen, l₁)])) rest := by
  obtain ⟨e, l, he, hsteps⟩ := h
  have hcloses : Closes ((Token.rparen, l₁) :: rest) := closes_cons (by decide)
  have hshift : (Config.clean eof .expects ctxs
        ((.lparen, l₀) :: (w ++ (.rparen, l₁) :: rest))).step find =
      .inl (.clean eof .expects (.paren l₀ :: ctxs) (w ++ (.rparen, l₁) :: rest)) := rfl
  have hclose : (Config.clean eof (.expr e l) (.paren l₀ :: ctxs)
        ((.rparen, l₁) :: rest)).step find =
      .inl (.clean eof (.expr (e.withLoc (l₀.to l₁)) (l₀.to l₁)) ctxs rest) := hcloses.step
  refine ⟨e.withLoc (l₀.to l₁), l₀.to l₁, by rw [Expr.erase_withLoc, he], ?_⟩
  rw [List.cons_append, List.append_assoc]
  exact .head hshift (hsteps.tail hclose)

/-- `IF expr THEN`, up to the second expression. -/
theorem ParsesTo.cond {cond : Tree F} {w : List (Token × YYLTYPE)} {l₀ lt : YYLTYPE}
    (h : ParsesTo find eof (.cond l₀ :: ctxs) cond w ((.THEN, lt) :: rest)) :
    ∃ e, e.erase = cond.expr ∧
      Steps find (.clean eof .expects ctxs ((.IF, l₀) :: (w ++ (.THEN, lt) :: rest)))
        (.clean eof .expects (.then_ l₀ e :: ctxs) rest) := by
  obtain ⟨e, l, he, hsteps⟩ := h
  have hcloses : Closes ((Token.THEN, lt) :: rest) := closes_cons (by decide)
  have hshift : (Config.clean eof .expects ctxs ((.IF, l₀) :: (w ++ (.THEN, lt) :: rest))).step find =
      .inl (.clean eof .expects (.cond l₀ :: ctxs) (w ++ (.THEN, lt) :: rest)) := rfl
  have hthen : (Config.clean eof (.expr e l) (.cond l₀ :: ctxs) ((.THEN, lt) :: rest)).step find =
      .inl (.clean eof .expects (.then_ l₀ e :: ctxs) rest) := hcloses.step
  exact ⟨e, he, .head hshift (hsteps.tail hthen)⟩

theorem ParsesTo.ifThen {cond yes : Tree F} {wc wy : List (Token × YYLTYPE)} {l₀ lt l₁ : YYLTYPE}
    (hcond : ParsesTo find eof (.cond l₀ :: ctxs) cond wc
      ((.THEN, lt) :: (wy ++ (.ENDIF, l₁) :: rest)))
    (hyes : ∀ e, ParsesTo find eof (.then_ l₀ e :: ctxs) yes wy ((.ENDIF, l₁) :: rest)) :
    ParsesTo find eof ctxs (.ifThen cond yes)
      ((.IF, l₀) :: (wc ++ (.THEN, lt) :: (wy ++ [(.ENDIF, l₁)]))) rest := by
  obtain ⟨e₁, he₁, hsteps₁⟩ := hcond.cond
  obtain ⟨e₂, l₂, he₂, hsteps₂⟩ := hyes e₁
  have hcloses : Closes ((Token.ENDIF, l₁) :: rest) := closes_cons (by decide)
  have hendif : (Config.clean eof (.expr e₂ l₂) (.then_ l₀ e₁ :: ctxs)
        ((.ENDIF, l₁) :: rest)).step find =
      .inl (.clean eof (.expr (.Build .IfElseFn (l₀.to l₁) [e₁, e₂]) (l₀.to l₁)) ctxs rest) :=
    hcloses.step
  refine ⟨.Build .IfElseFn (l₀.to l₁) [e₁, e₂], l₀.to l₁, ?_, ?_⟩
  · simp only [Expr.Build, Expr.erase, Expr.eraseAll, Tree.expr, he₁, he₂]
  · simp only [List.cons_append, List.append_assoc, List.nil_append]
    exact hsteps₁.trans (hsteps₂.tail hendif)

theorem ParsesTo.ifThenElse {cond yes no : Tree F} {wc wy wn : List (Token × YYLTYPE)}
    {l₀ lt le l₁ : YYLTYPE}
    (hcond : ParsesTo find eof (.cond l₀ :: ctxs) cond wc
      ((.THEN, lt) :: (wy ++ (.ELSE, le) :: (wn ++ (.ENDIF, l₁) :: rest))))
    (hyes : ∀ e, ParsesTo find eof (.then_ l₀ e :: ctxs) yes wy
      ((.ELSE, le) :: (wn ++ (.ENDIF, l₁) :: rest)))
    (hno : ∀ e e', ParsesTo find eof (.else_ l₀ e e' :: ctxs) no wn ((.ENDIF, l₁) :: rest)) :
    ParsesTo find eof ctxs (.ifThenElse cond yes no)
      ((.IF, l₀) :: (wc ++ (.THEN, lt) :: (wy ++ (.ELSE, le) :: (wn ++ [(.ENDIF, l₁)])))) rest := by
  obtain ⟨e₁, he₁, hsteps₁⟩ := hcond.cond
  obtain ⟨e₂, l₂, he₂, hsteps₂⟩ := hyes e₁
  obtain ⟨e₃, l₃, he₃, hsteps₃⟩ := hno e₁ e₂
  have hcloses₁ : Closes ((Token.ELSE, le) :: (wn ++ (Token.ENDIF, l₁) :: rest)) :=
    closes_cons (by decide)
  have hcloses₂ : Closes ((Token.ENDIF, l₁) :: rest) := closes_cons (by decide)
  have helse : (Config.clean eof (.expr e₂ l₂) (.then_ l₀ e₁ :: ctxs)
        ((.ELSE, le) :: (wn ++ (.ENDIF, l₁) :: rest))).step find =
      .inl (.clean eof .expects (.else_ l₀ e₁ e₂ :: ctxs) (wn ++ (.ENDIF, l₁) :: rest)) :=
    hcloses₁.step
  have hendif : (Config.clean eof (.expr e₃ l₃) (.else_ l₀ e₁ e₂ :: ctxs)
        ((.ENDIF, l₁) :: rest)).step find =
      .inl (.clean eof (.expr (.Build .IfElseFn (l₀.to l₁) [e₁, e₂, e₃]) (l₀.to l₁)) ctxs rest) :=
    hcloses₂.step
  refine ⟨.Build .IfElseFn (l₀.to l₁) [e₁, e₂, e₃], l₀.to l₁, ?_, ?_⟩
  · simp only [Expr.Build, Expr.erase, Expr.eraseAll, Tree.expr, he₁, he₂, he₃]
  · simp only [List.cons_append, List.append_assoc, List.nil_append]
    exact hsteps₁.trans ((hsteps₂.tail helse).trans (hsteps₃.tail hendif))

variable (find) in
/-- The parser takes the tokens `w` to the arguments of a call. -/
def ParsesArgs (eof : YYLTYPE) (ctxs : List (Ctx F)) (str : Bytes) (l lparen : YYLTYPE)
    (argv : List (Tree F)) (w rest : List (Token × YYLTYPE)) : Prop :=
  ∃ es la, Expr.eraseAll es = Tree.exprAll argv ∧
    Steps find (.clean eof .expects (.call str l lparen :: ctxs) (w ++ rest))
      (.clean eof (.args es la) (.call str l lparen :: ctxs) rest)

theorem ParsesTo.call {str : Bytes} {fn : F} {argv : List (Tree F)} {w : List (Token × YYLTYPE)}
    {l₀ lp l₁ : YYLTYPE} (hfind : find str = some fn)
    (h : ParsesArgs find eof ctxs str l₀ lp argv w ((.rparen, l₁) :: rest)) :
    ParsesTo find eof ctxs (.call str fn argv)
      ((.STRING str, l₀) :: (.lparen, lp) :: (w ++ [(.rparen, l₁)])) rest := by
  obtain ⟨es, la, hes, hsteps⟩ := h
  have hstring : (Config.clean eof .expects ctxs
        ((.STRING str, l₀) :: (.lparen, lp) :: (w ++ (.rparen, l₁) :: rest))).step find =
      .inl (.clean eof (.string str l₀) ctxs ((.lparen, lp) :: (w ++ (.rparen, l₁) :: rest))) := rfl
  have hparen : (Config.clean eof (.string str l₀) ctxs
        ((.lparen, lp) :: (w ++ (.rparen, l₁) :: rest))).step find =
      .inl (.clean eof .expects (.call str l₀ lp :: ctxs) (w ++ (.rparen, l₁) :: rest)) := rfl
  have hcall : (Config.clean eof (.args es la) (.call str l₀ lp :: ctxs)
        ((.rparen, l₁) :: rest)).step find =
      .inl (.clean eof (.expr (.node (.found fn) str es (l₀.to l₁)) (l₀.to l₁)) ctxs rest) := by
    simp only [Config.step, Config.clean, Config.afterArgs, hfind]
    rfl
  refine ⟨.node (.found fn) str es (l₀.to l₁), l₀.to l₁, ?_, ?_⟩
  · simp only [Expr.erase, Tree.expr, hes]
  · simp only [List.cons_append, List.append_assoc, List.nil_append]
    exact .head hstring (.head hparen (hsteps.tail hcall))

theorem ParsesTo.args_one {str : Bytes} {l lparen : YYLTYPE} {t : Tree F}
    {w : List (Token × YYLTYPE)} (hcloses : Closes rest)
    (h : ParsesTo find eof (.call str l lparen :: ctxs) t w rest) :
    ParsesArgs find eof ctxs str l lparen [t] w rest := by
  obtain ⟨e, le, he, hsteps⟩ := h
  have hreduce : (Config.clean eof (.expr e le) (.call str l lparen :: ctxs) rest).step find =
      .inl (.clean eof (.args [e] le) (.call str l lparen :: ctxs) rest) := hcloses.step
  exact ⟨[e], le, by simp only [Expr.eraseAll, Tree.exprAll, he], hsteps.tail hreduce⟩

theorem ParsesArgs.cons {str : Bytes} {l lparen lc : YYLTYPE} {argv : List (Tree F)} {t : Tree F}
    {wa wt : List (Token × YYLTYPE)} (hcloses : Closes rest)
    (hargs : ParsesArgs find eof ctxs str l lparen argv wa ((.comma, lc) :: (wt ++ rest)))
    (h : ∀ es la, ParsesTo find eof (.comma str l lparen es la :: ctxs) t wt rest) :
    ParsesArgs find eof ctxs str l lparen (argv ++ [t]) (wa ++ (.comma, lc) :: wt) rest := by
  obtain ⟨es, la, hes, hsteps₁⟩ := hargs
  obtain ⟨e, le, he, hsteps₂⟩ := h es la
  have hcomma : (Config.clean eof (.args es la) (.call str l lparen :: ctxs)
        ((.comma, lc) :: (wt ++ rest))).step find =
      .inl (.clean eof .expects (.comma str l lparen es la :: ctxs) (wt ++ rest)) := rfl
  have hreduce : (Config.clean eof (.expr e le) (.comma str l lparen es la :: ctxs) rest).step find =
      .inl (.clean eof (.args (es ++ [e]) (la.to le)) (.call str l lparen :: ctxs) rest) :=
    hcloses.step
  refine ⟨es ++ [e], la.to le, ?_, ?_⟩
  · rw [Expr.eraseAll_append, Tree.exprAll_append, hes]
    simp only [Expr.eraseAll, Tree.exprAll, he]
  · rw [List.append_assoc]
    exact hsteps₁.trans (.head hcomma (hsteps₂.tail hreduce))

theorem closes_next
    (h : ∃ t lt rest', (t = Token.rparen ∨ t = Token.comma) ∧ rest = (t, lt) :: rest') :
    Closes rest := by
  obtain ⟨t, lt, rest', ht, rfl⟩ := h
  rcases ht with rfl | rfl
  · exact closes_cons (by decide)
  · exact closes_cons (by decide)

/-- A list of tokens that ends with one. -/
theorem map_eq_concat {wl : List (Token × YYLTYPE)} {w : List Token} {t : Token}
    (h : wl.map Prod.fst = w ++ [t]) :
    ∃ wl' l, wl = wl' ++ [(t, l)] ∧ wl'.map Prod.fst = w := by
  obtain ⟨wl', wt, rfl, hw, ht⟩ := List.map_eq_append_iff.mp h
  obtain ⟨⟨t', l⟩, wn, rfl, rfl, hnil⟩ := List.map_eq_cons_iff.mp ht
  obtain rfl := List.map_eq_nil_iff.mp hnil
  exact ⟨wl', l, rfl, hw⟩

/-- A list of tokens with one in the middle. -/
theorem map_eq_split {wl : List (Token × YYLTYPE)} {w w' : List Token} {t : Token}
    (h : wl.map Prod.fst = w ++ t :: w') :
    ∃ a l b, wl = a ++ (t, l) :: b ∧ a.map Prod.fst = w ∧ b.map Prod.fst = w' := by
  obtain ⟨a, wt, rfl, ha, ht⟩ := List.map_eq_append_iff.mp h
  obtain ⟨⟨t', l⟩, b, rfl, rfl, hb⟩ := List.map_eq_cons_iff.mp ht
  exact ⟨a, l, b, rfl, ha, hb⟩

theorem stops_operator (o : Op) (lop : YYLTYPE) : Stops o.prec ((o.token, lop) :: rest) := by
  intro x hx
  obtain rfl := Option.some.inj hx
  refine ⟨by cases o <;> exact fun h => (nomatch h), fun o' ho' => ?_⟩
  rw [Op.op?_token] at ho'
  rw [Option.some.inj ho']

variable (find) in
/-- What is shown of a printing at precedence `p`. -/
def PrintsRuns (p : Nat) (t : Tree F) (w : List Token) : Prop :=
  ∀ (eof : YYLTYPE) (ctxs : List (Ctx F)) (wl rest : List (Token × YYLTYPE)),
    wl.map Prod.fst = w → Fits p ctxs → Stops p rest → ParsesTo find eof ctxs t wl rest

variable (find) in
/-- What is shown of a printing that something closes. -/
def ClosedRuns (t : Tree F) (w : List Token) : Prop :=
  ∀ (eof : YYLTYPE) (ctxs : List (Ctx F)) (wl rest : List (Token × YYLTYPE)),
    wl.map Prod.fst = w → ctxPrec ctxs = 0 → Closes rest → ParsesTo find eof ctxs t wl rest

variable (find) in
/-- What is shown of the arguments of a call. -/
def ArgsRuns (argv : List (Tree F)) (w : List Token) : Prop :=
  ∀ (eof : YYLTYPE) (ctxs : List (Ctx F)) (str : Bytes) (l lparen : YYLTYPE)
    (wl rest : List (Token × YYLTYPE)), wl.map Prod.fst = w →
    (∃ t lt rest', (t = .rparen ∨ t = .comma) ∧ rest = (t, lt) :: rest') →
    ParsesArgs find eof ctxs str l lparen argv wl rest

/-- The parser takes what prints a tree to the tree: by the rules of `Prints`, each of
which asks of the open rule what its parts ask. -/
theorem closed_steps {t : Tree F} {w : List Token} (h : Closed find t w) : ClosedRuns find t w := by
  refine @Closed.rec F find (fun p t w _ => PrintsRuns find p t w) (fun t w _ => ClosedRuns find t w)
    (fun argv w _ => ArgsRuns find argv w) ?literal ?binary ?not ?paren ?ifThen ?ifThenElse ?call
    ?plain ?semi ?nil ?one ?cons t w h
  case literal =>
    intro p str eof ctxs wl rest hwl _ hstop
    obtain ⟨⟨t, l⟩, wl', rfl, rfl, hnil⟩ := List.map_eq_cons_iff.mp hwl
    obtain rfl := List.map_eq_nil_iff.mp hnil
    exact ⟨_, l, rfl, steps_literal fun x hx => (hstop x hx).1⟩
  case binary =>
    intro p o left right _ _ ho _ _ ihleft ihright eof ctxs wl rest hwl hfits hstop
    obtain ⟨wl, lop, wr, rfl, hl, hr⟩ := map_eq_split hwl
    exact .binary
      (ihleft _ _ _ _ hl (fun o' ho' => hfits o' (ho.trans ho')) (stops_operator o lop))
      (fun e l => ihright _ _ _ _ hr (fun o' ho' => ho') (hstop.mono (Nat.le_succ_of_le ho)))
      (hfits o ho) (hstop.mono ho)
  case not =>
    intro p t _ _ ih eof ctxs wl rest hwl _ hstop
    obtain ⟨⟨tn, ln⟩, wl, rfl, rfl, hw⟩ := List.map_eq_cons_iff.mp hwl
    -- no operator binds as strongly as `!`
    exact .not (ih _ _ _ _ hw
      (fun o ho => absurd (ho.trans o.prec_le) (Nat.not_succ_le_self 6))
      (fun x hx => ⟨(hstop x hx).1, fun o _ => o.prec_le.trans (Nat.le_succ 6)⟩))
  case paren =>
    intro p t _ _ ih eof ctxs wl rest hwl _ _
    obtain ⟨⟨tl, l₀⟩, wl', rfl, rfl, hw⟩ := List.map_eq_cons_iff.mp hwl
    obtain ⟨wl, l₁, rfl, hw'⟩ := map_eq_concat hw
    exact .paren (ih _ _ _ _ hw' rfl (closes_cons (by decide)))
  case ifThen =>
    intro p cond yes _ _ _ _ ihcond ihyes eof ctxs wl rest hwl _ _
    obtain ⟨⟨ti, l₀⟩, wl', rfl, rfl, hw⟩ := List.map_eq_cons_iff.mp hwl
    obtain ⟨wc, lt, wr, rfl, hwc, hr⟩ := map_eq_split hw
    obtain ⟨wy, l₁, rfl, hwy⟩ := map_eq_concat hr
    exact .ifThen (ihcond _ _ _ _ hwc rfl (closes_cons (by decide)))
      fun e => ihyes _ _ _ _ hwy rfl (closes_cons (by decide))
  case ifThenElse =>
    intro p cond yes no _ _ _ _ _ _ ihcond ihyes ihno eof ctxs wl rest hwl _ _
    obtain ⟨⟨ti, l₀⟩, wl', rfl, rfl, hw⟩ := List.map_eq_cons_iff.mp hwl
    obtain ⟨wc, lt, wr, rfl, hwc, hr⟩ := map_eq_split hw
    obtain ⟨wy, le, wr', rfl, hwy, hr'⟩ := map_eq_split hr
    obtain ⟨wn, l₁, rfl, hwn⟩ := map_eq_concat hr'
    exact .ifThenElse (ihcond _ _ _ _ hwc rfl (closes_cons (by decide)))
      (fun e => ihyes _ _ _ _ hwy rfl (closes_cons (by decide)))
      fun e e' => ihno _ _ _ _ hwn rfl (closes_cons (by decide))
  case call =>
    intro p str fn argv _ hfind _ ih eof ctxs wl rest hwl _ _
    obtain ⟨⟨ts, l₀⟩, wl', rfl, rfl, hw⟩ := List.map_eq_cons_iff.mp hwl
    obtain ⟨⟨tp, lp⟩, wl', rfl, rfl, hw'⟩ := List.map_eq_cons_iff.mp hw
    obtain ⟨wl, l₁, rfl, hw''⟩ := map_eq_concat hw'
    exact .call hfind (ih _ _ _ _ _ _ _ hw'' ⟨.rparen, l₁, rest, .inl rfl, rfl⟩)
  case plain =>
    intro t w _ ih eof ctxs wl rest hwl hctx hcloses
    exact ih _ _ _ _ hwl (fits_of_zero le_rfl hctx) (hcloses.stops 1)
  case semi =>
    intro t w _ ih eof ctxs wl rest hwl hctx hcloses
    obtain ⟨wl, ls, rfl, hl⟩ := map_eq_concat hwl
    obtain ⟨e, l, he, hsteps⟩ := ih eof ctxs wl _ hl (fits_of_zero le_rfl hctx)
      (stops_operator .semi ls)
    refine ⟨e.withLoc l, l.to ls, by rw [Expr.erase_withLoc, he], ?_⟩
    rw [List.append_assoc]
    exact hsteps.trans (hcloses.steps_semi hctx)
  case nil =>
    intro eof ctxs str l lparen wl rest hwl hnext
    obtain rfl := List.map_eq_nil_iff.mp hwl
    obtain ⟨t, lt, rest', ht, rfl⟩ := hnext
    refine ⟨[], lparen, rfl, .single ?_⟩
    rcases ht with rfl | rfl
    · rfl
    · rfl
  case one =>
    intro t w _ ih eof ctxs str l lparen wl rest hwl hnext
    exact (ih _ _ _ _ hwl rfl (closes_next hnext)).args_one (closes_next hnext)
  case cons =>
    intro argv t _ _ _ _ _ ihargs ih eof ctxs str l lparen wl rest hwl hnext
    obtain ⟨wa, lc, wt, rfl, hwa, hwt⟩ := map_eq_split hwl
    exact (ihargs _ _ _ _ _ _ _ hwa ⟨.comma, lc, wt ++ rest, .inr rfl, rfl⟩).cons
      (closes_next hnext) fun es la => ih _ _ _ _ hwt rfl (closes_next hnext)

end Steps

/-! ## No printing has `!` in front of `==` -/

/-- The tokens have no `!` in front of `==`, also when others like these stand around them. -/
structure Tidy (w : List Token) : Prop where
  chain : w.IsChain fun a b => ¬(a = .not ∧ b = .EQ)
  head : w.head? ≠ some .EQ
  last : w.getLast? ≠ some .not

theorem Tidy.append {a b : List Token} (ha : Tidy a) (hb : Tidy b) : Tidy (a ++ b) := by
  refine ⟨List.isChain_append.mpr ⟨ha.chain, hb.chain, ?_⟩, ?_, ?_⟩
  · rintro x hx y hy ⟨rfl, rfl⟩
    exact ha.last hx
  · cases a with
    | nil => exact hb.head
    | cons t a => exact ha.head
  · cases b with
    | nil =>
      rw [List.append_nil]
      exact ha.last
    | cons t b =>
      rw [List.getLast?_append_of_ne_nil _ (List.cons_ne_nil _ _)]
      exact hb.last

theorem Tidy.token {t : Token} (hEQ : t ≠ .EQ) (hnot : t ≠ .not) : Tidy [t] :=
  ⟨.singleton t, fun h => hEQ (Option.some.inj h), fun h => hnot (Option.some.inj h)⟩

theorem Tidy.operator {a b : List Token} (o : Op) (ha : Tidy a) (hne : a ≠ []) (hb : Tidy b)
    (hne' : b ≠ []) : Tidy (a ++ o.token :: b) := by
  have ho : o.token ≠ .not := by cases o <;> exact fun h => nomatch h
  obtain ⟨t, a, rfl⟩ := List.exists_cons_of_ne_nil hne
  obtain ⟨t', b, rfl⟩ := List.exists_cons_of_ne_nil hne'
  refine ⟨List.isChain_append.mpr ⟨ha.chain, ?_, ?_⟩, ha.head, ?_⟩
  · exact List.isChain_cons_cons.mpr ⟨fun h => ho h.1, hb.chain⟩
  · rintro x hx y hy ⟨rfl, rfl⟩
    exact ha.last hx
  · rw [List.getLast?_append_of_ne_nil _ (List.cons_ne_nil _ _), List.getLast?_cons_cons]
    exact hb.last

theorem Tidy.not {w : List Token} (h : Tidy w) (hne : w ≠ []) : Tidy (.not :: w) := by
  obtain ⟨t, w, rfl⟩ := List.exists_cons_of_ne_nil hne
  refine ⟨List.isChain_cons_cons.mpr ⟨?_, h.chain⟩, fun h => (nomatch h), ?_⟩
  · rintro ⟨_, rfl⟩
    exact h.head rfl
  · rw [List.getLast?_cons_cons]
    exact h.last

/-- Tokens in front of tidy ones. -/
theorem Tidy.cons {t : Token} {w : List Token} (h : Tidy w) (hEQ : t ≠ .EQ) (hnot : t ≠ .not) :
    Tidy (t :: w) :=
  (Tidy.token hEQ hnot).append h

theorem Closed.tidy {find : Bytes → Option F} {t : Tree F} {w : List Token} (h : Closed find t w) :
    Tidy w ∧ w ≠ [] := by
  refine @Closed.rec F find (fun _ _ w _ => Tidy w ∧ w ≠ []) (fun _ w _ => Tidy w ∧ w ≠ [])
    (fun _ w _ => Tidy w) ?literal ?binary ?not ?paren ?ifThen ?ifThenElse ?call ?plain ?semi
    ?nil ?one ?cons t w h
  case literal =>
    intro p str
    exact ⟨.token (fun h => nomatch h) (fun h => nomatch h), List.cons_ne_nil _ _⟩
  case binary =>
    intro p o left right wl wr _ _ _ ihl ihr
    exact ⟨.operator o ihl.1 ihl.2 ihr.1 ihr.2, by simp⟩
  case not =>
    intro p t w _ ih
    exact ⟨ih.1.not ih.2, List.cons_ne_nil _ _⟩
  case paren =>
    intro p t w _ ih
    have hclose : Tidy [Token.rparen] := .token (fun h => nomatch h) (fun h => nomatch h)
    exact ⟨(ih.1.append hclose).cons (fun h => nomatch h) (fun h => nomatch h),
      List.cons_ne_nil _ _⟩
  case ifThen =>
    intro p cond yes wc wy _ _ ihc ihy
    have hclose : Tidy [Token.ENDIF] := .token (fun h => nomatch h) (fun h => nomatch h)
    have hthen := (ihy.1.append hclose).cons (t := .THEN) (fun h => nomatch h) (fun h => nomatch h)
    exact ⟨(ihc.1.append hthen).cons (fun h => nomatch h) (fun h => nomatch h),
      List.cons_ne_nil _ _⟩
  case ifThenElse =>
    intro p cond yes no wc wy wn _ _ _ ihc ihy ihn
    have hclose : Tidy [Token.ENDIF] := .token (fun h => nomatch h) (fun h => nomatch h)
    have helse := (ihn.1.append hclose).cons (t := .ELSE) (fun h => nomatch h) (fun h => nomatch h)
    have hthen := (ihy.1.append helse).cons (t := .THEN) (fun h => nomatch h) (fun h => nomatch h)
    exact ⟨(ihc.1.append hthen).cons (fun h => nomatch h) (fun h => nomatch h),
      List.cons_ne_nil _ _⟩
  case call =>
    intro p str fn argv w _ _ ih
    have hclose : Tidy [Token.rparen] := .token (fun h => nomatch h) (fun h => nomatch h)
    have hargs := (ih.append hclose).cons (t := .lparen) (fun h => nomatch h) (fun h => nomatch h)
    exact ⟨hargs.cons (fun h => nomatch h) (fun h => nomatch h), List.cons_ne_nil _ _⟩
  case plain =>
    intro t w _ ih
    exact ih
  case semi =>
    intro t w _ ih
    have hsemi : Tidy [Token.semi] := .token (fun h => nomatch h) (fun h => nomatch h)
    exact ⟨ih.1.append hsemi, by simp⟩
  case nil => exact ⟨.nil, fun h => (nomatch h), fun h => nomatch h⟩
  case one =>
    intro t w _ ih
    exact ih.1
  case cons =>
    intro argv t w wt _ _ _ ihargs ih
    exact ihargs.append (ih.1.cons (fun h => nomatch h) (fun h => nomatch h))

/-! ## Parsing a printed text -/

/-- A text of a tree is parsed, without an error, to that tree. The text may be scanned
with any globals that are not inside a string literal. -/
theorem parse_prints {find : Bytes → Option F} {t : Tree F} {w : List Token} {script : Bytes}
    (hprint : Closed find t w) (hspell : Spells w script) {g : Lexer} (hg : g.start = .INITIAL) :
    ∃ e g', parse find g script = .done (⟨0, 0, some e⟩, g') ∧ e.erase = t.expr := by
  obtain ⟨tls, g', htokens, hmap⟩ := tokens_spells hspell hprint.tidy.1.chain hg
  have hcloses : Closes ([] : List (Token × YYLTYPE)) := fun x hx => nomatch hx
  obtain ⟨e, l, he, hsteps⟩ := closed_steps hprint g'.yylloc [] tls [] hmap rfl hcloses
  rw [List.append_nil] at hsteps
  have hroot : (Config.clean g'.yylloc (.expr e l) [] []).step find =
      .inl ⟨.input l, [], [], g'.yylloc, 0, 0, some e⟩ := rfl
  have haccept : (⟨.input l, [], [], g'.yylloc, 0, 0, some e⟩ : Config F).step find = .inr 0 := rfl
  have hrun : yyparse find tls g'.yylloc = .done ⟨0, 0, some e⟩ :=
    run_of_steps (hsteps.tail hroot) (Config.initial_counted tls g'.yylloc) haccept
      (Nat.lt_succ_self _)
  refine ⟨e, g', ?_, he⟩
  rw [parse, htokens, Outcome.done_bind]
  simp only [hrun, Outcome.done_bind]

/-- The script `!a + "b\n" ;` with a comment and a newline at the end. -/
theorem parse_prints_sum :
    ∃ e g', parse (fun _ => some ()) .fresh (ascii "!a + \"b\\n\" ;#c\n") =
        .done (⟨0, 0, some e⟩, g') ∧
      e.erase = (Tree.binary .plus (.not (.literal (ascii "a"))) (.literal (ascii "b\n"))).expr := by
  have hprint : Closed (fun _ => some ())
      (.binary .plus (.not (.literal (ascii "a"))) (.literal (ascii "b\n")))
      ([.not, .STRING (ascii "a"), .plus, .STRING (ascii "b\n")] ++ [.semi]) := by
    have hp : 1 ≤ Op.plus.prec := by decide
    exact .semi (.binary hp (.not .literal) .literal)
  have hspace : Layout (ascii " ") := .blank (by decide) .nil
  have hcomment : Layout (hash :: (ascii "c" ++ newline :: [])) := .comment (by decide) .nil
  have hword : Spelling (.STRING (ascii "a")) (ascii "a") :=
    .word (by decide) (List.all_eq_true.mp (by decide)) (by decide)
  have hescaped : Escaped (ascii "b\n") (ascii "b\\n") := by
    have hn : (110, newline) ∈ escapes := by decide
    exact .raw (by decide) (by decide) (.escape hn .nil)
  have hquoted := Spelling.quoted hescaped (by decide) (by decide)
  have hnot : Spelling .not (ascii "!") := by
    have hmem : (ascii "!", Token.not) ∈ operators := by decide
    exact .operator hmem
  have hplus : Spelling .plus (ascii "+") := by
    have hmem : (ascii "+", Token.plus) ∈ operators := by decide
    exact .operator hmem
  have hsemi : Spelling .semi (ascii ";") := by
    have hmem : (ascii ";", Token.semi) ∈ operators := by decide
    exact .operator hmem
  have hapart : ∀ {text rest : Bytes} {c : UInt8}, text.head? = some c → isWord c = false →
      (∀ b ∈ text, isWord b) → ∀ b ∈ rest.head?, isWord b = false := by
    intro text rest c hc hw hall
    cases text with
    | nil => cases hc
    | cons x text =>
      obtain rfl := Option.some.inj hc
      rw [hall x List.mem_cons_self] at hw
      cases hw
  have hspell := Spells.cons .nil hnot (hapart rfl (by decide))
    (.cons .nil hword (fun _ c hc => by cases hc; decide)
      (.cons hspace hplus (hapart rfl (by decide))
        (.cons hspace hquoted (hapart rfl (by decide))
          (.cons hspace hsemi (hapart rfl (by decide)) (.nil hcomment)))))
  exact parse_prints hprint hspell rfl

end BootableRecovery.Edify
