import BootableRecovery.Edify.Parser

/-!
# The ranges of expressions, and what survives a parse

Every expression has the place of its text in the script, which `assert` quotes.
`Derives` is the grammar with the places: which tokens are the text of an expression,
also behind an error. The globals of the scanner are not reset before a script is
parsed, so that the places are right only when they happen to start anew.

Main results:
* `steps_cover`: the symbols on the parser's stack cover the tokens read so far.
* `yyparse_eof`: where the scanner stood at the end of the script does not matter.
* `session_history_free`: in a run whose parses all start anew, no parse depends on
  the ones before it, and every range is that of the expression's text.
-/

namespace BootableRecovery.Edify

variable {F : Type}

/-! ## The place of a text -/

/-- From the first to the last token. -/
def place (w : List (Token × YYLTYPE)) : YYLTYPE :=
  ⟨(w.head?.map (·.2.start)).getD 0, (w.getLast?.map (·.2.end_)).getD 0⟩

@[simp] theorem place_singleton (x : Token × YYLTYPE) : place [x] = x.2 := rfl

@[simp] theorem YYLTYPE.to_start (a b : YYLTYPE) : (a.to b).start = a.start := rfl

@[simp] theorem YYLTYPE.to_end (a b : YYLTYPE) : (a.to b).end_ = b.end_ := rfl

theorem place_append {a b : List (Token × YYLTYPE)} (ha : a ≠ []) (hb : b ≠ []) :
    place (a ++ b) = (place a).to (place b) := by
  obtain ⟨x, a, rfl⟩ := List.exists_cons_of_ne_nil ha
  have hlast : ((x :: a) ++ b).getLast? = b.getLast? := List.getLast?_append_of_ne_nil _ hb
  simp only [place, hlast]
  rfl

theorem place_cons (x : Token × YYLTYPE) {w : List (Token × YYLTYPE)} (hw : w ≠ []) :
    place (x :: w) = x.2.to (place w) :=
  place_append (List.cons_ne_nil x []) hw

theorem place_start_append {a : List (Token × YYLTYPE)} (ha : a ≠ []) (b : List (Token × YYLTYPE)) :
    (place (a ++ b)).start = (place a).start := by
  obtain ⟨x, a, rfl⟩ := List.exists_cons_of_ne_nil ha
  rfl

/-- A text between two tokens. -/
theorem place_between (x y : Token × YYLTYPE) (w : List (Token × YYLTYPE)) :
    place (x :: (w ++ [y])) = x.2.to y.2 := by
  have h : place ((x :: w) ++ [y]) = (place (x :: w)).to (place [y]) :=
    place_append (List.cons_ne_nil x w) (List.cons_ne_nil y [])
  rw [← List.cons_append, h]
  rfl

/-! ## The grammar with places -/

mutual

/-- The tokens are the text of the expression. The place of the expression itself is
left open, those of the expressions inside it are as `Ranged` says. -/
inductive Derives : List (Token × YYLTYPE) → Expr F → Prop where
  | literal {str l loc} : Derives [(.STRING str, l)] (.node .Literal str [] loc)
  | paren {w e l₀ l₁ loc} : Ranged w e →
      Derives ((.lparen, l₀) :: (w ++ [(.rparen, l₁)])) (e.withLoc loc)
  | terminated {w e l loc} : Ranged w e → Derives (w ++ [(.semi, l)]) (e.withLoc loc)
  | afterError {junk w e l loc} : Ranged w e →
      Derives (junk ++ (.semi, l) :: w) (e.withLoc loc)
  | binary {o w₁ w₂ e₁ e₂ l loc} : Ranged w₁ e₁ → Ranged w₂ e₂ →
      Derives (w₁ ++ (Op.token o, l) :: w₂) (.Build o.fn loc [e₁, e₂])
  | not {w e l loc} : Ranged w e → Derives ((.not, l) :: w) (.Build .LogicalNotFn loc [e])
  | ifThen {wc wy c y l₀ l₁ l₂ loc} : Ranged wc c → Ranged wy y →
      Derives ((.IF, l₀) :: (wc ++ (.THEN, l₁) :: (wy ++ [(.ENDIF, l₂)])))
        (.Build .IfElseFn loc [c, y])
  | ifThenElse {wc wy wn c y n l₀ l₁ l₂ l₃ loc} : Ranged wc c → Ranged wy y → Ranged wn n →
      Derives ((.IF, l₀) :: (wc ++ (.THEN, l₁) :: (wy ++ (.ELSE, l₂) :: (wn ++ [(.ENDIF, l₃)]))))
        (.Build .IfElseFn loc [c, y, n])
  | call {str fn argv w l₀ l₁ l₂ loc} : RangedArgs w argv →
      Derives ((.STRING str, l₀) :: (.lparen, l₁) :: (w ++ [(.rparen, l₂)]))
        (.node (.found fn) str argv loc)

/-- The expression has the place of its text, which a semicolon may follow. -/
inductive Ranged : List (Token × YYLTYPE) → Expr F → Prop where
  | exact {w e} : Derives w e → e.loc = place w → Ranged w e
  | semi {w e l} : Derives w e → e.loc = place w → Ranged (w ++ [(.semi, l)]) e

inductive RangedArgs : List (Token × YYLTYPE) → List (Expr F) → Prop where
  | empty : RangedArgs [] []
  | one {w e} : Ranged w e → RangedArgs w [e]
  | cons {wa argv w e l} : RangedArgs wa argv → Ranged w e →
      RangedArgs (wa ++ (.comma, l) :: w) (argv ++ [e])

end

@[simp] theorem Expr.loc_withLoc (e : Expr F) (l : YYLTYPE) : (e.withLoc l).loc = l := by
  cases e with
  | node => rfl

theorem Expr.withLoc_self {e : Expr F} {l : YYLTYPE} (h : e.loc = l) : e.withLoc l = e := by
  cases e with
  | node =>
    subst h
    rfl

theorem Derives.ne_nil {w : List (Token × YYLTYPE)} {e : Expr F} (h : Derives w e) : w ≠ [] := by
  cases h <;> simp

theorem Ranged.ne_nil {w : List (Token × YYLTYPE)} {e : Expr F} (h : Ranged w e) : w ≠ [] := by
  cases h with
  | exact h _ => exact h.ne_nil
  | semi _ _ => simp

/-- The rule `expr ';'`. -/
theorem Ranged.terminate {w : List (Token × YYLTYPE)} {e : Expr F} (h : Ranged w e) (l : YYLTYPE) :
    Ranged (w ++ [(.semi, l)]) (e.withLoc (place w)) := by
  cases h with
  | exact hd hloc =>
    rw [Expr.withLoc_self hloc]
    exact .semi hd hloc
  | semi hd hloc => exact .semi (.terminated (.exact hd hloc)) (Expr.loc_withLoc _ _)

/-! ## What the stack covers -/

/-- No argument list starts with a comma. bison gives the empty list in front of it the
place of the parenthesis. -/
def NoEmptyFirst (ts : List (Token × YYLTYPE)) : Prop :=
  ∀ a b l₀ l₁, ts ≠ a ++ (.lparen, l₀) :: (.comma, l₁) :: b

/-- The tokens of an open rule. -/
def Ctx.Covers (tidy : Prop) : Ctx F → List (Token × YYLTYPE) → Prop
  | .paren l, w => w = [(.lparen, l)]
  | .not l, w => w = [(.not, l)]
  | .binary o e l lop, w => ∃ w', w = w' ++ [(o.token, lop)] ∧ Ranged w' e ∧ l = place w'
  | .errorSemi l, w => ∃ junk ls, w = junk ++ [(.semi, ls)] ∧ l.start = (place w).start
  | .cond l, w => w = [(.IF, l)]
  | .then_ l c, w => ∃ wc lt, w = (.IF, l) :: (wc ++ [(.THEN, lt)]) ∧ Ranged wc c
  | .else_ l c y, w => ∃ wc lt wy le,
      w = (.IF, l) :: (wc ++ (.THEN, lt) :: (wy ++ [(.ELSE, le)])) ∧ Ranged wc c ∧ Ranged wy y
  | .call str l lparen, w => w = [(.STRING str, l), (.lparen, lparen)]
  | .comma str l lparen argv largs, w => ∃ wa lc,
      w = (.STRING str, l) :: (.lparen, lparen) :: (wa ++ [(.comma, lc)]) ∧ RangedArgs wa argv ∧
        (tidy → wa ≠ [] ∧ largs.start = (place wa).start)

/-- The tokens of the open rules, the innermost at the end. -/
def CtxsCover (tidy : Prop) : List (Ctx F) → List (Token × YYLTYPE) → Prop
  | [], u => u = []
  | k :: ctxs, u => ∃ a b, u = a ++ b ∧ CtxsCover tidy ctxs a ∧ k.Covers tidy b

/-- The tokens of the symbol on top of the stack. An error starts where the next token
would when nothing was taken off the stack; a last token stands for the end. -/
def Config.TopCovers (tidy : Prop) (c : Config F) (w : List (Token × YYLTYPE)) : Prop :=
  match c.top with
  | .expects => w = []
  | .string str l => w = [(.STRING str, l)]
  | .expr e l => Ranged w e ∧ l = place w
  | .args argv l => RangedArgs w argv ∧ (∃ str l₀ lp ctxs, c.ctxs = .call str l₀ lp :: ctxs) ∧
      (tidy → (w ≠ [] ∧ l.start = (place w).start) ∨
        (w = [] ∧ ∃ t lt rest, c.input = (t, lt) :: rest ∧ (t = .rparen ∨ t = .comma)))
  | .error l => l.start = (place (w ++ c.input ++ [(.BAD, c.eof)])).start
  | .input l => w ≠ [] ∧ l = place w

/-- The stack covers the tokens read so far, and the value of the parse is a first part
of the script. -/
structure Config.Cover (tidy : Prop) (ts : List (Token × YYLTYPE)) (c : Config F) : Prop where
  stack : ∃ u w, CtxsCover tidy c.ctxs u ∧ c.TopCovers tidy w ∧ ts = u ++ w ++ c.input
  root : ∀ e, c.root = some e → ∃ w b, ts = w ++ b ∧ Ranged w e

section Cover

variable {find : Bytes → Option F} {ts : List (Token × YYLTYPE)} {c c' : Config F}
  {u w rest : List (Token × YYLTYPE)} {e : Expr F} {l : YYLTYPE} {x : Token × YYLTYPE}

namespace Config

theorem Cover.shift (h : c.Cover (NoEmptyFirst ts) ts) {top : Top F} {ctxs : List (Ctx F)}
    (hu : CtxsCover (NoEmptyFirst ts) ctxs u) (hinput : c.input = x :: rest)
    (hw : (c.shift top ctxs).TopCovers (NoEmptyFirst ts) w) (hts : ts = u ++ w ++ rest) :
    (c.shift top ctxs).Cover (NoEmptyFirst ts) ts := by
  refine ⟨⟨u, w, hu, hw, ?_⟩, h.root⟩
  rw [hts, Config.shift, hinput, List.tail_cons]

theorem Cover.reduce (h : c.Cover (NoEmptyFirst ts) ts) {top : Top F} {ctxs : List (Ctx F)}
    (hu : CtxsCover (NoEmptyFirst ts) ctxs u)
    (hw : (c.reduce top ctxs).TopCovers (NoEmptyFirst ts) w) (hts : ts = u ++ w ++ c.input) :
    (c.reduce top ctxs).Cover (NoEmptyFirst ts) ts :=
  ⟨⟨u, w, hu, hw, hts⟩, h.root⟩

/-- A new open rule. -/
theorem Cover.push (h : c.Cover (NoEmptyFirst ts) ts) {k : Ctx F} {ctxs : List (Ctx F)}
    (hu : CtxsCover (NoEmptyFirst ts) ctxs u) (hinput : c.input = x :: rest)
    (hk : k.Covers (NoEmptyFirst ts) w) (hts : ts = u ++ w ++ rest) :
    (c.shift .expects (k :: ctxs)).Cover (NoEmptyFirst ts) ts :=
  h.shift ⟨u, w, rfl, hu, hk⟩ hinput rfl (by rw [List.append_nil, hts])

theorem yylloc_start (c : Config F) :
    c.yylloc.start = (place (c.input ++ [(.BAD, c.eof)])).start := by
  unfold yylloc
  cases c.input with
  | nil => rfl
  | cons x input => rfl

/-- What an error does: the symbol on top of the stack becomes an error, and after an
error that was not recovered from yet the next token is discarded. -/
theorem syntaxError_eq (hstep : c.syntaxError = .inl c') :
    c'.top = .error ((c.top.loc?.getD c.yylloc).to c.yylloc) ∧ c'.ctxs = c.ctxs ∧
      c'.eof = c.eof ∧ c'.root = c.root ∧ c'.yyerrstatus = 3 ∧
      (c'.input = c.input ∨ ∃ x, c.input = x :: c'.input) := by
  by_cases h3 : c.yyerrstatus = 3
  · simp only [syntaxError, if_pos h3] at hstep
    cases hinput : c.input with
    | nil =>
      rw [hinput] at hstep
      cases hstep
    | cons x rest =>
      rw [hinput] at hstep
      cases hstep
      exact ⟨rfl, rfl, rfl, rfl, rfl, .inr ⟨x, rfl⟩⟩
  · simp only [syntaxError, if_neg h3] at hstep
    cases hstep
    exact ⟨rfl, rfl, rfl, rfl, rfl, .inl rfl⟩

theorem syntaxError_cover (h : c.Cover (NoEmptyFirst ts) ts)
    (hu : CtxsCover (NoEmptyFirst ts) c.ctxs u) (hts : ts = u ++ w ++ c.input)
    (hloc : (c.top.loc?.getD c.yylloc).start = (place (w ++ c.input ++ [(.BAD, c.eof)])).start)
    (hstep : c.syntaxError = .inl c') : c'.Cover (NoEmptyFirst ts) ts := by
  obtain ⟨htop, hctxs, heof, hroot, _, hinput⟩ := syntaxError_eq hstep
  have hu' : CtxsCover (NoEmptyFirst ts) c'.ctxs u := by
    rw [hctxs]
    exact hu
  have hroot' : ∀ e, c'.root = some e → ∃ w b, ts = w ++ b ∧ Ranged w e := by
    rw [hroot]
    exact h.root
  rcases hinput with hinput | ⟨x, hinput⟩
  · refine ⟨⟨u, w, hu', ?_, by rw [hts, hinput]⟩, hroot'⟩
    simp only [TopCovers, htop, YYLTYPE.to_start, hinput, heof]
    exact hloc
  · refine ⟨⟨u, w ++ [x], hu', ?_, by rw [hts, hinput]; simp⟩, hroot'⟩
    simp only [TopCovers, htop, YYLTYPE.to_start, heof]
    rw [hloc, hinput]
    simp

theorem syntaxError_count (hc : c.Counted) (hstep : c.syntaxError = .inl c') :
    0 < c'.error_count := by
  have hprogress := syntaxError_progress hc
  rw [hstep] at hprogress
  obtain ⟨_, _, _, _, hstatus, _⟩ := syntaxError_eq hstep
  exact hprogress.1.counted (by rw [hstatus]; exact Nat.succ_ne_zero 2)

/-- An error when an expression is expected: nothing is taken off the stack. -/
theorem expects_error (h : c.Cover (NoEmptyFirst ts) ts)
    (hu : CtxsCover (NoEmptyFirst ts) c.ctxs u) (htop : c.top = .expects) (hts : ts = u ++ c.input)
    (hstep : c.syntaxError = .inl c') : c'.Cover (NoEmptyFirst ts) ts := by
  refine syntaxError_cover h hu (w := []) (by rw [List.append_nil, hts]) ?_ hstep
  rw [htop]
  exact c.yylloc_start

/-- An error behind an expression. -/
theorem expr_error (h : c.Cover (NoEmptyFirst ts) ts)
    (hu : CtxsCover (NoEmptyFirst ts) c.ctxs u) (htop : c.top = .expr e l) (hw : Ranged w e)
    (hl : l = place w) (hts : ts = u ++ w ++ c.input) (hstep : c.syntaxError = .inl c') :
    c'.Cover (NoEmptyFirst ts) ts := by
  refine syntaxError_cover h hu hts ?_ hstep
  rw [htop, List.append_assoc, place_start_append hw.ne_nil, hl]
  rfl

theorem expects_cover (h : c.Cover (NoEmptyFirst ts) ts) (htop : c.top = .expects)
    (hstep : c.expects = .inl c') : c'.Cover (NoEmptyFirst ts) ts := by
  obtain ⟨u, w, hu, hw, hts⟩ := h.stack
  simp only [TopCovers, htop] at hw
  subst hw
  rw [List.append_nil] at hts
  unfold expects at hstep
  split at hstep
  next hinput =>
    cases hstep
    exact h.shift hu hinput rfl (by rw [hts, hinput]; simp)
  next hinput =>
    cases hstep
    exact h.push hu hinput rfl (by rw [hts, hinput]; simp)
  next hinput =>
    cases hstep
    exact h.push hu hinput rfl (by rw [hts, hinput]; simp)
  next hinput =>
    cases hstep
    exact h.push hu hinput rfl (by rw [hts, hinput]; simp)
  next =>
    split at hstep
    next hctxs hinput =>
      cases hstep
      refine h.reduce hu (w := []) ?_ (by rw [List.append_nil, hts])
      exact ⟨.empty, ⟨_, _, _, _, hctxs⟩, fun _ => .inr ⟨rfl, _, _, _, hinput, .inl rfl⟩⟩
    next hctxs hinput =>
      cases hstep
      refine h.reduce hu (w := []) ?_ (by rw [List.append_nil, hts])
      exact ⟨.empty, ⟨_, _, _, _, hctxs⟩, fun _ => .inr ⟨rfl, _, _, _, hinput, .inr rfl⟩⟩
    next hctxs =>
      split_ifs at hstep
      · cases hstep
        have hu' := hu
        rw [hctxs] at hu'
        obtain ⟨a, b, rfl, ha, w', rfl, hw', rfl⟩ := hu'
        refine h.reduce ha ⟨hw'.terminate _, ?_⟩ hts
        rw [place_append hw'.ne_nil (List.cons_ne_nil _ _), place_singleton]
      · exact expects_error h hu htop hts hstep
    next => exact expects_error h hu htop hts hstep

theorem closeExpr_cover (h : c.Cover (NoEmptyFirst ts) ts) (htop : c.top = .expr e l)
    (hstep : c.closeExpr e l = .inl c') : c'.Cover (NoEmptyFirst ts) ts := by
  obtain ⟨u, w, hu, hw, hts⟩ := h.stack
  simp only [TopCovers, htop] at hw
  obtain ⟨hw, rfl⟩ := hw
  have hu' := hu
  unfold closeExpr at hstep
  split at hstep
  next hctxs =>
    cases hstep
    rw [hctxs] at hu
    obtain rfl : u = [] := hu
    rw [List.nil_append] at hts
    refine ⟨⟨[], w, rfl, ⟨hw.ne_nil, rfl⟩, hts⟩, fun e' he' => ?_⟩
    obtain rfl := Option.some.inj he'
    exact ⟨w, c.input, hts, hw⟩
  next l₀ ctxs' l₁ rest hctxs hinput =>
    cases hstep
    rw [hctxs] at hu
    obtain ⟨a, b, rfl, ha, rfl⟩ := hu
    refine h.shift ha hinput (w := (.lparen, l₀) :: (w ++ [(.rparen, l₁)]))
      ⟨.exact (.paren hw) ?_, ?_⟩ (by rw [hts, hinput]; simp)
    · rw [Expr.loc_withLoc, place_between]
    · rw [place_between]
  next ln ctxs' hctxs =>
    cases hstep
    rw [hctxs] at hu
    obtain ⟨a, b, rfl, ha, rfl⟩ := hu
    have hplace := place_cons (Token.not, ln) hw.ne_nil
    refine h.reduce ha (w := (.not, ln) :: w) ⟨.exact (.not hw) ?_, ?_⟩ (by rw [hts]; simp)
    · exact hplace.symm
    · exact hplace.symm
  next o left l₀ lop ctxs' hctxs =>
    cases hstep
    rw [hctxs] at hu
    obtain ⟨a, b, rfl, ha, w', rfl, hw', rfl⟩ := hu
    have hplace : place (w' ++ (o.token, lop) :: w) = (place w').to (place w) := by
      rw [place_append hw'.ne_nil (List.cons_ne_nil _ _), place_cons _ hw.ne_nil]
      rfl
    refine h.reduce ha (w := w' ++ (o.token, lop) :: w) ⟨.exact (.binary hw' hw) ?_, ?_⟩
      (by rw [hts]; simp)
    · exact hplace.symm
    · exact hplace.symm
  next l₀ ctxs' hctxs =>
    cases hstep
    rw [hctxs] at hu
    obtain ⟨a, b, rfl, ha, junk, ls, rfl, hl⟩ := hu
    have hplace : place ((junk ++ [(.semi, ls)]) ++ w) = l₀.to (place w) := by
      rw [place_append (by simp) hw.ne_nil]
      exact congrArg (fun n => (⟨n, _⟩ : YYLTYPE)) hl.symm
    refine h.reduce ha (w := (junk ++ [(.semi, ls)]) ++ w) ⟨.exact ?_ ?_, ?_⟩ (by rw [hts]; simp)
    · rw [List.append_assoc, List.singleton_append]
      exact .afterError hw
    · rw [Expr.loc_withLoc, hplace]
    · exact hplace.symm
  next l₀ ctxs' lt rest hctxs hinput =>
    cases hstep
    rw [hctxs] at hu
    obtain ⟨a, b, rfl, ha, rfl⟩ := hu
    have htext : ts = a ++ (.IF, l₀) :: (w ++ [(.THEN, lt)]) ++ rest := by
      rw [hts, hinput]
      simp
    exact h.push ha hinput ⟨w, lt, rfl, hw⟩ htext
  next l₀ cond ctxs' le rest hctxs hinput =>
    cases hstep
    rw [hctxs] at hu
    obtain ⟨a, b, rfl, ha, wc, lt, rfl, hwc⟩ := hu
    have htext : ts = a ++ (.IF, l₀) :: (wc ++ (.THEN, lt) :: (w ++ [(.ELSE, le)])) ++ rest := by
      rw [hts, hinput]
      simp
    exact h.push ha hinput ⟨wc, lt, w, le, rfl, hwc, hw⟩ htext
  next l₀ cond ctxs' l₁ rest hctxs hinput =>
    cases hstep
    rw [hctxs] at hu
    obtain ⟨a, b, rfl, ha, wc, lt, rfl, hwc⟩ := hu
    have hplace : place ((.IF, l₀) :: (wc ++ (.THEN, lt) :: (w ++ [(.ENDIF, l₁)]))) = l₀.to l₁ := by
      have := place_between (Token.IF, l₀) (Token.ENDIF, l₁) (wc ++ (.THEN, lt) :: w)
      simpa using this
    refine h.shift ha hinput (w := (.IF, l₀) :: (wc ++ (.THEN, lt) :: (w ++ [(.ENDIF, l₁)])))
      ⟨.exact (.ifThen hwc hw) ?_, ?_⟩ (by rw [hts, hinput]; simp)
    · exact hplace.symm
    · exact hplace.symm
  next l₀ cond yes ctxs' l₁ rest hctxs hinput =>
    cases hstep
    rw [hctxs] at hu
    obtain ⟨a, b, rfl, ha, wc, lt, wy, le, rfl, hwc, hwy⟩ := hu
    have hplace : place ((.IF, l₀) :: (wc ++ (.THEN, lt) :: (wy ++ (.ELSE, le) ::
        (w ++ [(.ENDIF, l₁)])))) = l₀.to l₁ := by
      have := place_between (Token.IF, l₀) (Token.ENDIF, l₁)
        (wc ++ (.THEN, lt) :: (wy ++ (.ELSE, le) :: w))
      simpa using this
    refine h.shift ha hinput
      (w := (.IF, l₀) :: (wc ++ (.THEN, lt) :: (wy ++ (.ELSE, le) :: (w ++ [(.ENDIF, l₁)]))))
      ⟨.exact (.ifThenElse hwc hwy hw) ?_, ?_⟩ (by rw [hts, hinput]; simp)
    · exact hplace.symm
    · exact hplace.symm
  next hctxs =>
    cases hstep
    exact h.reduce hu' ⟨.one hw, ⟨_, _, _, _, hctxs⟩, fun _ => .inl ⟨hw.ne_nil, rfl⟩⟩ hts
  next str l₀ lparen argv largs ctxs' hctxs =>
    cases hstep
    rw [hctxs] at hu
    obtain ⟨a, b, rfl, ha, wa, lc, rfl, hwa, hlargs⟩ := hu
    refine h.reduce (u := a ++ [(Token.STRING str, l₀), (Token.lparen, lparen)]) (w := wa ++ (.comma, lc) :: w)
      ⟨a, _, rfl, ha, rfl⟩ ⟨hwa.cons hw, ⟨_, _, _, _, rfl⟩, fun htidy => .inl ⟨by simp, ?_⟩⟩
      (by rw [hts]; simp)
    obtain ⟨hne, hstart⟩ := hlargs htidy
    rw [place_start_append hne]
    exact hstart
  next => exact expr_error h hu htop hw rfl hts hstep

theorem afterExpr_cover (h : c.Cover (NoEmptyFirst ts) ts) (htop : c.top = .expr e l)
    (hstep : c.afterExpr e l = .inl c') : c'.Cover (NoEmptyFirst ts) ts := by
  unfold afterExpr at hstep
  split at hstep
  next t lop rest hinput =>
    split at hstep
    next o ho =>
      split_ifs at hstep
      · cases hstep
        obtain ⟨u, w, hu, hw, hts⟩ := h.stack
        simp only [TopCovers, htop] at hw
        have ht : t = o.token := by
          cases t <;> cases o <;> first | rfl | exact nomatch ho
        subst ht
        exact h.push hu hinput ⟨w, rfl, hw.1, hw.2⟩ (by rw [hts, hinput]; simp)
      · exact closeExpr_cover h htop hstep
    next => exact closeExpr_cover h htop hstep
  next => exact closeExpr_cover h htop hstep

theorem afterArgs_cover (h : c.Cover (NoEmptyFirst ts) ts) {argv : List (Expr F)}
    (htop : c.top = .args argv l) (hc : c.Counted)
    (hcount : NoEmptyFirst ts ∨ c'.error_count = 0) (hstep : c.afterArgs find argv = .inl c') :
    c'.Cover (NoEmptyFirst ts) ts := by
  obtain ⟨u, w, hu, hw, hts⟩ := h.stack
  simp only [TopCovers, htop] at hw
  obtain ⟨hargs, hcall, hplace⟩ := hw
  unfold afterArgs at hstep
  split at hstep
  next str l₀ lp ctxs' l₁ rest hctxs hinput =>
    rw [hctxs] at hu
    obtain ⟨a, b, rfl, ha, rfl⟩ := hu
    have htext : ts = a ++ ((.STRING str, l₀) :: (.lparen, lp) :: (w ++ [(.rparen, l₁)])) ++ rest := by
      rw [hts, hinput]
      simp
    have hend : place ((.STRING str, l₀) :: (.lparen, lp) :: (w ++ [(.rparen, l₁)])) = l₀.to l₁ :=
      place_between (Token.STRING str, l₀) (Token.rparen, l₁) ((.lparen, lp) :: w)
    split at hstep
    next fn _ =>
      cases hstep
      exact h.shift ha hinput ⟨.exact (.call hargs) hend.symm, hend.symm⟩ htext
    next =>
      cases hstep
      refine ⟨⟨a, _, ha, ?_, by rw [htext, Config.shift, hinput, List.tail_cons]⟩, h.root⟩
      rfl
  next str l₀ lp ctxs' lc rest hctxs hinput =>
    cases hstep
    rw [hctxs] at hu
    obtain ⟨a, b, rfl, ha, rfl⟩ := hu
    have htext : ts = a ++ ((.STRING str, l₀) :: (.lparen, lp) :: (w ++ [(.comma, lc)])) ++ rest := by
      rw [hts, hinput]
      simp
    refine h.push ha hinput ⟨w, lc, rfl, hargs, fun htidy => ?_⟩ htext
    rcases hplace htidy with ⟨hne, hstart⟩ | ⟨rfl, _⟩
    · refine ⟨hne, ?_⟩
      rw [htop]
      exact hstart
    · -- the list would start with this comma
      exact absurd (by rw [htext]; simp) (htidy (a ++ [(.STRING str, l₀)]) rest lp lc)
  next hno_rparen hno_comma =>
    have htidy : NoEmptyFirst ts := by
      rcases hcount with h | h
      · exact h
      · exact absurd h (Nat.ne_of_gt (syntaxError_count hc hstep))
    refine syntaxError_cover h hu hts ?_ hstep
    rcases hplace htidy with ⟨hne, hstart⟩ | ⟨rfl, t, lt, rest, hinput, ht⟩
    · rw [htop, List.append_assoc, place_start_append hne]
      exact hstart
    · obtain ⟨str, l₀, lp, ctxs', hctxs⟩ := hcall
      rcases ht with rfl | rfl
      · exact absurd hinput (hno_rparen _ _ _ _ _ _ hctxs)
      · exact absurd hinput (hno_comma _ _ _ _ _ _ hctxs)

/-- One step of the parser. -/
theorem step_cover (h : c.Cover (NoEmptyFirst ts) ts) (hc : c.Counted)
    (hcount : NoEmptyFirst ts ∨ c'.error_count = 0) (hstep : c.step find = .inl c') :
    c'.Cover (NoEmptyFirst ts) ts := by
  unfold step at hstep
  split at hstep
  next htop => exact expects_cover h htop hstep
  next str l htop =>
    obtain ⟨u, w, hu, hw, hts⟩ := h.stack
    simp only [TopCovers, htop] at hw
    subst hw
    split at hstep
    next hinput =>
      cases hstep
      exact h.push hu hinput rfl (by rw [hts, hinput]; simp)
    next =>
      cases hstep
      exact h.reduce hu ⟨.exact .literal rfl, rfl⟩ hts
  next htop => exact afterExpr_cover h htop hstep
  next htop => exact afterArgs_cover h htop hc hcount hstep
  next l htop =>
    obtain ⟨u, w, hu, hw, hts⟩ := h.stack
    simp only [TopCovers, htop] at hw
    split at hstep
    next ls rest hinput =>
      cases hstep
      refine h.push hu hinput (w := w ++ [(.semi, ls)]) ⟨w, ls, rfl, ?_⟩ (by rw [hts, hinput]; simp)
      rw [hw, hinput]
      cases w with
      | nil => rfl
      | cons x w => rfl
    next =>
      refine syntaxError_cover h hu hts ?_ hstep
      rw [htop]
      exact hw
  next l htop =>
    obtain ⟨u, w, hu, hw, hts⟩ := h.stack
    simp only [TopCovers, htop] at hw
    split at hstep
    next => cases hstep
    next =>
      refine syntaxError_cover h hu hts ?_ hstep
      rw [htop, List.append_assoc, place_start_append hw.1, hw.2]
      rfl

theorem initial_cover (ts : List (Token × YYLTYPE)) (eof : YYLTYPE) :
    (Config.initial ts eof : Config F).Cover (NoEmptyFirst ts) ts :=
  ⟨⟨[], [], rfl, rfl, rfl⟩, fun _ h => nomatch h⟩

end Config

/-- At every point of a parse the symbols on the stack cover the tokens read so far. -/
theorem steps_cover {eof : YYLTYPE} (h : Steps find (.initial ts eof) c)
    (hcount : NoEmptyFirst ts ∨ c.error_count = 0) : c.Cover (NoEmptyFirst ts) ts := by
  induction h with
  | refl => exact Config.initial_cover ts eof
  | @tail c c' hsteps hstep ih =>
    have hcounted := Steps.counted hsteps (Config.initial_counted ts eof)
    have hprogress := Config.step_progress find hcounted.1
    rw [hstep] at hprogress
    have hbefore : NoEmptyFirst ts ∨ c.error_count = 0 := by
      rcases hcount with h | h
      · exact .inl h
      · exact .inr (Nat.le_zero.mp (h ▸ hprogress.2.2))
    exact Config.step_cover (ih hbefore) hcounted.1 hcount hstep

end Cover

/-! ## The place of the end of the script -/

section Eof

variable {find : Bytes → Option F} {c : Config F}

namespace Config

/-- The parser with another place for the end of the script. -/
def withEof (c : Config F) (eof : YYLTYPE) : Config F := { c with eof := eof }

/-- Only an error looks at that place. -/
theorem step_withEof (find : Bytes → Option F) (c : Config F) (eof : YYLTYPE) :
    (c.withEof eof).step find = (c.step find).map (·.withEof eof) id ∨
      c.step find = c.syntaxError ∧ (c.withEof eof).step find = (c.withEof eof).syntaxError := by
  obtain ⟨top, ctxs, input, eof₀, status, count, root⟩ := c
  cases top with
  | expects =>
    simp only [withEof, step, expects]
    split
    case h_5 =>
      split
      case h_3 => split_ifs <;> first | exact .inl rfl | exact .inr ⟨rfl, rfl⟩
      all_goals first | exact .inl rfl | exact .inr ⟨rfl, rfl⟩
    all_goals exact .inl rfl
  | string str l =>
    simp only [withEof, step]
    split
    · exact .inl rfl
    · exact .inl rfl
  | expr e l =>
    simp only [withEof, step, afterExpr]
    have hclose : ∀ x : YYLTYPE, (closeExpr ⟨.expr e l, ctxs, input, x, status, count, root⟩ e l =
        (closeExpr ⟨.expr e l, ctxs, input, eof₀, status, count, root⟩ e l).map (·.withEof x) id) ∨
        closeExpr ⟨.expr e l, ctxs, input, eof₀, status, count, root⟩ e l =
          syntaxError ⟨.expr e l, ctxs, input, eof₀, status, count, root⟩ ∧
        closeExpr ⟨.expr e l, ctxs, input, x, status, count, root⟩ e l =
          syntaxError ⟨.expr e l, ctxs, input, x, status, count, root⟩ := by
      intro x
      simp only [closeExpr]
      split
      all_goals first | exact .inl rfl | exact .inr ⟨rfl, rfl⟩
    split
    · split
      next o _ =>
        by_cases hp : ctxPrec ctxs < o.prec
        · rw [if_pos hp]
          exact .inl ((if_pos hp).trans rfl)
        · rw [if_neg hp]
          rcases hclose eof with h | ⟨h, h'⟩
          · exact .inl ((if_neg hp).trans h)
          · exact .inr ⟨h, (if_neg hp).trans h'⟩
      next => exact hclose eof
    · exact hclose eof
  | args argv l =>
    simp only [withEof, step, afterArgs]
    split
    · split
      · exact .inl rfl
      · exact .inl rfl
    · exact .inl rfl
    · exact .inr ⟨rfl, rfl⟩
  | error l =>
    simp only [withEof, step]
    split
    · exact .inl rfl
    · exact .inr ⟨rfl, rfl⟩
  | input l =>
    simp only [withEof, step]
    split
    · exact .inl rfl
    · exact .inr ⟨rfl, rfl⟩

theorem syntaxError_withEof (c : Config F) (eof : YYLTYPE) (h : c.input ≠ []) :
    (c.withEof eof).syntaxError = c.syntaxError.map (·.withEof eof) id := by
  obtain ⟨top, ctxs, input, eof₀, status, count, root⟩ := c
  cases input with
  | nil => exact absurd rfl h
  | cons x input =>
    obtain ⟨t, l⟩ := x
    by_cases h3 : status = 3
    · simp [withEof, syntaxError, yylloc, h3]
    · by_cases h0 : status = 0
      · simp [withEof, syntaxError, yylloc, h0]
      · simp [withEof, syntaxError, yylloc, h3, h0]

/-- An error at the end of the script is the end of the parse. -/
theorem run_syntaxError (find : Bytes → Option F) {n : Nat} (h : c.input = []) {c' : Config F}
    (hstep : c.syntaxError = .inl c') :
    run find (n + 1) c' = .done ⟨1, if c.yyerrstatus = 0 then c.error_count + 1 else c.error_count,
      c.root⟩ := by
  by_cases h3 : c.yyerrstatus = 3
  · simp only [syntaxError, if_pos h3, h] at hstep
    cases hstep
  · simp only [syntaxError, if_neg h3] at hstep
    cases hstep
    simp only [run, step, syntaxError, h, if_pos]

end Config

theorem run_withEof (n : Nat) (c : Config F) (eof : YYLTYPE) :
    run find n (c.withEof eof) = run find n c := by
  induction n generalizing c with
  | zero => rfl
  | succ n ih =>
    have hmap : (c.withEof eof).step find = (c.step find).map (·.withEof eof) id →
        run find (n + 1) (c.withEof eof) = run find (n + 1) c := by
      intro h
      rw [run, run, h]
      cases c.step find with
      | inl c' => exact ih c'
      | inr error => rfl
    rcases c.step_withEof find eof with h | ⟨h, h'⟩
    · exact hmap h
    by_cases hinput : c.input = []
    · -- the next step ends the parse
      rw [run, run, h, h']
      have hinput' : (c.withEof eof).input = [] := hinput
      cases hstep : c.syntaxError with
      | inl c₁ =>
        cases hstep' : (c.withEof eof).syntaxError with
        | inl c₂ =>
          cases n with
          | zero => rfl
          | succ n =>
            have h₁ := Config.run_syntaxError find (n := n) hinput hstep
            have h₂ := Config.run_syntaxError find (n := n) hinput' hstep'
            exact h₂.trans h₁.symm
        | inr _ =>
          by_cases h3 : c.yyerrstatus = 3
          · simp [Config.syntaxError, h3, hinput] at hstep
          · simp [Config.syntaxError, Config.withEof, h3] at hstep'
      | inr _ =>
        by_cases h3 : c.yyerrstatus = 3
        · simp only [Config.syntaxError, h3, hinput, if_pos] at hstep
          cases hstep
          simp [Config.syntaxError, Config.withEof, h3, hinput]
        · simp [Config.syntaxError, h3] at hstep
    · exact hmap (by rw [h', h, Config.syntaxError_withEof c eof hinput])

/-- Where the scanner stood at the end of the script does not matter. -/
theorem yyparse_eof (find : Bytes → Option F) (input : List (Token × YYLTYPE)) (eof eof' : YYLTYPE) :
    yyparse find input eof = yyparse find input eof' :=
  (run_withEof _ (Config.initial input eof) eof').symm

end Eof

/-! ## The expressions inside an expression -/

def Expr.argv : Expr F → List (Expr F)
  | .node _ _ argv _ => argv

/-- `e` is the expression `root` or stands inside it. -/
inductive Expr.Within (e : Expr F) : Expr F → Prop where
  | self : Within e e
  | arg {a root : Expr F} : a ∈ root.argv → Within e a → Within e root

@[simp] theorem Expr.argv_withLoc (e : Expr F) (l : YYLTYPE) : (e.withLoc l).argv = e.argv := by
  cases e with
  | node => rfl

/-- Each of the expressions is ranged by a part of the tokens. -/
def RangedInside (w : List (Token × YYLTYPE)) (argv : List (Expr F)) : Prop :=
  ∀ e ∈ argv, ∃ a v b, w = a ++ v ++ b ∧ Ranged v e

theorem RangedInside.nil {w : List (Token × YYLTYPE)} : RangedInside w ([] : List (Expr F)) :=
  fun _ he => nomatch he

theorem RangedInside.one {w : List (Token × YYLTYPE)} {e : Expr F} (h : Ranged w e) :
    RangedInside w [e] := by
  intro e' he
  obtain rfl := List.mem_singleton.mp he
  exact ⟨[], w, [], by simp, h⟩

theorem RangedInside.mono {w : List (Token × YYLTYPE)} {argv : List (Expr F)}
    (h : RangedInside w argv) (x y : List (Token × YYLTYPE)) : RangedInside (x ++ w ++ y) argv := by
  intro e he
  obtain ⟨a, v, b, rfl, hv⟩ := h e he
  exact ⟨x ++ a, v, b ++ y, by simp, hv⟩

theorem RangedInside.append {w w' : List (Token × YYLTYPE)} {argv argv' : List (Expr F)}
    (h : RangedInside w argv) (h' : RangedInside w' argv') :
    RangedInside (w ++ w') (argv ++ argv') := by
  intro e he
  rcases List.mem_append.mp he with he | he
  · simpa using h.mono [] w' e he
  · simpa using h'.mono w [] e he

theorem RangedInside.skip {w : List (Token × YYLTYPE)} {argv : List (Expr F)}
    (h : RangedInside w argv) (x : Token × YYLTYPE) : RangedInside (x :: w) argv := by
  simpa using h.mono [x] []

theorem Derives.inside {w : List (Token × YYLTYPE)} {e : Expr F} (h : Derives w e) :
    RangedInside w e.argv := by
  refine @Derives.rec F (fun w e _ => RangedInside w e.argv) (fun w e _ => RangedInside w e.argv)
    (fun w argv _ => RangedInside w argv)
    ?literal ?paren ?terminated ?afterError ?binary ?not ?ifThen ?ifThenElse ?call ?exact ?semi
    ?empty ?one ?cons w e h
  case literal =>
    intros
    exact .nil
  case paren =>
    intro w e l₀ l₁ loc _ ih
    rw [Expr.argv_withLoc]
    exact ih.mono [_] [_]
  case terminated =>
    intro w e l loc _ ih
    rw [Expr.argv_withLoc]
    exact ih.mono [] [_]
  case afterError =>
    intro junk w e l loc _ ih
    rw [Expr.argv_withLoc]
    simpa using (ih.skip (.semi, l)).mono junk []
  case binary =>
    intro o w₁ w₂ e₁ e₂ l loc h₁ h₂ _ _
    exact (RangedInside.one h₁).append ((RangedInside.one h₂).skip (Op.token o, l))
  case not =>
    intro w e l loc h _
    exact (RangedInside.one h).skip (Token.not, l)
  case ifThen =>
    intro wc wy c y l₀ l₁ l₂ loc hc hy _ _
    have hyes := ((RangedInside.one hy).mono [] [(.ENDIF, l₂)]).skip (.THEN, l₁)
    exact ((RangedInside.one hc).append hyes).skip (.IF, l₀)
  case ifThenElse =>
    intro wc wy wn c y n l₀ l₁ l₂ l₃ loc hc hy hn _ _ _
    have hno := ((RangedInside.one hn).mono [] [(.ENDIF, l₃)]).skip (.ELSE, l₂)
    have hyes := ((RangedInside.one hy).append hno).skip (.THEN, l₁)
    exact ((RangedInside.one hc).append hyes).skip (.IF, l₀)
  case call =>
    intro str fn argv w l₀ l₁ l₂ loc _ ih
    exact ((ih.mono [] [(.rparen, l₂)]).skip (.lparen, l₁)).skip (.STRING str, l₀)
  case exact =>
    intro w e _ _ ih
    exact ih
  case semi =>
    intro w e l _ _ ih
    simpa using ih.mono [] [(.semi, l)]
  case empty => exact .nil
  case one =>
    intro w e h _
    exact .one h
  case cons =>
    intro wa argv w e l _ h iha _
    exact iha.append ((RangedInside.one h).skip (.comma, l))

theorem Ranged.inside {w : List (Token × YYLTYPE)} {e : Expr F} (h : Ranged w e) :
    RangedInside w e.argv := by
  cases h with
  | exact h _ => exact h.inside
  | semi h _ => simpa using h.inside.mono [] [_]

/-- Every expression inside a ranged one has the place of its text. -/
theorem Ranged.within {w : List (Token × YYLTYPE)} {e root : Expr F} (h : Ranged w root)
    (he : e.Within root) : ∃ a v b, w = a ++ v ++ b ∧ Derives v e ∧ e.loc = place v := by
  induction he generalizing w with
  | self =>
    cases h with
    | exact hd hloc => exact ⟨[], w, [], by simp, hd, hloc⟩
    | @semi w _ l hd hloc => exact ⟨[], w, [(.semi, l)], by simp, hd, hloc⟩
  | arg ha _ ih =>
    obtain ⟨a, v, b, rfl, hv⟩ := h.inside _ ha
    obtain ⟨a', v', b', rfl, hd, hloc⟩ := ih hv
    exact ⟨a ++ a', v', b' ++ b, by simp, hd, hloc⟩

/-! ## The text of an expression -/

theorem Located.drop {p : Nat} {s : Bytes} {a v : List (Token × YYLTYPE)}
    (h : Located p s (a ++ v)) : ∃ s₁ s₂, s = s₁ ++ s₂ ∧ Located (p + s₁.length) s₂ v := by
  induction a generalizing p s with
  | nil => exact ⟨[], s, rfl, h⟩
  | cons x a ih =>
    cases h with
    | @cons _ gap text rest t _ _ hrest =>
      obtain ⟨s₁, s₂, rfl, hv⟩ := ih hrest
      refine ⟨gap ++ (text ++ s₁), s₂, by simp, ?_⟩
      have hlen : p + (gap ++ (text ++ s₁)).length = p + gap.length + text.length + s₁.length := by
        simp [Nat.add_assoc]
      rw [hlen]
      exact hv

/-- Tokens at the start of what is left of the script, and the text they stand in. -/
theorem Located.first {p : Nat} {s : Bytes} {v b : List (Token × YYLTYPE)} (hv : v ≠ [])
    (h : Located p s (v ++ b)) :
    ∃ gap m rest, s = gap ++ (m ++ rest) ∧
      place v = ⟨p + gap.length, p + gap.length + m.length⟩ ∧ Located (p + gap.length) m v := by
  induction v generalizing p s with
  | nil => exact absurd rfl hv
  | cons x v ih =>
    cases h with
    | @cons _ gap text rest t _ ht hrest =>
      have hone : ∀ {m : Bytes} {ts : List (Token × YYLTYPE)},
          Located (p + gap.length + text.length) m ts → Located (p + gap.length) (text ++ m)
            ((t, ⟨p + gap.length, p + gap.length + text.length⟩) :: ts) :=
        fun hm => @Located.cons _ [] _ _ _ _ ht hm
      cases v with
      | nil => exact ⟨gap, text, rest, rfl, rfl, by simpa using hone (m := []) .nil⟩
      | cons y v =>
        obtain ⟨gap', m, rest', rfl, hplace, hm⟩ := ih (List.cons_ne_nil y v) hrest
        refine ⟨gap, text ++ (gap' ++ m), rest', by simp, ?_, hone hm.skip⟩
        rw [place_cons _ (List.cons_ne_nil y v), hplace]
        simp [YYLTYPE.to, Nat.add_assoc]

/-- The bytes in the range of some tokens are the text of these tokens. -/
theorem Located.text {s : Bytes} {a v b : List (Token × YYLTYPE)} (hv : v ≠ [])
    (h : Located 0 s (a ++ v ++ b)) :
    (place v).start ≤ (place v).end_ ∧ (place v).end_ ≤ s.length ∧
      Located (place v).start (slice s (place v).start ((place v).end_ - (place v).start)) v := by
  rw [List.append_assoc] at h
  obtain ⟨s₁, s₂, rfl, hrest⟩ := h.drop
  obtain ⟨gap, m, rest, rfl, hplace, hm⟩ := hrest.first hv
  have hslice : slice (s₁ ++ (gap ++ (m ++ rest))) (0 + s₁.length + gap.length)
      (0 + s₁.length + gap.length + m.length - (0 + s₁.length + gap.length)) = m := by
    refine slice_of_append (p := s₁ ++ gap) (q := rest) (by simp) (by simp) ?_
    exact Nat.add_sub_cancel_left _ _
  rw [hplace]
  refine ⟨Nat.le_add_right _ _, ?_, ?_⟩
  · simp [Nat.add_assoc]
  · rw [hslice]
    exact hm

/-! ## Scripts parsed one after another -/

/-- The bytes of the script that `AssertFn` quotes when `e` fails. -/
def assertSource (script : Bytes) (e : Expr F) : Outcome Bytes :=
  if e.loc.start ≤ e.loc.end_ then load script e.loc.start (e.loc.end_ - e.loc.start) else .fault

/-- The range of `e` is that of its text: the bytes in it are those of the tokens of the
expression, and they are what `assert` quotes. -/
def RangeExact (script : Bytes) (ts : List (Token × YYLTYPE)) (e : Expr F) : Prop :=
  ∃ a v b text, ts = a ++ v ++ b ∧ Derives v e ∧ assertSource script e = .done text ∧
    Located e.loc.start text v ∧ e.loc.end_ = e.loc.start + text.length

section Session

variable (find : Bytes → Option F)

/-- The scripts with the globals that each is parsed with, when the first finds `g`. A
fault ends the process. -/
def session : Lexer → List Bytes → List (Lexer × Bytes)
  | _, [] => []
  | g, script :: scripts =>
    (g, script) ::
      match parse find g script with
      | .done (_, g') => session g' scripts
      | _ => []

/-- What is left of the tokens and of the parse when the globals are forgotten. -/
def tokensOnly (g : Lexer) (script : Bytes) : Outcome (List (Token × YYLTYPE)) := do
  let (ts, _) ← tokens g script
  .done ts

def parseOnly (g : Lexer) (script : Bytes) : Outcome (Parsed F) := do
  let (p, _) ← parse find g script
  .done p

/-- The script is parsed as if it were the first one, and every expression has the range
of its text. -/
structure HistoryFree (g : Lexer) (script : Bytes) : Prop where
  same_tokens : tokensOnly g script = tokensOnly .fresh script
  same_tree : parseOnly find g script = parseOnly find .fresh script
  range_exact : ∀ ts p, tokensOnly g script = .done ts → parseOnly find g script = .done p →
    ∀ root e, p.root = some root → e.Within root → RangeExact script ts e

/-- The scanner counts from the start of the script and is not inside a literal, every
byte of the script can start a token, and bison's place for an empty argument list does
not get into the tree. -/
structure StartsAnew (g : Lexer) (script : Bytes) : Prop where
  gPos : g.gPos = 0
  start : g.start = .INITIAL
  no_bad : ∀ ts, tokensOnly g script = .done ts → ∀ loc, (.BAD, loc) ∉ ts
  tidy : ∀ ts p, tokensOnly g script = .done ts → parseOnly find g script = .done p →
    NoEmptyFirst ts ∨ p.error_count = 0

end Session

variable {find : Bytes → Option F} {g : Lexer} {script : Bytes}

theorem tokensOnly_eq {ts : List (Token × YYLTYPE)} {g' : Lexer}
    (h : tokens g script = .done (ts, g')) : tokensOnly g script = .done ts := by
  rw [tokensOnly, h]
  rfl

theorem parseOnly_eq {ts : List (Token × YYLTYPE)} {g' : Lexer}
    (h : tokens g script = .done (ts, g')) :
    parseOnly find g script = yyparse find ts ⟨0, 0⟩ := by
  rw [yyparse_eof find ts ⟨0, 0⟩ g'.yylloc, parseOnly, parse, h]
  simp only [Outcome.done_bind]
  cases yyparse find ts g'.yylloc with
  | done p => rfl
  | fault => rfl
  | spin => rfl

/-- The tree of a parse has the ranges of its text. -/
theorem yyparse_range_exact {ts : List (Token × YYLTYPE)} {eof : YYLTYPE} {p : Parsed F}
    (hts : Located 0 script ts) (hp : yyparse find ts eof = .done p)
    (htidy : NoEmptyFirst ts ∨ p.error_count = 0) {root e : Expr F} (hroot : p.root = some root)
    (he : e.Within root) : RangeExact script ts e := by
  obtain ⟨c, hsteps, _, hcount, hvalue⟩ := run_eq_done hp
  rw [hcount] at htidy
  obtain ⟨w, b, rfl, hw⟩ := (steps_cover hsteps htidy).root root (hvalue ▸ hroot)
  obtain ⟨a, v, b', rfl, hd, hloc⟩ := hw.within he
  have hlocated : Located 0 script (a ++ v ++ (b' ++ b)) := by
    rw [← List.append_assoc]
    exact hts
  obtain ⟨hle, hend, htext⟩ := hlocated.text hd.ne_nil
  have hfit : (place v).start + ((place v).end_ - (place v).start) = (place v).end_ :=
    Nat.add_sub_cancel' hle
  refine ⟨a, v, b' ++ b, _, by simp, hd, ?_, hloc ▸ htext, ?_⟩
  · rw [assertSource, hloc, if_pos hle]
    exact load_ofNat (by rw [hfit]; exact hend)
  · rw [hloc, slice_length_of_le (by rw [hfit]; exact hend), hfit]

/-- One parse that starts anew. -/
theorem StartsAnew.history_free (h : StartsAnew find g script) : HistoryFree find g script := by
  have hagree : g.Agree .fresh := by
    refine ⟨h.gPos, h.start, fun hstr => ?_⟩
    rw [h.start] at hstr
    cases hstr
  rcases tokens_congr hagree script with ⟨hfault, hfault'⟩ |
    ⟨ts, ts', g₁, g₁', hts, hts', _, heq, _⟩
  · have honly : tokensOnly g script = .fault := by
      rw [tokensOnly, hfault]
      rfl
    refine ⟨by rw [honly, tokensOnly, hfault']; rfl, ?_, fun ts p hts _ => ?_⟩
    · rw [parseOnly, parseOnly, parse, parse, hfault, hfault']
    · rw [honly] at hts
      cases hts
  · obtain rfl := heq (h.no_bad ts (tokensOnly_eq hts))
    refine ⟨by rw [tokensOnly_eq hts, tokensOnly_eq hts'], ?_, ?_⟩
    · rw [parseOnly_eq hts, parseOnly_eq hts']
    · intro ts₂ p hts₂ hp root e hroot he
      have htidy := h.tidy ts₂ p hts₂ hp
      rw [tokensOnly_eq hts] at hts₂
      cases hts₂
      have hlocated := tokens_located h.start hts (h.no_bad ts (tokensOnly_eq hts))
      rw [h.gPos] at hlocated
      rw [parseOnly_eq hts] at hp
      exact yyparse_range_exact hlocated hp htidy hroot he

/-- A script with a condition. -/
def conditionScript : Bytes := ascii "assert(a == b);"

/-- An empty script and one with a condition both start anew. -/
theorem session_starts_anew :
    ∀ x ∈ session (fun _ => some ()) .fresh [[], conditionScript],
      StartsAnew (fun _ => some ()) x.1 x.2 := by
  intro x hx
  obtain ⟨ts, g', hts, hbad, hempty⟩ : ∃ ts g',
      tokens .fresh conditionScript = .done (ts, g') ∧ (∀ x ∈ ts, x.1 ≠ .BAD) ∧
        ∀ x ∈ ts, x.1 ≠ .comma := ⟨_, _, rfl, by decide, by decide⟩
  have hsession : session (fun _ => some ()) .fresh [[], conditionScript] =
      [(.fresh, []), (.fresh, conditionScript)] := rfl
  rw [hsession] at hx
  rcases List.mem_cons.mp hx with rfl | hx
  · refine ⟨rfl, rfl, fun ts hts => ?_, fun ts p hts _ => ?_⟩
    · cases hts
      exact fun loc h => nomatch h
    · cases hts
      exact .inl fun a b l₀ l₁ h => by simp at h
  · obtain rfl := List.mem_singleton.mp hx
    refine ⟨rfl, rfl, fun ts' hts' loc hmem => ?_, fun ts' p hts' _ => .inl ?_⟩
    · rw [tokensOnly_eq hts] at hts'
      cases hts'
      exact hbad _ hmem rfl
    · rw [tokensOnly_eq hts] at hts'
      cases hts'
      rintro a b l₀ l₁ rfl
      exact hempty (.comma, l₁) (by simp) rfl

end BootableRecovery.Edify
