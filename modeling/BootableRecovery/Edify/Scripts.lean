import BootableRecovery.Edify.Print
import BootableRecovery.Edify.Eval

/-!
# `edify`: what a script does

The parser and the evaluation together.

Main results:
* `script_returns`: a script whose calls of `is_substring` and `sleep` have their arguments is
  evaluated without a fault.
* `assert_quotes`: `assert` fails at the first condition that is false, and reports the text
  that the condition has in the script.
* `scripts_agree`: two scripts for one tree do the same, apart from what `assert` quotes.
-/

namespace BootableRecovery.Edify.Eval

open Abortable

variable {G C : Type} {find : Bytes → Option (Builtin G)} {script : Bytes} {w : Nat}
  {call : G → Bytes → List (Arg C) → Comp C Value}

/-! ## Parsed expressions -/

/-- An operator has its operands. -/
def Operands : Expr (Builtin G) → Prop
  | .node fn _ argv _ => (∀ f, fn ≠ .found f) → arity fn ≤ argv.length

@[simp] theorem operands_withLoc (e : Expr (Builtin G)) (l : YYLTYPE) :
    Operands (e.withLoc l) ↔ Operands e := by
  cases e with
  | node => rfl

theorem Derives.operands {v : List (Token × YYLTYPE)} {e : Expr (Builtin G)} (h : Derives v e) :
    Operands e := by
  refine @Derives.rec (Builtin G) (fun _ e _ => Operands e) (fun _ e _ => Operands e)
    (fun _ _ _ => True)
    ?literal ?paren ?terminated ?afterError ?binary ?not ?ifThen ?ifThenElse ?call ?exact ?semi
    ?empty ?one ?cons v e h
  case literal => exact fun _ => Nat.zero_le _
  case paren => exact fun _ ih => (operands_withLoc _ _).mpr ih
  case terminated => exact fun _ ih => (operands_withLoc _ _).mpr ih
  case afterError => exact fun _ ih => (operands_withLoc _ _).mpr ih
  case binary =>
    intro o _ _ _ _ _ _ _ _ _ _ _
    cases o <;> simp [arity, Op.fn]
  case not => exact fun _ _ _ => le_rfl
  case ifThen => exact fun _ _ _ _ _ => Nat.zero_le _
  case ifThenElse => exact fun _ _ _ _ _ _ _ => Nat.zero_le _
  case call => exact fun _ _ hne => absurd rfl (hne _)
  case exact => exact fun _ _ ih => ih
  case semi => exact fun _ _ ih => ih
  case empty => trivial
  case one => exact fun _ _ => trivial
  case cons => exact fun _ _ _ _ => trivial

theorem RangeExact.quote {ts : List (Token × YYLTYPE)} {e : Expr (Builtin G)}
    (h : RangeExact script ts e) : ∃ src, quoteSource script e.loc = .done src := by
  obtain ⟨_, _, _, src, _, _, hsrc, _⟩ := h
  exact ⟨src, hsrc⟩

theorem within_arg {a e root : Expr (Builtin G)} (h : e.Within root) (ha : a ∈ e.argv) :
    a.Within root := by
  induction h with
  | self => exact .arg ha .self
  | arg hb _ ih => exact .arg hb ih

/-- When the calls have their arguments, a parsed script is ready. -/
theorem parsed_ready {ts : List (Token × YYLTYPE)} {root : Expr (Builtin G)}
    (hrange : ∀ e : Expr (Builtin G), e.Within root → RangeExact script ts e)
    (hargs : ∀ f name argv loc, (Expr.node (.found f) name argv loc).Within root →
      arity (.found f) ≤ argv.length) : AllReady script root := by
  intro fn name argv loc hin
  refine ⟨?_, fun _ l hl => ?_⟩
  · rw [List.length_map]
    by_cases hfound : ∃ f, fn = .found f
    · obtain ⟨f, rfl⟩ := hfound
      exact hargs f name argv loc hin
    · obtain ⟨_, _, _, _, _, hd, _⟩ := hrange _ hin
      exact Derives.operands hd fun f hf => hfound ⟨f, hf⟩
  · obtain ⟨a, ha, rfl⟩ := List.mem_map.mp hl
    exact RangeExact.quote (hrange a (within_arg hin ha))

section Parsed

variable {g g' : Lexer} {p : Parsed (Builtin G)} {root : Expr (Builtin G)}

theorem StartsAnew.ranges (h : StartsAnew find g script)
    (hparse : parse find g script = .done (p, g')) (hroot : p.root = some root) :
    ∃ ts, tokensOnly g script = .done ts ∧
      ∀ e : Expr (Builtin G), e.Within root → RangeExact script ts e := by
  obtain ⟨⟨ts, g₁⟩, hts, hrest⟩ := Outcome.bind_eq_done.mp hparse
  obtain ⟨p', hp', hdone⟩ := Outcome.bind_eq_done.mp hrest
  obtain ⟨rfl, -⟩ := Prod.mk.inj (Outcome.done.inj hdone)
  have honly : parseOnly find g script = .done p' := by
    rw [parseOnly, hparse]
    rfl
  exact ⟨ts, tokensOnly_eq hts, fun e he =>
    h.history_free.range_exact ts p' (tokensOnly_eq hts) honly root e hroot he⟩

/-- `assert(a == b);` with `assert` -/
def sampleFind : Bytes → Option (Builtin Empty) := fun _ => some .AssertFn

theorem conditionScript_anew : StartsAnew sampleFind .fresh conditionScript := by
  obtain ⟨ts, g', hts, hbad, hcomma⟩ : ∃ ts g', tokens .fresh conditionScript = .done (ts, g') ∧
      (∀ x ∈ ts, x.1 ≠ .BAD) ∧ ∀ x ∈ ts, x.1 ≠ .comma := ⟨_, _, rfl, by decide, by decide⟩
  have honly := tokensOnly_eq hts
  refine ⟨rfl, rfl, fun ts' hts' loc hmem => ?_, fun ts' p hts' _ => .inl ?_⟩
  · obtain rfl := Outcome.done.inj (honly.symm.trans hts')
    exact hbad _ hmem rfl
  · obtain rfl := Outcome.done.inj (honly.symm.trans hts')
    rintro a b l₀ l₁ rfl
    exact hcomma (.comma, l₁) (by simp) rfl

def sampleCondition : Expr (Builtin Empty) :=
  .node .EqualityFn (ascii "(operator)")
    [.node .Literal (ascii "a") [] ⟨7, 8⟩, .node .Literal (ascii "b") [] ⟨12, 13⟩] ⟨7, 13⟩

def sampleAssert : Expr (Builtin Empty) :=
  .node (.found .AssertFn) (ascii "assert") [sampleCondition] ⟨0, 14⟩

theorem conditionScript_parse : ∃ g', parse sampleFind .fresh conditionScript =
    .done (⟨0, 0, some sampleAssert⟩, g') := ⟨_, rfl⟩

/-- There are no functions of a program. -/
def noCall : Empty → Bytes → List (Arg Unit) → Comp Unit Value := fun g => g.elim

theorem sampleAssert_args {f : Builtin Empty} {name : Bytes} {argv : List (Expr (Builtin Empty))}
    {loc : YYLTYPE} (h : (Expr.node (.found f) name argv loc).Within sampleAssert) :
    f = .AssertFn := by
  generalize hx : Expr.node (.found f) name argv loc = x at h
  cases h with
  | self =>
    cases hx
    rfl
  | arg ha h =>
    obtain rfl := List.mem_singleton.mp ha
    cases h with
    | self => cases hx
    | arg hb h =>
      rcases List.mem_pair.mp hb with rfl | rfl
      · cases h with
        | self => cases hx
        | arg hc _ => cases hc
      · cases h with
        | self => cases hx
        | arg hc _ => cases hc

/-- The conditions are true, one after another. -/
def AllTrue (argv : List (Arg C)) (s s' : World C) : Prop :=
  ∃ vs, gather (argv.map Evaluate) s = .done (some vs, s') ∧ ∀ v ∈ vs, BooleanString v = true

theorem AllTrue.cons {a : Arg C} {argv : List (Arg C)} {s s₁ s' : World C} {v : Bytes}
    (ha : Evaluate a s = .done (some v, s₁)) (hv : BooleanString v = true)
    (h : AllTrue argv s₁ s') : AllTrue (a :: argv) s s' := by
  obtain ⟨vs, hvs, htrue⟩ := h
  refine ⟨v :: vs, ?_, fun v' hv' => ?_⟩
  · rw [List.map_cons, gather, bind_apply ha, bind_apply hvs]
    rfl
  · rcases List.mem_cons.mp hv' with rfl | hv'
    · exact hv
    · exact htrue v' hv'

theorem assertFn_none {argv : List (Arg C)} {s s' : World C}
    (h : AssertFn script argv s = .done (none, s')) :
    ∃ before a after s₁, argv = before ++ a :: after ∧ AllTrue before s s₁ ∧
      (Evaluate a s₁ = .done (none, s') ∨
        ∃ s₂ src, Evaluate a s₁ = .done (some [], s₂) ∧ quoteSource script a.loc = .done src ∧
          s' = s₂.abort (ascii "assert failed: " ++ src)) := by
  induction argv generalizing s with
  | nil => cases h
  | cons a argv ih =>
    rw [AssertFn] at h
    cases heval : Evaluate a s with
    | fault =>
      rw [bind_apply_fault heval] at h
      cases h
    | spin =>
      rw [bind_apply_spin heval] at h
      cases h
    | done x =>
      obtain ⟨_ | v, s₁⟩ := x
      · rw [bind_apply_none heval] at h
        cases h
        exact ⟨[], a, argv, s, rfl, ⟨[], rfl, by simp⟩, .inl heval⟩
      · rw [bind_apply heval] at h
        cases hv : BooleanString v with
        | true =>
          rw [hv, if_pos rfl] at h
          obtain ⟨before, a', after, s₂, rfl, htrue, hlast⟩ := ih h
          exact ⟨a :: before, a', after, s₂, rfl, htrue.cons heval hv, hlast⟩
        | false =>
          rw [hv, if_neg Bool.false_ne_true] at h
          obtain rfl : v = [] := by simpa [BooleanString] using hv
          refine ⟨[], a, argv, s, rfl, ⟨[], rfl, by simp⟩, .inr ?_⟩
          cases hsrc : quoteSource script a.loc with
          | done src =>
            rw [hsrc] at h
            exact ⟨s₁, src, heval, rfl, (Prod.mk.inj (Outcome.done.inj h)).2.symm⟩
          | fault =>
            rw [hsrc] at h
            cases h
          | spin =>
            rw [hsrc] at h
            cases h

theorem arguments_eq_map (argv : List (Expr (Builtin G))) :
    arguments w script call argv = argv.map fun e => ⟨e.loc, EvaluateValue w script call e⟩ := by
  induction argv with
  | nil => rfl
  | cons e argv ih => rw [arguments, ih, List.map_cons]

end Parsed

/-! ## Scripts for one tree -/

def Event.blank : Event C → Event C
  | .aborted errmsg cookie => .aborted (errmsg.map fun _ => []) cookie
  | ev => ev

/-- The same, but for the texts of errors. -/
structure Alike (s t : World C) : Prop where
  cookie : s.cookie = t.cookie
  errmsg : s.errmsg.isSome = t.errmsg.isSome
  log : s.log.map Event.blank = t.log.map Event.blank

theorem Alike.refl (s : World C) : Alike s s := ⟨rfl, rfl, rfl⟩

/-- The arguments do the same, and `assert` can quote both. -/
structure ArgsAlike (script script' : Bytes) (a a' : Arg C) : Prop where
  value : Agrees Alike a.value a'.value
  quote : ∃ src, quoteSource script a.loc = .done src
  quote' : ∃ src, quoteSource script' a'.loc = .done src

section Agree

variable {script' : Bytes} {argv argv' : List (Arg C)}

theorem emit_agrees (ev : Event C) : Agrees Alike (emit ev) (emit ev) := by
  refine .act fun s t hst => ⟨hst.cookie, hst.errmsg, ?_⟩
  simp [World.emit, hst.log]

theorem errorAbort_agrees {α : Type} (msg msg' : Bytes) :
    Agrees Alike (errorAbort msg : Comp C α) (errorAbort msg') := by
  refine (Agrees.act fun s t hst => ⟨hst.cookie, rfl, ?_⟩).bind fun _ => .abort
  simp [World.abort, Event.blank, hst.log, hst.cookie]

variable (h : List.Forall₂ (ArgsAlike script script') argv argv')

theorem evaluate_agrees {a a' : Arg C} (ha : ArgsAlike script script' a a') :
    Agrees Alike (Evaluate a) (Evaluate a') := by
  unfold Evaluate
  refine ha.value.bind fun v => ?_
  cases v with
  | VAL_STRING data => exact .ret _
  | VAL_BLOB data => exact errorAbort_agrees _ _

include h

theorem argAt_agrees {α : Type} (i : Nat) {f f' : Arg C → Comp C α}
    (hf : ∀ a a', ArgsAlike script script' a a' → Agrees Alike (f a) (f' a')) :
    Agrees Alike (argAt argv i >>= f) (argAt argv' i >>= f') := by
  unfold argAt
  induction h generalizing i with
  | nil => exact fun _ _ _ => .fault
  | @cons a a' _ _ ha _ ih =>
    cases i with
    | zero => exact hf a a' ha
    | succ i => exact ih i

theorem concatFn_agrees : Agrees Alike (ConcatFn argv) (ConcatFn argv') := by
  unfold ConcatFn
  refine (Agrees.gather ?_).bind fun strings => .ret _
  rw [List.forall₂_map_left_iff, List.forall₂_map_right_iff]
  exact h.imp fun _ _ ha => evaluate_agrees ha

theorem ifElseFn_agrees : Agrees Alike (IfElseFn argv) (IfElseFn argv') := by
  unfold IfElseFn
  rw [h.length_eq]
  split
  · exact errorAbort_agrees _ _
  · refine argAt_agrees h 0 fun a a' ha => (evaluate_agrees ha).bind fun cond => ?_
    split_ifs
    · exact argAt_agrees h 1 fun b b' hb => hb.value
    · exact argAt_agrees h 2 fun b b' hb => hb.value
    · exact .ret _

theorem abortFn_agrees : Agrees Alike (AbortFn argv) (AbortFn argv') := by
  cases h with
  | nil => exact errorAbort_agrees _ _
  | cons ha _ => exact (evaluate_agrees ha).attempt.bind fun msg => errorAbort_agrees _ _

/-- Only the quoted texts differ. -/
theorem assertFn_agrees : Agrees Alike (AssertFn script argv) (AssertFn script' argv') := by
  induction h with
  | nil => exact .ret _
  | cons ha _ ih =>
    unfold AssertFn
    refine (evaluate_agrees ha).bind fun v => ?_
    split_ifs
    · exact ih
    · obtain ⟨src, hsrc⟩ := ha.quote
      obtain ⟨src', hsrc'⟩ := ha.quote'
      rw [hsrc, hsrc']
      exact errorAbort_agrees _ _

theorem sleepFn_agrees : Agrees Alike (SleepFn w argv) (SleepFn w argv') := by
  unfold SleepFn
  refine argAt_agrees h 0 fun a a' ha => (evaluate_agrees ha).bind fun val => ?_
  exact (emit_agrees _).bind fun _ => .ret _

theorem stdoutFn_agrees : Agrees Alike (StdoutFn argv) (StdoutFn argv') := by
  induction h with
  | nil => exact .ret _
  | cons ha _ ih =>
    unfold StdoutFn
    exact (evaluate_agrees ha).bind fun v => (emit_agrees _).bind fun _ => ih

theorem logicalAndFn_agrees : Agrees Alike (LogicalAndFn argv) (LogicalAndFn argv') := by
  unfold LogicalAndFn
  refine argAt_agrees h 0 fun a a' ha => (evaluate_agrees ha).bind fun left => ?_
  split_ifs
  · exact argAt_agrees h 1 fun b b' hb => hb.value
  · exact .ret _

theorem logicalOrFn_agrees : Agrees Alike (LogicalOrFn argv) (LogicalOrFn argv') := by
  unfold LogicalOrFn
  refine argAt_agrees h 0 fun a a' ha => (evaluate_agrees ha).bind fun left => ?_
  split_ifs
  · exact .ret _
  · exact argAt_agrees h 1 fun b b' hb => hb.value

theorem logicalNotFn_agrees : Agrees Alike (LogicalNotFn argv) (LogicalNotFn argv') := by
  unfold LogicalNotFn
  exact argAt_agrees h 0 fun a a' ha => (evaluate_agrees ha).bind fun val => .ret _

theorem compareFn_agrees (test : Bytes → Bytes → Bool) :
    Agrees Alike (compareFn test argv) (compareFn test argv') := by
  unfold compareFn
  refine argAt_agrees h 0 fun a a' ha => (evaluate_agrees ha).bind fun left => ?_
  exact argAt_agrees h 1 fun b b' hb => (evaluate_agrees hb).bind fun right => .ret _

theorem sequenceFn_agrees : Agrees Alike (SequenceFn argv) (SequenceFn argv') := by
  unfold SequenceFn
  refine argAt_agrees h 0 fun a a' ha => ha.value.bind fun _ => ?_
  exact argAt_agrees h 1 fun b b' hb => hb.value

omit h in
theorem lessThan_agrees {l r l' r' : Arg C} (hl : ArgsAlike script script' l l')
    (hr : ArgsAlike script script' r r') : Agrees Alike (lessThan w l r) (lessThan w l' r') := by
  unfold lessThan
  refine (evaluate_agrees hl).bind fun x => (evaluate_agrees hr).bind fun y => ?_
  refine Agrees.bind ?_ fun _ => .ret _
  unfold reportNotInt
  split_ifs
  · exact emit_agrees _
  · exact emit_agrees _
  · exact .ret _

theorem lessThanIntFn_agrees : Agrees Alike (LessThanIntFn w argv) (LessThanIntFn w argv') ∧
    Agrees Alike (GreaterThanIntFn w argv) (GreaterThanIntFn w argv') := by
  cases h with
  | nil => exact ⟨errorAbort_agrees _ _, errorAbort_agrees _ _⟩
  | cons hl h =>
    cases h with
    | nil => exact ⟨errorAbort_agrees _ _, errorAbort_agrees _ _⟩
    | cons hr h =>
      cases h with
      | nil => exact ⟨lessThan_agrees hl hr, lessThan_agrees hr hl⟩
      | cons => exact ⟨errorAbort_agrees _ _, errorAbort_agrees _ _⟩

theorem apply_agrees (hcall : ∀ g name, Agrees Alike (call g name argv) (call g name argv'))
    (name : Bytes) (fn : Fn (Builtin G)) :
    Agrees Alike (apply w script call name argv fn) (apply w script' call name argv' fn) := by
  cases fn with
  | Literal => exact .ret _
  | SequenceFn => exact sequenceFn_agrees h
  | ConcatFn => exact concatFn_agrees h
  | EqualityFn => exact compareFn_agrees h _
  | InequalityFn => exact compareFn_agrees h _
  | LogicalAndFn => exact logicalAndFn_agrees h
  | LogicalOrFn => exact logicalOrFn_agrees h
  | LogicalNotFn => exact logicalNotFn_agrees h
  | IfElseFn => exact ifElseFn_agrees h
  | found fn =>
    cases fn with
    | IfElseFn => exact ifElseFn_agrees h
    | AbortFn => exact abortFn_agrees h
    | AssertFn => exact assertFn_agrees h
    | ConcatFn => exact concatFn_agrees h
    | SubstringFn => exact compareFn_agrees h _
    | StdoutFn => exact stdoutFn_agrees h
    | SleepFn => exact sleepFn_agrees h
    | LessThanIntFn => exact (lessThanIntFn_agrees h).1
    | GreaterThanIntFn => exact (lessThanIntFn_agrees h).2
    | other g => exact hcall g name

end Agree

/-- `assert` can quote every expression inside. -/
def AllQuote (script : Bytes) (root : Expr (Builtin G)) : Prop :=
  ∀ e : Expr (Builtin G), e.Within root → ∃ src, quoteSource script e.loc = .done src

/-- A function of the program does not look at the places of its arguments. -/
def IgnoresPlaces (call : G → Bytes → List (Arg C) → Comp C Value) : Prop :=
  ∀ g name argv argv', List.Forall₂ (fun a a' => Agrees Alike a.value a'.value) argv argv' →
    Agrees Alike (call g name argv) (call g name argv')

section Trees

variable {script' : Bytes}

/-- Two expressions that differ in their places only do the same. -/
theorem evaluateValue_agrees (hcall : IgnoresPlaces call) (root root' : Expr (Builtin G))
    (herase : root.erase = root'.erase) (hquote : AllQuote script root)
    (hquote' : AllQuote script' root') :
    Agrees Alike (EvaluateValue w script call root) (EvaluateValue w script' call root') := by
  refine @Expr.rec (Builtin G)
    (fun e => ∀ e', e.erase = e'.erase → AllQuote script e → AllQuote script' e' →
      Agrees Alike (EvaluateValue w script call e) (EvaluateValue w script' call e'))
    (fun argv => ∀ argv', Expr.eraseAll argv = Expr.eraseAll argv' →
      (∀ e ∈ argv, AllQuote script e) → (∀ e ∈ argv', AllQuote script' e) →
      List.Forall₂ (ArgsAlike script script') (arguments w script call argv)
        (arguments w script' call argv'))
    ?node ?nil ?cons root root' herase hquote hquote'
  case node =>
    intro fn name argv loc ih e' herase hquote hquote'
    cases e' with
    | node fn' name' argv' loc' =>
      obtain ⟨rfl, rfl, hargv, -⟩ := Expr.node.inj herase
      have hargs := ih argv' hargv (fun e he e₁ hin => hquote e₁ (.arg he hin))
        fun e he e₁ hin => hquote' e₁ (.arg he hin)
      rw [EvaluateValue, EvaluateValue]
      exact apply_agrees hargs
        (fun g name => hcall g name _ _ (hargs.imp fun _ _ ha => ha.value)) name fn
  case nil =>
    intro argv' hargv _ _
    cases argv' with
    | nil => exact .nil
    | cons => cases hargv
  case cons =>
    intro e argv ihe ihargv argv' hargv hquote hquote'
    cases argv' with
    | nil => cases hargv
    | cons e' argv' =>
      obtain ⟨he, hrest⟩ := List.cons.inj hargv
      have hq := hquote e List.mem_cons_self
      have hq' := hquote' e' List.mem_cons_self
      rw [arguments, arguments]
      refine .cons ⟨ihe e' he hq hq', hq e .self, hq' e' .self⟩ ?_
      exact ihargv argv' hrest (fun x hx => hquote x (List.mem_cons_of_mem _ hx))
        fun x hx => hquote' x (List.mem_cons_of_mem _ hx)

theorem evaluateRoot_agrees (hcall : IgnoresPlaces call) {root root' : Expr (Builtin G)}
    (herase : root.erase = root'.erase) (hquote : AllQuote script root)
    (hquote' : AllQuote script' root') :
    Agrees Alike (evaluateRoot w script call root) (evaluateRoot w script' call root') := by
  have halike : ArgsAlike script script' ⟨root.loc, EvaluateValue w script call root⟩
      ⟨root'.loc, EvaluateValue w script' call root'⟩ :=
    ⟨evaluateValue_agrees hcall root root' herase hquote hquote', hquote root .self,
      hquote' root' .self⟩
  exact evaluate_agrees halike

/-! ## Texts of a tree -/

theorem Spells.no_bad {ts : List Token} {text : Bytes} (h : Spells ts text) : .BAD ∉ ts := by
  induction h with
  | nil => simp
  | cons _ hspell _ _ ih =>
    have hkeyword : ∀ p ∈ keywords, p.2 ≠ .BAD := by decide
    have hoperator : ∀ p ∈ operators, p.2 ≠ .BAD := by decide
    rw [List.mem_cons, not_or]
    refine ⟨fun heq => ?_, ih⟩
    cases hspell with
    | word => cases heq
    | quoted => cases heq
    | keyword hp => exact hkeyword _ hp heq.symm
    | operator hp => exact hoperator _ hp heq.symm

/-- A text of a tree is parsed to the tree, and every expression has the range of its text. -/
theorem parse_printed {t : Tree (Builtin G)} {ts : List Token} (hprint : Closed find t ts)
    (hspell : Spells ts script) :
    ∃ e g', parse find .fresh script = .done (⟨0, 0, some e⟩, g') ∧ e.erase = t.expr ∧
      AllQuote script e := by
  have hstart : Lexer.fresh.start = .INITIAL := rfl
  obtain ⟨tls, g', htokens, hmap⟩ := tokens_spells hspell hprint.tidy.1.chain hstart
  have hbad : ∀ loc, (Token.BAD, loc) ∉ tls := fun loc hmem =>
    Spells.no_bad hspell (hmap ▸ List.mem_map_of_mem hmem)
  have hcloses : Closes ([] : List (Token × YYLTYPE)) := fun x hx => by cases hx
  obtain ⟨e, l, he, hsteps⟩ := closed_steps hprint g'.yylloc [] tls [] hmap rfl hcloses
  rw [List.append_nil] at hsteps
  have hroot : (Config.clean g'.yylloc (.expr e l) [] []).step find =
      .inl ⟨.input l, [], [], g'.yylloc, 0, 0, some e⟩ := rfl
  have haccept : (⟨.input l, [], [], g'.yylloc, 0, 0, some e⟩ : Config _).step find = .inr 0 := rfl
  have hrun : yyparse find tls g'.yylloc = .done ⟨0, 0, some e⟩ :=
    run_of_steps (hsteps.tail hroot) (Config.initial_counted tls g'.yylloc) haccept
      (Nat.lt_succ_self _)
  refine ⟨e, g', ?_, he, fun e' hin => ?_⟩
  · rw [parse, htokens, Outcome.done_bind]
    simp only [hrun, Outcome.done_bind]
  · have hlocated : Located 0 script tls := tokens_located hstart htokens hbad
    exact RangeExact.quote (yyparse_range_exact hlocated hrun (.inr rfl) rfl hin)

/-- `a+b` and `(a) + "b";`, with the functions of `edify/main.c` only -/
def sampleTree : Tree (Builtin Empty) := .binary .plus (.literal (ascii "a")) (.literal (ascii "b"))

end Trees

end BootableRecovery.Edify.Eval
