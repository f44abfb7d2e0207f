import Mathlib.Logic.Relation

/-!
# Programs that can be interrupted

A program is a tree of operations on a persistent state. An operation has an
answer, and the state after it is given by a relation, so that failures and
other behaviour that is not determined are part of the semantics.

A machine runs programs one after another. At any point, in particular before a
program has ended, the run can be cut off and another one started; `reset` is
what a start does to the state.

* `Always`: a property holds before, between and after all the operations of a
  program. `Always.bind` composes it.
* `Runs`: a run of a program to its end. `Always.of_runs` tells what holds there.
* `Ensures`: every run comes to an end, and a property holds there.
* `Trace`: the operations of a run with their answers. `Trace.bind_iff` takes the trace of
  two programs apart.
* `CrashStep`: one operation of the running program, or the start of another
  one.
* `always_of_crashSteps`: what every program preserves from its start on holds
  in every state the machine reaches.
* `Passes`: a run gets to a state, which the machine then reaches (`crashSteps_of_passes`).

Nothing in this module mentions the programs that are verified.
-/

namespace BootableRecovery

/-- A program with operations `Op` that get answers `Ans`. -/
inductive Prog (Op : Type) (Ans : Op → Type) (α : Type) where
  | ret (a : α)
  | op (o : Op) (k : Ans o → Prog Op Ans α)

namespace Prog

variable {Op : Type} {Ans : Op → Type} {α β σ : Type}

/-- Run one program, then another with its value. -/
def bind : Prog Op Ans α → (α → Prog Op Ans β) → Prog Op Ans β
  | ret a, f => f a
  | op o k, f => op o fun a => bind (k a) f

instance : Monad (Prog Op Ans) where
  pure := ret
  bind := bind

/-- One operation. -/
def perform (o : Op) : Prog Op Ans (Ans o) := op o ret

@[simp] theorem pure_eq (a : α) : (pure a : Prog Op Ans α) = ret a := rfl

@[simp] theorem ret_bind (a : α) (f : α → Prog Op Ans β) : (ret a >>= f) = f a := rfl

@[simp] theorem op_bind (o : Op) (k : Ans o → Prog Op Ans α) (f : α → Prog Op Ans β) :
    (op o k >>= f) = op o fun a => k a >>= f := rfl

@[simp] theorem perform_bind (o : Op) (f : Ans o → Prog Op Ans β) :
    (perform o >>= f) = op o f := rfl

section Always

variable (step : σ → (o : Op) → Ans o → σ → Prop)

/-- `I` holds in every state the program goes through, and `Q` in the last one,
with the value. -/
def Always (I : σ → Prop) (Q : α → σ → Prop) : Prog Op Ans α → σ → Prop
  | ret a, s => I s ∧ Q a s
  | op o k, s => I s ∧ ∀ a s', step s o a s' → Always I Q (k a) s'

variable {step} {I : σ → Prop} {Q : α → σ → Prop}

theorem Always.here {p : Prog Op Ans α} {s : σ} (h : Always step I Q p s) : I s := by
  cases p with
  | ret a => exact h.1
  | op o k => exact h.1

theorem Always.next {o : Op} {k : Ans o → Prog Op Ans α} {s s' : σ} {a : Ans o}
    (h : Always step I Q (op o k) s) (hs : step s o a s') : Always step I Q (k a) s' :=
  h.2 a s' hs

theorem Always.mono {Q' : α → σ → Prop} {p : Prog Op Ans α} {s : σ} (h : Always step I Q p s)
    (hQ : ∀ a s, I s → Q a s → Q' a s) : Always step I Q' p s := by
  induction p generalizing s with
  | ret a => exact ⟨h.1, hQ a s h.1 h.2⟩
  | op o k ih => exact ⟨h.1, fun a s' hs => ih a (h.next hs)⟩

theorem Always.weaken {J : σ → Prop} {p : Prog Op Ans α} {s : σ} (h : Always step I Q p s)
    (hI : ∀ s, I s → J s) : Always step J Q p s := by
  induction p generalizing s with
  | ret a => exact ⟨hI s h.1, h.2⟩
  | op o k ih => exact ⟨hI s h.1, fun a s' hs => ih a (h.next hs)⟩

/-- With fewer ways to go on, what held all along still does. -/
theorem Always.of_step {step' : σ → (o : Op) → Ans o → σ → Prop}
    (hsub : ∀ s o a s', step' s o a s' → step s o a s') {p : Prog Op Ans α} {s : σ}
    (h : Always step I Q p s) : Always step' I Q p s := by
  induction p generalizing s with
  | ret a => exact h
  | op o k ih => exact ⟨h.1, fun a s' hs => ih a (h.next (hsub s o a s' hs))⟩

/-- The second program starts where the first one ended. -/
theorem Always.bind {R : β → σ → Prop} {p : Prog Op Ans α} {f : α → Prog Op Ans β} {s : σ}
    (h : Always step I Q p s) (hf : ∀ a s, I s → Q a s → Always step I R (f a) s) :
    Always step I R (p >>= f) s := by
  induction p generalizing s with
  | ret a => exact hf a s h.1 h.2
  | op o k ih => exact ⟨h.1, fun a s' hs => ih a (h.next hs)⟩

/-- A first program that leaves the state as it is. -/
theorem Always.bind_const {R : β → σ → Prop} {p : Prog Op Ans α} {f : α → Prog Op Ans β} {s : σ}
    (h : Always step (· = s) Q p s) (hI : I s)
    (hf : ∀ a, Q a s → Always step I R (f a) s) : Always step I R (p >>= f) s := by
  have hconst : Always step I (fun a s' => s' = s ∧ Q a s') p s :=
    (h.mono fun a s' hs hq => ⟨hs, hq⟩).weaken fun s' hs => hs ▸ hI
  refine hconst.bind fun a s' _ hq => ?_
  obtain ⟨rfl, hq⟩ := hq
  exact hf a hq

/-- A property that every operation keeps holds all along. -/
theorem Always.of_stable {K : σ → Prop} (hstable : ∀ s o a s', K s → step s o a s' → K s')
    (hI : ∀ s, K s → I s) {s : σ} (h : K s) (p : Prog Op Ans α) :
    Always step I (fun _ _ => True) p s := by
  induction p generalizing s with
  | ret a => exact ⟨hI s h, trivial⟩
  | op o k ih => exact ⟨hI s h, fun a s' hs => ih a (hstable s o a s' h hs)⟩

theorem Always.and {J : σ → Prop} {R : α → σ → Prop} {p : Prog Op Ans α} {s : σ}
    (h : Always step I Q p s) (h' : Always step J R p s) :
    Always step (fun s => I s ∧ J s) (fun a s => Q a s ∧ R a s) p s := by
  induction p generalizing s with
  | ret a => exact ⟨⟨h.1, h'.1⟩, h.2, h'.2⟩
  | op o k ih => exact ⟨⟨h.1, h'.1⟩, fun a s' hs => ih a (h.next hs) (h'.next hs)⟩

theorem Always.trivial (p : Prog Op Ans α) (s : σ) :
    Always step (fun _ => True) (fun _ _ => True) p s :=
  Always.of_stable (fun _ _ _ _ h _ => h) (fun _ h => h) True.intro p

/-- A run of the program from `s` ends in `s'` with the value `b`. -/
def Runs (step : σ → (o : Op) → Ans o → σ → Prop) : Prog Op Ans α → σ → α → σ → Prop
  | ret a, s, b, s' => a = b ∧ s = s'
  | op o k, s, b, s' => ∃ a s₁, step s o a s₁ ∧ Runs step (k a) s₁ b s'

theorem Runs.op {step : σ → (o : Op) → Ans o → σ → Prop} {o : Op} {k : Ans o → Prog Op Ans α}
    {s s₁ s' : σ} {a : Ans o} {b : α} (hs : step s o a s₁) (h : Runs step (k a) s₁ b s') :
    Runs step (.op o k) s b s' :=
  ⟨a, s₁, hs, h⟩

theorem Runs.bind {step : σ → (o : Op) → Ans o → σ → Prop} {p : Prog Op Ans α}
    {f : α → Prog Op Ans β} {s s₁ s' : σ} {a : α} {b : β} (h : Runs step p s a s₁)
    (h' : Runs step (f a) s₁ b s') : Runs step (p >>= f) s b s' := by
  induction p generalizing s with
  | ret a =>
    obtain ⟨rfl, rfl⟩ := h
    exact h'
  | op o k ih =>
    obtain ⟨x, s₂, hs, hrest⟩ := h
    exact ⟨x, s₂, hs, ih x hrest⟩

/-- What holds all along holds at the end of a run. -/
theorem Always.of_runs {p : Prog Op Ans α} {s s' : σ} {b : α} (h : Always step I Q p s)
    (hrun : Runs step p s b s') : I s' ∧ Q b s' := by
  induction p generalizing s with
  | ret a =>
    obtain ⟨rfl, rfl⟩ := hrun
    exact h
  | op o k ih =>
    obtain ⟨a, s₁, hs, hrest⟩ := hrun
    exact ih a (h.next hs) hrest

theorem Always.perform {R : β → σ → Prop} {o : Op} {f : Ans o → Prog Op Ans β} {s : σ} (hI : I s)
    (hf : ∀ a s', step s o a s' → Always step I R (f a) s') :
    Always step I R (Prog.perform o >>= f) s :=
  ⟨hI, hf⟩

end Always

/-! ## Total correctness -/

section Ensures

variable (step : σ → (o : Op) → Ans o → σ → Prop)

/-- `Always`, and no run of the program gets stuck. -/
def Ensures (I : σ → Prop) (Q : α → σ → Prop) : Prog Op Ans α → σ → Prop
  | ret a, s => I s ∧ Q a s
  | op o k, s => I s ∧ (∃ a s', step s o a s') ∧ ∀ a s', step s o a s' → Ensures I Q (k a) s'

variable {step} {I : σ → Prop} {Q : α → σ → Prop}

theorem Ensures.always {p : Prog Op Ans α} {s : σ} (h : Ensures step I Q p s) :
    Always step I Q p s := by
  induction p generalizing s with
  | ret a => exact h
  | op o k ih => exact ⟨h.1, fun a s' hs => ih a (h.2.2 a s' hs)⟩

theorem Ensures.mono {Q' : α → σ → Prop} {p : Prog Op Ans α} {s : σ} (h : Ensures step I Q p s)
    (hQ : ∀ a s, I s → Q a s → Q' a s) : Ensures step I Q' p s := by
  induction p generalizing s with
  | ret a => exact ⟨h.1, hQ a s h.1 h.2⟩
  | op o k ih => exact ⟨h.1, h.2.1, fun a s' hs => ih a (h.2.2 a s' hs)⟩

/-- The second program starts where the first one ended. -/
theorem Ensures.bind {R : β → σ → Prop} {p : Prog Op Ans α} {f : α → Prog Op Ans β} {s : σ}
    (h : Ensures step I Q p s) (hf : ∀ a s, I s → Q a s → Ensures step I R (f a) s) :
    Ensures step I R (p >>= f) s := by
  induction p generalizing s with
  | ret a => exact hf a s h.1 h.2
  | op o k ih => exact ⟨h.1, h.2.1, fun a s' hs => ih a (h.2.2 a s' hs)⟩

/-- Some run of the first program ends where the second one starts. -/
theorem Ensures.of_bind {p : Prog Op Ans α} {f : α → Prog Op Ans β} {R : β → σ → Prop} {s : σ}
    (h : Ensures step I R (p >>= f) s) :
    ∃ a s', Runs step p s a s' ∧ Ensures step I R (f a) s' := by
  induction p generalizing s with
  | ret a => exact ⟨a, s, ⟨rfl, rfl⟩, h⟩
  | op o k ih =>
    obtain ⟨-, ⟨a, s₁, hs⟩, hrest⟩ := h
    obtain ⟨b, s', hrun, hb⟩ := ih a (hrest a s₁ hs)
    exact ⟨b, s', hrun.op hs, hb⟩

end Ensures

/-! ## Traces -/

/-- A run of the program does these operations, with these answers, and ends with `a`. -/
inductive Trace : Prog Op Ans α → List (Σ o, Ans o) → α → Prop where
  | ret {a : α} : Trace (.ret a) [] a
  | op {o : Op} {k : Ans o → Prog Op Ans α} {x : Ans o} {tr : List (Σ o, Ans o)} {a : α} :
      Trace (k x) tr a → Trace (.op o k) (⟨o, x⟩ :: tr) a

theorem Trace.bind {p : Prog Op Ans α} {f : α → Prog Op Ans β} {tr tr' : List (Σ o, Ans o)} {a : α}
    {b : β} (h : Trace p tr a) (h' : Trace (f a) tr' b) : Trace (p >>= f) (tr ++ tr') b := by
  induction h with
  | ret => exact h'
  | op _ ih => exact .op (ih h')

theorem Trace.bind_iff {p : Prog Op Ans α} {f : α → Prog Op Ans β} {tr : List (Σ o, Ans o)} {b : β} :
    Trace (p >>= f) tr b ↔
      ∃ tr₁ tr₂ a, tr = tr₁ ++ tr₂ ∧ Trace p tr₁ a ∧ Trace (f a) tr₂ b := by
  constructor
  · intro h
    induction p generalizing tr with
    | ret a => exact ⟨[], tr, a, rfl, .ret, h⟩
    | op o k ih =>
      cases h with
      | op h =>
        obtain ⟨tr₁, tr₂, a, rfl, h₁, h₂⟩ := ih _ h
        exact ⟨_ :: tr₁, tr₂, a, rfl, .op h₁, h₂⟩
  · rintro ⟨tr₁, tr₂, a, rfl, h₁, h₂⟩
    exact h₁.bind h₂

theorem trace_ret_iff {a b : α} {tr : List (Σ o, Ans o)} :
    Trace (.ret a : Prog Op Ans α) tr b ↔ tr = [] ∧ a = b := by
  constructor
  · rintro ⟨⟩
    exact ⟨rfl, rfl⟩
  · rintro ⟨rfl, rfl⟩
    exact .ret

theorem trace_op_iff {o : Op} {k : Ans o → Prog Op Ans α} {tr : List (Σ o, Ans o)} {b : α} :
    Trace (.op o k) tr b ↔ ∃ x tr', tr = ⟨o, x⟩ :: tr' ∧ Trace (k x) tr' b := by
  constructor
  · rintro (_ | @⟨_, _, x, tr', _, h⟩)
    exact ⟨x, tr', rfl, h⟩
  · rintro ⟨x, tr', rfl, h⟩
    exact .op h

theorem trace_perform_bind_iff {o : Op} {f : Ans o → Prog Op Ans β} {tr : List (Σ o, Ans o)} {b : β} :
    Trace (perform o >>= f) tr b ↔ ∃ x tr', tr = ⟨o, x⟩ :: tr' ∧ Trace (f x) tr' b := by
  rw [perform_bind]
  exact trace_op_iff

/-! ## Interrupted runs -/

/-- A machine: its persistent state and what is left of the running program. -/
structure Config (Op : Type) (Ans : Op → Type) (α σ : Type) where
  state : σ
  prog : Prog Op Ans α

section Crash

variable (step : σ → (o : Op) → Ans o → σ → Prop) (reset : σ → σ)
  (starts : Prog Op Ans α → Prop)

/-- The running program does an operation, or it is cut off, or has ended, and
another one starts. -/
inductive CrashStep : Config Op Ans α σ → Config Op Ans α σ → Prop where
  | run {s s' : σ} {o : Op} {a : Ans o} {k : Ans o → Prog Op Ans α} (h : step s o a s') :
      CrashStep ⟨s, .op o k⟩ ⟨s', k a⟩
  | start {s : σ} {p p' : Prog Op Ans α} (h : starts p') : CrashStep ⟨s, p⟩ ⟨reset s, p'⟩

variable {step reset starts} {I : σ → Prop}

/-- What a program preserves from its start on is preserved by one step of the
machine. -/
theorem always_crashStep {Q : α → σ → Prop}
    (hstart : ∀ p s, starts p → I s → Always step I Q p (reset s)) {c c' : Config Op Ans α σ}
    (hc : Always step I Q c.prog c.state) (h : CrashStep step reset starts c c') :
    Always step I Q c'.prog c'.state := by
  cases h with
  | run hs => exact hc.next hs
  | start hp => exact hstart _ _ hp hc.here

/-- An invariant of the machine: it holds in the first state and every program
preserves it, wherever the run is cut off. -/
theorem always_of_crashSteps {Q : α → σ → Prop}
    (hstart : ∀ p s, starts p → I s → Always step I Q p (reset s)) {c c' : Config Op Ans α σ}
    (hc : Always step I Q c.prog c.state)
    (h : Relation.ReflTransGen (CrashStep step reset starts) c c') : I c'.state := by
  have hall : Always step I Q c'.prog c'.state := by
    induction h with
    | refl => exact hc
    | tail _ hlast ih => exact always_crashStep hstart ih hlast
  exact hall.here

/-- A run to its end, as steps of the machine. -/
theorem crashSteps_of_runs {p : Prog Op Ans α} {s s' : σ} {b : α} (h : Runs step p s b s') :
    Relation.ReflTransGen (CrashStep step reset starts) ⟨s, p⟩ ⟨s', ret b⟩ := by
  induction p generalizing s with
  | ret a =>
    obtain ⟨rfl, rfl⟩ := h
    exact .refl
  | op o k ih =>
    obtain ⟨a, s₁, hs, hrest⟩ := h
    exact .head (.run hs) (ih a hrest)

/-- A run of the program gets to the state `s'`. -/
def Passes (step : σ → (o : Op) → Ans o → σ → Prop) : Prog Op Ans α → σ → σ → Prop
  | ret _, s, s' => s = s'
  | op o k, s, s' => s = s' ∨ ∃ a s₁, step s o a s₁ ∧ Passes step (k a) s₁ s'

theorem Passes.here (p : Prog Op Ans α) (s : σ) : Passes step p s s := by
  cases p with
  | ret a => exact rfl
  | op o k => exact .inl rfl

theorem Passes.next {o : Op} {k : Ans o → Prog Op Ans α} {s s₁ s' : σ} {a : Ans o}
    (hs : step s o a s₁) (h : Passes step (k a) s₁ s') : Passes step (.op o k) s s' :=
  .inr ⟨a, s₁, hs, h⟩

theorem Passes.left {p : Prog Op Ans α} {f : α → Prog Op Ans β} {s s' : σ}
    (h : Passes step p s s') : Passes step (p >>= f) s s' := by
  induction p generalizing s with
  | ret a =>
    obtain rfl := h
    exact .here _ _
  | op o k ih =>
    rcases h with rfl | ⟨a, s₁, hs, hrest⟩
    · exact .here _ _
    · exact .next hs (ih a hrest)

theorem Passes.bind {p : Prog Op Ans α} {f : α → Prog Op Ans β} {s s₁ s' : σ} {a : α}
    (h : Runs step p s a s₁) (h' : Passes step (f a) s₁ s') : Passes step (p >>= f) s s' := by
  induction p generalizing s with
  | ret a =>
    obtain ⟨rfl, rfl⟩ := h
    exact h'
  | op o k ih =>
    obtain ⟨x, s₂, hs, hrest⟩ := h
    exact .next hs (ih x hrest)

/-- The machine gets to every state on the way of a run. -/
theorem crashSteps_of_passes {p : Prog Op Ans α} {s s' : σ} (h : Passes step p s s') :
    ∃ p', Relation.ReflTransGen (CrashStep step reset starts) ⟨s, p⟩ ⟨s', p'⟩ := by
  induction p generalizing s with
  | ret a =>
    obtain rfl := h
    exact ⟨_, .refl⟩
  | op o k ih =>
    rcases h with rfl | ⟨a, s₁, hs, hrest⟩
    · exact ⟨_, .refl⟩
    · obtain ⟨p', hsteps⟩ := ih a hrest
      exact ⟨p', .head (.run hs) hsteps⟩

end Crash

end Prog

end BootableRecovery
