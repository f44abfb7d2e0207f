import BootableRecovery.Lib.Machine

/-!
# Computations that can abort

A computation on a state returns a value or aborts, unless it faults. What it has done
before it aborts stays done.

* `Triple`: a precondition, what holds with the value, what holds when the computation
  aborts, and whether it may fault. There is a rule for each way to build a computation.
* `Agrees`: two computations end in the same way from related states, in related states. The
  rules are the same.

Nothing in this module mentions the programs that are verified.
-/

namespace BootableRecovery

/-- The value is `none` when the computation aborts. -/
def Abortable (σ α : Type) : Type := σ → Outcome (Option α × σ)

namespace Abortable

variable {σ τ α β : Type}

def ret (a : α) : Abortable σ α := fun s => .done (some a, s)

def bind (m : Abortable σ α) (f : α → Abortable σ β) : Abortable σ β := fun s =>
  match m s with
  | .done (some a, s') => f a s'
  | .done (none, s') => .done (none, s')
  | .fault => .fault
  | .spin => .spin

instance : Monad (Abortable σ) where
  pure := ret
  bind := bind

def abort : Abortable σ α := fun s => .done (none, s)

def fault : Abortable σ α := fun _ => .fault

/-- Change the state. -/
def act (f : σ → σ) : Abortable σ Unit := fun s => .done (some (), f s)

/-- Go on when `m` aborts, without a value. -/
def attempt (m : Abortable σ α) : Abortable σ (Option α) := fun s =>
  match m s with
  | .done (a, s') => .done (some a, s')
  | .fault => .fault
  | .spin => .spin

/-- A computation that does not look at the state. -/
def lift (x : Outcome α) : Abortable σ α := fun s =>
  match x with
  | .done a => .done (some a, s)
  | .fault => .fault
  | .spin => .spin

/-- The values of the computations, up to the first that aborts. -/
def gather : List (Abortable σ α) → Abortable σ (List α)
  | [] => ret []
  | m :: ms => do
    let a ← m
    let as ← gather ms
    ret (a :: as)

@[simp] theorem pure_eq (a : α) : (pure a : Abortable σ α) = ret a := rfl

@[simp] theorem ret_bind (a : α) (f : α → Abortable σ β) : (ret a >>= f) = f a := rfl

@[simp] theorem abort_bind (f : α → Abortable σ β) : ((abort : Abortable σ α) >>= f) = abort := rfl

theorem bind_apply {m : Abortable σ α} {s s' : σ} {a : α} (h : m s = .done (some a, s'))
    (f : α → Abortable σ β) : (m >>= f) s = f a s' := by
  show bind m f s = f a s'
  simp only [bind, h]

theorem bind_apply_none {m : Abortable σ α} {s s' : σ} (h : m s = .done (none, s'))
    (f : α → Abortable σ β) : (m >>= f) s = .done (none, s') := by
  show bind m f s = _
  simp only [bind, h]

theorem bind_apply_fault {m : Abortable σ α} {s : σ} (h : m s = .fault) (f : α → Abortable σ β) :
    (m >>= f) s = .fault := by
  show bind m f s = _
  simp only [bind, h]

theorem bind_apply_spin {m : Abortable σ α} {s : σ} (h : m s = .spin) (f : α → Abortable σ β) :
    (m >>= f) s = .spin := by
  show bind m f s = _
  simp only [bind, h]

/-! ## Triples -/

/-- `Q` holds with the value, `R` when there is none, and there is no fault unless `X`. -/
def Ends (Q : α → σ → Prop) (R : σ → Prop) (X : Prop) : Outcome (Option α × σ) → Prop
  | .done (some a, s) => Q a s
  | .done (none, s) => R s
  | .fault => X
  | .spin => X

def Triple (P : σ → Prop) (m : Abortable σ α) (Q : α → σ → Prop) (R : σ → Prop) (X : Prop) : Prop :=
  ∀ s, P s → Ends Q R X (m s)

/-- `P` holds before and behind the computation. -/
def Keeps (P : σ → Prop) (m : Abortable σ α) (R : σ → Prop) (X : Prop) : Prop :=
  Triple P m (fun _ => P) R X

section Rules

variable {P P' R R' : σ → Prop} {Q Q' : α → σ → Prop} {X : Prop}

theorem Ends.imp {o : Outcome (Option α × σ)} (h : Ends Q R X o) (hQ : ∀ a s, Q a s → Q' a s)
    (hR : ∀ s, R s → R' s) : Ends Q' R' X o := by
  cases o with
  | done x =>
    obtain ⟨_ | a, s⟩ := x
    · exact hR s h
    · exact hQ a s h
  | fault => exact h
  | spin => exact h

theorem Triple.conseq {m : Abortable σ α} (h : Triple P m Q R X) (hP : ∀ s, P' s → P s)
    (hQ : ∀ a s, Q a s → Q' a s) (hR : ∀ s, R s → R' s) : Triple P' m Q' R' X :=
  fun s hs => (h s (hP s hs)).imp hQ hR

theorem Triple.ret {a : α} (h : ∀ s, P s → Q a s) : Triple P (ret a) Q R X := h

theorem Triple.abort (h : ∀ s, P s → R s) : Triple P (abort : Abortable σ α) Q R X := h

theorem Triple.fault (h : X) : Triple P (fault : Abortable σ α) Q R X := fun _ _ => h

theorem Triple.act {f : σ → σ} {Q : Unit → σ → Prop} (h : ∀ s, P s → Q () (f s)) :
    Triple P (act f) Q R X := h

theorem Triple.bind {m : Abortable σ α} {f : α → Abortable σ β} {Q' : β → σ → Prop}
    (hm : Triple P m Q R X) (hf : ∀ a, Triple (Q a) (f a) Q' R X) : Triple P (m >>= f) Q' R X := by
  intro s hs
  have hends := hm s hs
  show Ends Q' R X (Abortable.bind m f s)
  unfold Abortable.bind
  cases hms : m s with
  | done x =>
    rw [hms] at hends
    obtain ⟨_ | a, s'⟩ := x
    · exact hends
    · exact hf a s' hends
  | fault =>
    rw [hms] at hends
    exact hends
  | spin =>
    rw [hms] at hends
    exact hends

theorem Triple.attempt {m : Abortable σ α} {Q : Option α → σ → Prop}
    (h : Triple P m (fun a => Q (some a)) (Q none) X) : Triple P (attempt m) Q R X := by
  intro s hs
  have hends := h s hs
  unfold Abortable.attempt
  cases hms : m s with
  | done x =>
    rw [hms] at hends
    obtain ⟨_ | a, s'⟩ := x
    · exact hends
    · exact hends
  | fault =>
    rw [hms] at hends
    exact hends
  | spin =>
    rw [hms] at hends
    exact hends

theorem Keeps.bind {m : Abortable σ α} {f : α → Abortable σ β} (hm : Keeps P m R X)
    (hf : ∀ a, Keeps P (f a) R X) : Keeps P (m >>= f) R X :=
  Triple.bind hm hf

/-- Only the values that the computation can return matter. -/
theorem Keeps.bind_of {m : Abortable σ α} {f : α → Abortable σ β} (hm : Keeps P m R X)
    (hf : ∀ a, (∃ s s', m s = .done (some a, s')) → Keeps P (f a) R X) :
    Keeps P (m >>= f) R X := by
  have hmQ : Triple P m (fun a s => P s ∧ ∃ s₀ s', m s₀ = .done (some a, s')) R X := by
    intro s hs
    have hends := hm s hs
    cases hms : m s with
    | done x =>
      rw [hms] at hends
      obtain ⟨_ | a, s'⟩ := x
      · exact hends
      · exact ⟨hends, s, s', hms⟩
    | fault =>
      rw [hms] at hends
      exact hends
    | spin =>
      rw [hms] at hends
      exact hends
  exact Triple.bind hmQ fun a s hs => hf a hs.2 s hs.1

/-- The computation always returns a value. -/
def Yields (m : Abortable σ α) : Prop := ∀ s, ∃ a s', m s = .done (some a, s')

theorem Keeps.yields {m : Abortable σ α} (hm : Keeps P m R X) (h : Yields m) :
    Keeps P m (fun _ => False) X := by
  intro s hs
  obtain ⟨a, s', hms⟩ := h s
  have hends := hm s hs
  rw [hms] at hends ⊢
  exact hends

/-- Where a program goes on without the value of an abort, there must be none. -/
theorem Triple.attempt_or_fault {m : Abortable σ α} {f : Option α → Abortable σ β}
    {Q' : β → σ → Prop} (hm : X ∧ Triple P m Q R' X ∨ Triple P m Q (fun _ => False) X)
    (hnone : f none = Abortable.fault) (hsome : ∀ a, Triple (Q a) (f (some a)) Q' R X) :
    Triple P (Abortable.attempt m >>= f) Q' R X := by
  rcases hm with ⟨hX, hm⟩ | hm
  · refine (Triple.attempt (Q := fun o s => ∀ a, o = some a → Q a s) (hm.conseq (fun _ hs => hs)
      (fun a s hs a' ha => Option.some.inj ha ▸ hs) fun _ _ a ha => by simp at ha)).bind
      fun o s hs => ?_
    cases o with
    | none =>
      rw [hnone]
      exact hX
    | some a => exact hsome a s (hs a rfl)
  · refine (Triple.attempt (Q := fun o s => ∃ a, o = some a ∧ Q a s) (hm.conseq (fun _ hs => hs)
      (fun a _ hs => ⟨a, rfl, hs⟩) fun _ h => h.elim)).bind fun o s hs => ?_
    obtain ⟨a, rfl, hs⟩ := hs
    exact hsome a s hs

theorem Keeps.ret (a : α) : Keeps P (ret a) R X := fun _ hs => hs

theorem Keeps.lift {x : Outcome α} (h : X ∨ ∃ a, x = .done a) : Keeps P (lift x) R X := by
  intro s hs
  rcases h with hX | ⟨a, rfl⟩
  · cases x with
    | done a => exact hs
    | fault => exact hX
    | spin => exact hX
  · exact hs

theorem Triple.gather {ms : List (Abortable σ α)} (h : ∀ m ∈ ms, Keeps P m R X) :
    Triple P (gather ms) (fun as s => as.length = ms.length ∧ P s) R X := by
  induction ms with
  | nil => exact .ret fun s hs => ⟨rfl, hs⟩
  | cons m ms ih =>
    refine Triple.bind (h m List.mem_cons_self) fun a => ?_
    refine Triple.bind (ih fun m' hm' => h m' (List.mem_cons_of_mem _ hm')) fun as s hs => ?_
    exact ⟨congrArg Nat.succ hs.1, hs.2⟩

theorem Keeps.gather {ms : List (Abortable σ α)} (h : ∀ m ∈ ms, Keeps P m R X) :
    Keeps P (gather ms) R X :=
  (Triple.gather h).conseq (fun _ hs => hs) (fun _ _ hs => hs.2) fun _ hs => hs

/-- There is a value for each computation. -/
theorem Keeps.gather_bind {ms : List (Abortable σ α)} {f : List α → Abortable σ β}
    (h : ∀ m ∈ ms, Keeps P m R X) (hf : ∀ as, as.length = ms.length → Keeps P (f as) R X) :
    Keeps P (Abortable.gather ms >>= f) R X :=
  Triple.bind (Triple.gather h) fun as s hs => hf as hs.1 s hs.2

theorem Keeps.attempt_gather {ms : List (Abortable σ α)} {f : Option (List α) → Abortable σ β}
    (hms : ∀ m ∈ ms, Keeps P m R X) (hyields : X ∨ ∀ m ∈ ms, Yields m)
    (hnone : f none = Abortable.fault)
    (hsome : ∀ as, as.length = ms.length → Keeps P (f (some as)) R X) :
    Keeps P (attempt (Abortable.gather ms) >>= f) R X := by
  have hgather :
      X ∧ Triple P (Abortable.gather ms) (fun as s => as.length = ms.length ∧ P s) R X ∨
      Triple P (Abortable.gather ms) (fun as s => as.length = ms.length ∧ P s)
        (fun _ => False) X := by
    rcases hyields with hX | hyields
    · exact .inl ⟨hX, .gather hms⟩
    · exact .inr (.gather fun m hm => (hms m hm).yields (hyields m hm))
  exact Triple.attempt_or_fault hgather hnone fun as s hs => hsome as hs.1 s hs.2

end Rules

/-! ## Two computations -/

/-- The same value or none, in related states, or the same fault. -/
inductive SameEnd (S : σ → τ → Prop) : Outcome (Option α × σ) → Outcome (Option α × τ) → Prop where
  | done {a s t} : S s t → SameEnd S (.done (a, s)) (.done (a, t))
  | fault : SameEnd S .fault .fault
  | spin : SameEnd S .spin .spin

def Agrees (S : σ → τ → Prop) (m : Abortable σ α) (m' : Abortable τ α) : Prop :=
  ∀ s t, S s t → SameEnd S (m s) (m' t)

section Agree

variable {S : σ → τ → Prop}

theorem Agrees.ret (a : α) : Agrees S (ret a) (ret a) := fun _ _ h => .done h

theorem Agrees.abort : Agrees S (abort : Abortable σ α) abort := fun _ _ h => .done h

theorem Agrees.fault : Agrees S (fault : Abortable σ α) fault := fun _ _ _ => .fault

theorem Agrees.act {f : σ → σ} {g : τ → τ} (h : ∀ s t, S s t → S (f s) (g t)) :
    Agrees S (act f) (act g) := fun s t hst => .done (h s t hst)

theorem Agrees.bind {m : Abortable σ α} {m' : Abortable τ α} {f : α → Abortable σ β}
    {f' : α → Abortable τ β} (hm : Agrees S m m') (hf : ∀ a, Agrees S (f a) (f' a)) :
    Agrees S (m >>= f) (m' >>= f') := by
  intro s t hst
  have hend := hm s t hst
  show SameEnd S (Abortable.bind m f s) (Abortable.bind m' f' t)
  unfold Abortable.bind
  generalize m s = x, m' t = y at hend ⊢
  cases hend with
  | @done a s' t' h =>
    cases a with
    | none => exact .done h
    | some a => exact hf a s' t' h
  | fault => exact .fault
  | spin => exact .spin

theorem Agrees.attempt {m : Abortable σ α} {m' : Abortable τ α} (hm : Agrees S m m') :
    Agrees S (attempt m) (attempt m') := by
  intro s t hst
  have hend := hm s t hst
  unfold Abortable.attempt
  generalize m s = x, m' t = y at hend ⊢
  cases hend with
  | done h => exact .done h
  | fault => exact .fault
  | spin => exact .spin

theorem Agrees.gather {ms : List (Abortable σ α)} {ms' : List (Abortable τ α)}
    (h : List.Forall₂ (Agrees S) ms ms') : Agrees S (gather ms) (gather ms') := by
  induction h with
  | nil => exact .ret []
  | cons hm _ ih => exact hm.bind fun a => ih.bind fun as => .ret (a :: as)

end Agree

end Abortable

end BootableRecovery
