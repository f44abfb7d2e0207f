import Mathlib.Data.List.Basic
import Mathlib.Logic.Relation
import Mathlib.Order.Basic

/-!
# Two-way streams with one message under way

Two parties are connected by two queues. Each sends pieces of a stream to the other, and
after each piece it waits for an acknowledgement, which the other sends when it has
delivered the piece. Either of them can finish at any time; what it has received and not
yet delivered it can deliver later (`draining`) or give up.

* `Step.inv`, `Steps.inv`: the invariant of a link.
* `Inv.delivered`: what is delivered is a prefix of what was sent.
* `Inv.complete`: a party that learns that the other one has finished has received
  everything.
* `Inv.one_outstanding`, `Inv.not_stuck`: of each direction at most one piece is under
  way, and the permission to send is never lost.

Nothing in this module mentions the programs that are verified.
-/

namespace BootableRecovery.StopAndWait

variable {α : Type}

/-- A party that is `opening` waits for the first acknowledgement. -/
inductive Phase where
  | opening
  | live
  | draining
  | gone
  deriving DecidableEq, Repr

inductive Msg (α : Type) where
  | data (d : List α)
  | ack
  | fin
  deriving DecidableEq, Repr

/-- `owes` says that an acknowledgement is due, `closed` that the other party finished
while this one was live. `lost` is what was received and given up. -/
structure Party (α : Type) where
  phase : Phase
  canSend : Bool
  owes : Bool
  queue : List α
  sent : List α
  got : List α
  lost : List α
  closed : Bool

def Party.up (p : Party α) : Prop := p.phase = .opening ∨ p.phase = .live

/-- The parties and the messages on the way to them. -/
@[ext] structure Link (α : Type) where
  party : Bool → Party α
  toward : Bool → List (Msg α)

namespace Link

/-- Nothing has been sent; the party that was called by `o` has acknowledged the call. -/
def start (o : Bool) : Link α where
  party x := ⟨if x = o then .opening else .live, x != o, false, [], [], [], [], false⟩
  toward x := if x = o then [.ack] else []

def set (l : Link α) (x : Bool) (p : Party α) : Link α :=
  { l with party := Function.update l.party x p }

def push (l : Link α) (x : Bool) (ms : List (Msg α)) : Link α :=
  { l with toward := Function.update l.toward x (l.toward x ++ ms) }

def pop (l : Link α) (x : Bool) : Link α :=
  { l with toward := Function.update l.toward x (l.toward x).tail }

/-- The party finishes. -/
def finish (l : Link α) (x : Bool) : Link α :=
  (l.set x { l.party x with phase := .draining, canSend := false, owes := false }).push (!x) [.fin]

end Link

/-- What the party `x` does. -/
inductive Step (l : Link α) : Link α → Prop where
  | send (x : Bool) (d : List α) (hlive : (l.party x).phase = .live)
      (hcan : (l.party x).canSend = true) :
      Step l ((l.set x { l.party x with canSend := false, sent := (l.party x).sent ++ d }).push
        (!x) [.data d])
  | write (x : Bool) (w rest : List α) (hgone : (l.party x).phase ≠ .gone)
      (hqueue : (l.party x).queue = w ++ rest) :
      Step l (l.set x { l.party x with queue := rest, got := (l.party x).got ++ w })
  | ack (x : Bool) (hlive : (l.party x).phase = .live) (howes : (l.party x).owes = true)
      (hqueue : (l.party x).queue = []) :
      Step l ((l.set x { l.party x with owes := false }).push (!x) [.ack])
  | finish (x : Bool) (hlive : (l.party x).phase = .live) : Step l (l.finish x)
  | giveUp (x : Bool) (hdraining : (l.party x).phase = .draining) :
      Step l (l.set x { l.party x with
        phase := .gone, queue := [], lost := (l.party x).lost ++ (l.party x).queue })
  | recvData (x : Bool) (d : List α) (rest : List (Msg α))
      (hin : l.toward x = .data d :: rest) (hlive : (l.party x).phase = .live) :
      Step l ((l.pop x).set x { l.party x with
        owes := true, queue := (l.party x).queue ++ d })
  | recvAck (x : Bool) (rest : List (Msg α)) (hin : l.toward x = .ack :: rest)
      (hup : (l.party x).up) :
      Step l ((l.pop x).set x { l.party x with phase := .live, canSend := true })
  | recvFin (x : Bool) (rest : List (Msg α)) (hin : l.toward x = .fin :: rest)
      (hlive : (l.party x).phase = .live) :
      Step l ((l.pop x).set x { l.party x with closed := true } |>.finish x)
  | drop (x : Bool) (m : Msg α) (rest : List (Msg α)) (hin : l.toward x = m :: rest)
      (hdown : ¬ (l.party x).up) : Step l (l.pop x)

abbrev Steps : Link α → Link α → Prop := Relation.ReflTransGen Step

/-! ## The invariant -/

/-- The pieces among the messages, put together. -/
def datas (ms : List (Msg α)) : List α :=
  ms.flatMap fun m => match m with
    | .data d => d
    | _ => []

def Msg.isData : Msg α → Bool
  | .data _ => true
  | _ => false

def Msg.isAck : Msg α → Bool
  | .ack => true
  | _ => false

/-- Where the permission to send is: with the sender, with a piece, with the receiver, or
with an acknowledgement. -/
def tokens (p q : Party α) (there back : List (Msg α)) : Nat :=
  p.canSend.toNat + there.countP Msg.isData + q.owes.toNat + back.countP Msg.isAck

/-- One direction: `p` sends to `q` over `there`, and `q` acknowledges over `back`. -/
structure Dir (p q : Party α) (there back : List (Msg α)) : Prop where
  tokens_le : tokens p q there back ≤ 1
  tokens_eq : p.up → q.up → tokens p q there back = 1
  stream : q.up → p.sent = q.got ++ q.queue ++ datas there
  kept : q.got ++ q.queue ++ q.lost <+: p.sent
  lost_nil : q.phase ≠ .gone → q.lost = []
  queue_nil : q.phase = .gone → q.queue = []
  fin_last : .fin ∉ there.dropLast
  fin_down : .fin ∈ there → ¬ p.up
  down_fin : ¬ p.up → q.up → .fin ∈ there
  closed : q.closed = true → ¬ p.up ∧ ¬ q.up ∧ p.sent = q.got ++ q.queue ++ q.lost
  opening : q.phase = .opening →
    q.got = [] ∧ q.queue = [] ∧ q.owes = false ∧ ∃ rest, there = .ack :: rest

/-- The invariant of a link: both of its directions. -/
def Inv (l : Link α) : Prop :=
  ∀ x, Dir (l.party x) (l.party !x) (l.toward !x) (l.toward x)

theorem bool_not_ne (x : Bool) : (!x) ≠ x := by
  cases x with
  | false => exact Bool.true_eq_false.mp
  | true => exact Bool.false_ne_true

section Lookup

variable (l : Link α) (x : Bool) (p : Party α) (ms : List (Msg α))

@[simp] theorem party_set_self : (l.set x p).party x = p := Function.update_self ..

@[simp] theorem party_set_other : (l.set x p).party (!x) = l.party (!x) :=
  Function.update_of_ne (bool_not_ne x) ..

@[simp] theorem toward_set : (l.set x p).toward = l.toward := rfl

@[simp] theorem party_push : (l.push x ms).party = l.party := rfl

@[simp] theorem toward_push_self : (l.push x ms).toward x = l.toward x ++ ms :=
  Function.update_self ..

@[simp] theorem toward_push_other : (l.push x ms).toward (!x) = l.toward (!x) :=
  Function.update_of_ne (bool_not_ne x) ..

@[simp] theorem toward_push_not : (l.push (!x) ms).toward x = l.toward x :=
  Function.update_of_ne (bool_not_ne x).symm ..

@[simp] theorem party_pop : (l.pop x).party = l.party := rfl

@[simp] theorem toward_pop_self : (l.pop x).toward x = (l.toward x).tail :=
  Function.update_self ..

@[simp] theorem toward_pop_other : (l.pop x).toward (!x) = l.toward (!x) :=
  Function.update_of_ne (bool_not_ne x) ..

@[simp] theorem push_nil : l.push x [] = l := by
  simp [Link.push]

@[simp] theorem push_push (ms' : List (Msg α)) : (l.push x ms).push x ms' = l.push x (ms ++ ms') := by
  simp [Link.push]

@[simp] theorem set_push (y : Bool) : (l.push y ms).set x p = (l.set x p).push y ms := rfl

@[simp] theorem set_set (q : Party α) : (l.set x p).set x q = l.set x q := by
  simp [Link.set]

@[simp] theorem set_party : l.set x (l.party x) = l := by
  simp [Link.set]

end Lookup

section Messages

variable (ms : List (Msg α)) (d : List α)

@[simp] theorem datas_nil : datas ([] : List (Msg α)) = [] := rfl

@[simp] theorem datas_append (ms' : List (Msg α)) : datas (ms ++ ms') = datas ms ++ datas ms' :=
  List.flatMap_append

@[simp] theorem datas_data : datas (.data d :: ms) = d ++ datas ms := rfl

@[simp] theorem datas_ack : datas (.ack :: ms) = datas ms := rfl

@[simp] theorem datas_fin : datas (.fin :: ms) = datas ms := rfl

@[simp] theorem isData_data : (Msg.data d).isData = true := rfl

@[simp] theorem isData_ack : (Msg.ack : Msg α).isData = false := rfl

@[simp] theorem isData_fin : (Msg.fin : Msg α).isData = false := rfl

@[simp] theorem isAck_data : (Msg.data d).isAck = false := rfl

@[simp] theorem isAck_ack : (Msg.ack : Msg α).isAck = true := rfl

@[simp] theorem isAck_fin : (Msg.fin : Msg α).isAck = false := rfl

end Messages

theorem mem_dropLast_cons {β : Type} {a b : β} {l : List β} (h : a ∈ l.dropLast) :
    a ∈ (b :: l).dropLast := by
  cases l with
  | nil => cases h
  | cons c l =>
    rw [List.dropLast_cons_cons]
    exact List.mem_cons_of_mem _ h

theorem inv_iff (l : Link α) (x : Bool) :
    Inv l ↔ Dir (l.party x) (l.party !x) (l.toward !x) (l.toward x) ∧
      Dir (l.party !x) (l.party x) (l.toward x) (l.toward !x) := by
  rw [Inv, Bool.forall_bool]
  cases x with
  | false => rfl
  | true => exact and_comm

theorem inv_start (o : Bool) : Inv (Link.start o : Link α) := by
  rw [inv_iff _ o]
  constructor <;> constructor <;> simp [Link.start, tokens, Party.up]

/-! ## What one step preserves -/

section Sending

variable {p q : Party α} {there back : List (Msg α)}

/-- The sender depends on the direction only by its permission, on its stream and on whether it
is up. -/
theorem Dir.of_sender (h : Dir p q there back) (p' : Party α) (hup : p'.up ↔ p.up)
    (hcan : p'.canSend = p.canSend) (hsent : p'.sent = p.sent) : Dir p' q there back where
  tokens_le := by simpa [tokens, hcan] using h.tokens_le
  tokens_eq hp hq := by simpa [tokens, hcan] using h.tokens_eq (hup.mp hp) hq
  stream hq := hsent.trans (h.stream hq)
  kept := hsent ▸ h.kept
  lost_nil := h.lost_nil
  queue_nil := h.queue_nil
  fin_last := h.fin_last
  fin_down hfin hp := h.fin_down hfin (hup.mp hp)
  down_fin hp := h.down_fin fun hp' => hp (hup.mpr hp')
  closed hc := by
    rw [hup, hsent]
    exact h.closed hc
  opening := h.opening

theorem Dir.of_back (h : Dir p q there back) (back' : List (Msg α))
    (hacks : back'.countP Msg.isAck = back.countP Msg.isAck) : Dir p q there back' :=
  { h with
    tokens_le := by simpa [tokens, hacks] using h.tokens_le
    tokens_eq := by simpa [tokens, hacks] using h.tokens_eq }

theorem Dir.send (h : Dir p q there back) (d : List α) (hlive : p.phase = .live)
    (hcan : p.canSend = true) :
    Dir { p with canSend := false, sent := p.sent ++ d } q (there ++ [.data d]) back := by
  have hup : p.up := .inr hlive
  have hfin : .fin ∉ there := fun hfin => h.fin_down hfin hup
  have htokens : tokens { p with canSend := false, sent := p.sent ++ d } q (there ++ [.data d]) back
      = tokens p q there back := by
    simp only [tokens, hcan, List.countP_append, List.countP_singleton, isData_data, Bool.toNat_true,
      Bool.toNat_false, if_true]
    omega
  exact {
    tokens_le := htokens.trans_le h.tokens_le
    tokens_eq := fun _ hq => htokens.trans (h.tokens_eq hup hq)
    stream := fun hq => by simp [h.stream hq]
    kept := h.kept.trans (List.prefix_append _ _)
    lost_nil := h.lost_nil
    queue_nil := h.queue_nil
    fin_last := by rwa [List.dropLast_concat]
    fin_down := fun hfin' => absurd hfin' (by simp [hfin])
    down_fin := fun hp => absurd hup hp
    closed := fun hc => absurd hup (h.closed hc).1
    opening := fun ho => by
      obtain ⟨hgot, hqueue, howes, rest, hthere⟩ := h.opening ho
      exact ⟨hgot, hqueue, howes, rest ++ [.data d], by rw [hthere, List.cons_append]⟩ }

/-- A message behind the others that is neither data nor the end. -/
theorem Dir.sendAck (h : Dir p q there back) (hup : p.up) : Dir p q (there ++ [.ack]) back := by
  have hfin : .fin ∉ there := fun hfin => h.fin_down hfin hup
  exact {
    tokens_le := by simpa [tokens] using h.tokens_le
    tokens_eq := by simpa [tokens] using h.tokens_eq
    stream := fun hq => by simpa using h.stream hq
    kept := h.kept
    lost_nil := h.lost_nil
    queue_nil := h.queue_nil
    fin_last := by rwa [List.dropLast_concat]
    fin_down := fun hfin' => absurd hfin' (by simp [hfin])
    down_fin := fun hp => absurd hup hp
    closed := h.closed
    opening := fun ho => by
      obtain ⟨hgot, hqueue, howes, rest, hthere⟩ := h.opening ho
      exact ⟨hgot, hqueue, howes, rest ++ [.ack], by rw [hthere, List.cons_append]⟩ }

/-- The sender finishes. -/
theorem Dir.sendFin (h : Dir p q there back) (hup : p.up) :
    Dir { p with phase := .draining, canSend := false, owes := false } q (there ++ [.fin]) back := by
  have hfin : .fin ∉ there := fun hfin => h.fin_down hfin hup
  exact {
    tokens_le := by
      have hle := h.tokens_le
      simp only [tokens, List.countP_append, List.countP_singleton, isData_fin, Bool.toNat_false,
        Bool.false_eq_true, if_false] at hle ⊢
      omega
    tokens_eq := fun hp => absurd hp (by simp [Party.up])
    stream := fun hq => by simpa using h.stream hq
    kept := h.kept
    lost_nil := h.lost_nil
    queue_nil := h.queue_nil
    fin_last := by rwa [List.dropLast_concat]
    fin_down := fun _ hp => absurd hp (by simp [Party.up])
    down_fin := fun _ _ => by simp
    closed := fun hc => absurd hup (h.closed hc).1
    opening := fun ho => by
      obtain ⟨hgot, hqueue, howes, rest, hthere⟩ := h.opening ho
      exact ⟨hgot, hqueue, howes, rest ++ [.fin], by rw [hthere, List.cons_append]⟩ }

theorem Dir.recvAck (h : Dir p q there (.ack :: back)) (hup : p.up) :
    Dir { p with phase := .live, canSend := true } q there back := by
  have hle := h.tokens_le
  have hcan : p.canSend = false := by
    cases hcan : p.canSend with
    | false => rfl
    | true =>
      simp only [tokens, hcan, List.countP_cons, isAck_ack, Bool.toNat_true, if_true] at hle
      omega
  have htokens : tokens { p with phase := .live, canSend := true } q there back
      = tokens p q there (.ack :: back) := by
    simp only [tokens, hcan, List.countP_cons, isAck_ack, Bool.toNat_true, Bool.toNat_false, if_true]
    omega
  exact {
    tokens_le := htokens.trans_le hle
    tokens_eq := fun _ hq => htokens.trans (h.tokens_eq hup hq)
    stream := h.stream
    kept := h.kept
    lost_nil := h.lost_nil
    queue_nil := h.queue_nil
    fin_last := h.fin_last
    fin_down := fun hfin => absurd hup (h.fin_down hfin)
    down_fin := fun hp => absurd (.inr rfl) hp
    closed := fun hc => absurd hup (h.closed hc).1
    opening := h.opening }

/-- What comes to a sender that is down has no effect. -/
theorem Dir.dropBack {m : Msg α} (h : Dir p q there (m :: back)) (hdown : ¬ p.up) :
    Dir p q there back :=
  { h with
    tokens_le := by
      have hle := h.tokens_le
      simp only [tokens, List.countP_cons] at hle ⊢
      omega
    tokens_eq := fun hp => absurd hp hdown }

end Sending

section Receiving

variable {p q : Party α} {there back : List (Msg α)}

theorem Dir.write (h : Dir p q there back) {w rest : List α} (hgone : q.phase ≠ .gone)
    (hqueue : q.queue = w ++ rest) :
    Dir p { q with queue := rest, got := q.got ++ w } there back := by
  have hall : q.got ++ w ++ rest = q.got ++ q.queue := by rw [hqueue, List.append_assoc]
  exact {
    tokens_le := h.tokens_le
    tokens_eq := h.tokens_eq
    stream := fun hq => by
      rw [hall]
      exact h.stream hq
    kept := by
      rw [hall]
      exact h.kept
    lost_nil := h.lost_nil
    queue_nil := fun hg => absurd hg hgone
    fin_last := h.fin_last
    fin_down := h.fin_down
    down_fin := h.down_fin
    closed := fun hc => by
      rw [hall]
      exact h.closed hc
    opening := fun ho => by
      obtain ⟨hgot, hnil, hthere⟩ := h.opening ho
      obtain ⟨rfl, rfl⟩ := List.append_eq_nil_iff.mp (hqueue.symm.trans hnil)
      exact ⟨by simp [hgot], rfl, hthere⟩ }

theorem Dir.ack (h : Dir p q there back) (howes : q.owes = true) :
    Dir p { q with owes := false } there (back ++ [.ack]) := by
  have htokens : tokens p { q with owes := false } there (back ++ [.ack])
      = tokens p q there back := by
    simp only [tokens, howes, List.countP_append, List.countP_singleton, isAck_ack, Bool.toNat_true,
      Bool.toNat_false, if_true]
    omega
  exact { h with
    tokens_le := htokens.trans_le h.tokens_le
    tokens_eq := fun hp hq => htokens.trans (h.tokens_eq hp hq)
    opening := fun ho => by
      obtain ⟨hgot, hqueue, -, hthere⟩ := h.opening ho
      exact ⟨hgot, hqueue, rfl, hthere⟩ }

/-- The receiver finishes. -/
theorem Dir.down (h : Dir p q there back) (hlive : q.phase = .live) :
    Dir p { q with phase := .draining, canSend := false, owes := false } there (back ++ [.fin]) where
  tokens_le := by
    have hle := h.tokens_le
    simp only [tokens, List.countP_append, List.countP_singleton, isAck_fin, Bool.toNat_false,
      Bool.false_eq_true, if_false] at hle ⊢
    omega
  tokens_eq _ hq := absurd hq (by simp [Party.up])
  stream hq := absurd hq (by simp [Party.up])
  kept := h.kept
  lost_nil _ := h.lost_nil (by simp [hlive])
  queue_nil hg := nomatch hg
  fin_last := h.fin_last
  fin_down := h.fin_down
  down_fin _ hq := absurd hq (by simp [Party.up])
  closed hc := absurd (.inr hlive) (h.closed hc).2.1
  opening ho := nomatch ho

theorem Dir.giveUp (h : Dir p q there back) (hdraining : q.phase = .draining) :
    Dir p { q with phase := .gone, queue := [], lost := q.lost ++ q.queue } there back := by
  have hlost : q.lost = [] := h.lost_nil (by simp [hdraining])
  have hkept := h.kept
  rw [hlost, List.append_nil] at hkept
  exact {
    tokens_le := h.tokens_le
    tokens_eq := fun _ hq => absurd hq (by simp [Party.up])
    stream := fun hq => absurd hq (by simp [Party.up])
    kept := by simpa [hlost] using hkept
    lost_nil := fun hg => absurd rfl hg
    queue_nil := fun _ => rfl
    fin_last := h.fin_last
    fin_down := h.fin_down
    down_fin := fun _ hq => absurd hq (by simp [Party.up])
    closed := fun hc => by
      obtain ⟨hp, -, hsent⟩ := h.closed hc
      exact ⟨hp, by simp [Party.up], by simpa [hlost] using hsent⟩
    opening := fun ho => nomatch ho }

theorem Dir.recvData {d : List α} (h : Dir p q (.data d :: there) back) (hlive : q.phase = .live) :
    Dir p { q with owes := true, queue := q.queue ++ d } there back := by
  have hup : q.up := .inr hlive
  have hle := h.tokens_le
  have howes : q.owes = false := by
    cases howes : q.owes with
    | false => rfl
    | true =>
      simp only [tokens, howes, List.countP_cons, isData_data, Bool.toNat_true, if_true] at hle
      omega
  have htokens : tokens p { q with owes := true, queue := q.queue ++ d } there back
      = tokens p q (.data d :: there) back := by
    simp only [tokens, howes, List.countP_cons, isData_data, Bool.toNat_true, Bool.toNat_false,
      if_true]
    omega
  have hstream := h.stream hup
  have hlost : q.lost = [] := h.lost_nil (by simp [hlive])
  exact {
    tokens_le := htokens.trans_le hle
    tokens_eq := fun hp _ => htokens.trans (h.tokens_eq hp hup)
    stream := fun _ => by simpa using hstream
    kept := by simp [hstream, hlost]
    lost_nil := h.lost_nil
    queue_nil := fun hg => absurd hg (by simp [hlive])
    fin_last := fun hfin => h.fin_last (mem_dropLast_cons hfin)
    fin_down := fun hfin => h.fin_down (List.mem_cons_of_mem _ hfin)
    down_fin := fun hp hq => (List.mem_cons.mp (h.down_fin hp hup)).resolve_left (by simp)
    closed := fun hc => absurd hup (h.closed hc).2.1
    opening := fun ho => absurd ho (by simp [hlive]) }

/-- The receiver takes an acknowledgement, which is about the other direction. -/
theorem Dir.takeAck (h : Dir p q (.ack :: there) back) (hup : q.up) :
    Dir p { q with phase := .live, canSend := true } there back where
  tokens_le := by simpa [tokens] using h.tokens_le
  tokens_eq hp _ := by simpa [tokens] using h.tokens_eq hp hup
  stream _ := by simpa using h.stream hup
  kept := h.kept
  lost_nil _ := h.lost_nil (by rcases hup with hup | hup <;> simp [hup])
  queue_nil hg := nomatch hg
  fin_last hfin := h.fin_last (mem_dropLast_cons hfin)
  fin_down hfin := h.fin_down (List.mem_cons_of_mem _ hfin)
  down_fin hp _ := (List.mem_cons.mp (h.down_fin hp hup)).resolve_left (by simp)
  closed hc := absurd hup (h.closed hc).2.1
  opening ho := nomatch ho

/-- The receiver learns that the sender has finished: it has everything. -/
theorem Dir.recvFin (h : Dir p q (.fin :: there) back) (hlive : q.phase = .live) :
    Dir p { q with phase := .draining, canSend := false, owes := false, closed := true } there
      (back ++ [.fin]) := by
  have hnil : there = [] := by
    cases there with
    | nil => rfl
    | cons m there => exact absurd List.mem_cons_self h.fin_last
  subst hnil
  have hstream := h.stream (.inr hlive)
  have hlost : q.lost = [] := h.lost_nil (by simp [hlive])
  have hdown := h.fin_down List.mem_cons_self
  have hle := h.tokens_le
  exact {
    tokens_le := by
      simp only [tokens, List.countP_append, List.countP_cons, List.countP_nil, isData_fin, isAck_fin,
        Bool.toNat_false, Bool.false_eq_true, if_false] at hle ⊢
      omega
    tokens_eq := fun hp => absurd hp hdown
    stream := fun hq => absurd hq (by simp [Party.up])
    kept := h.kept
    lost_nil := fun _ => hlost
    queue_nil := fun hg => nomatch hg
    fin_last := by simp
    fin_down := fun hfin => nomatch hfin
    down_fin := fun _ hq => absurd hq (by simp [Party.up])
    closed := fun _ => ⟨hdown, by simp [Party.up], by simpa [hlost] using hstream⟩
    opening := fun ho => nomatch ho }

/-- What comes to a receiver that is down has no effect. -/
theorem Dir.drop {m : Msg α} (h : Dir p q (m :: there) back) (hdown : ¬ q.up) :
    Dir p q there back where
  tokens_le := by
    have hle := h.tokens_le
    simp only [tokens, List.countP_cons] at hle ⊢
    omega
  tokens_eq _ hq := absurd hq hdown
  stream hq := absurd hq hdown
  kept := h.kept
  lost_nil := h.lost_nil
  queue_nil := h.queue_nil
  fin_last hfin := h.fin_last (mem_dropLast_cons hfin)
  fin_down hfin := h.fin_down (List.mem_cons_of_mem _ hfin)
  down_fin _ hq := absurd hq hdown
  closed := h.closed
  opening ho := absurd (.inl ho) hdown

end Receiving

/-- Every step keeps both directions: of one the party is the sender, of the other one the
receiver. -/
theorem Step.inv {l l' : Link α} (h : Step l l') (hinv : Inv l) : Inv l' := by
  cases h with
  | send x d hlive hcan =>
    obtain ⟨hout, hin⟩ := (inv_iff l x).mp hinv
    refine (inv_iff _ x).mpr ⟨?_, ?_⟩
    · simpa using hout.send d hlive hcan
    · have hback := hin.of_back (l.toward (!x) ++ [.data d]) (by simp)
      simpa using { hback with }
  | write x w rest hgone hqueue =>
    obtain ⟨hout, hin⟩ := (inv_iff l x).mp hinv
    refine (inv_iff _ x).mpr ⟨?_, ?_⟩
    · simpa using hout.of_sender { l.party x with queue := rest, got := _ } Iff.rfl rfl rfl
    · simpa using hin.write hgone hqueue
  | ack x hlive howes hqueue =>
    obtain ⟨hout, hin⟩ := (inv_iff l x).mp hinv
    refine (inv_iff _ x).mpr ⟨?_, ?_⟩
    · have hsender := hout.of_sender { l.party x with owes := false } Iff.rfl rfl rfl
      simpa using hsender.sendAck (.inr hlive)
    · simpa using hin.ack howes
  | finish x hlive =>
    obtain ⟨hout, hin⟩ := (inv_iff l x).mp hinv
    refine (inv_iff _ x).mpr ⟨?_, ?_⟩
    · simpa [Link.finish] using hout.sendFin (.inr hlive)
    · simpa [Link.finish] using hin.down hlive
  | giveUp x hdraining =>
    obtain ⟨hout, hin⟩ := (inv_iff l x).mp hinv
    refine (inv_iff _ x).mpr ⟨?_, ?_⟩
    · have hup : ∀ q l', ({ l.party x with phase := .gone, queue := q, lost := l' } : Party α).up ↔
          (l.party x).up := by simp [Party.up, hdraining]
      simpa using hout.of_sender _ (hup _ _) rfl rfl
    · simpa using hin.giveUp hdraining
  | recvData x d rest hmsg hlive =>
    obtain ⟨hout, hin⟩ := (inv_iff l x).mp hinv
    rw [hmsg] at hout hin
    refine (inv_iff _ x).mpr ⟨?_, ?_⟩
    · have hback := hout.of_back rest (by simp)
      simpa [hmsg] using hback.of_sender { l.party x with owes := true, queue := _ } Iff.rfl rfl rfl
    · simpa [hmsg] using hin.recvData hlive
  | recvAck x rest hmsg hup =>
    obtain ⟨hout, hin⟩ := (inv_iff l x).mp hinv
    rw [hmsg] at hout hin
    refine (inv_iff _ x).mpr ⟨?_, ?_⟩
    · simpa [hmsg] using hout.recvAck hup
    · simpa [hmsg] using hin.takeAck hup
  | recvFin x rest hmsg hlive =>
    obtain ⟨hout, hin⟩ := (inv_iff l x).mp hinv
    rw [hmsg] at hout hin
    refine (inv_iff _ x).mpr ⟨?_, ?_⟩
    · have hback := (hout.of_back rest (by simp)).sendFin (.inr hlive)
      simpa [hmsg, Link.finish] using hback.of_sender
        { l.party x with phase := .draining, canSend := false, owes := false, closed := true }
        Iff.rfl rfl rfl
    · simpa [hmsg, Link.finish] using hin.recvFin hlive
  | drop x m rest hmsg hdown =>
    obtain ⟨hout, hin⟩ := (inv_iff l x).mp hinv
    rw [hmsg] at hout hin
    refine (inv_iff _ x).mpr ⟨?_, ?_⟩
    · simpa [hmsg] using hout.dropBack hdown
    · simpa [hmsg] using hin.drop hdown

theorem Steps.inv {l l' : Link α} (h : Steps l l') (hinv : Inv l) : Inv l' := by
  induction h with
  | refl => exact hinv
  | tail _ hstep ih => exact hstep.inv ih

/-! ## What the invariant says -/

section Results

variable {l : Link α}

/-- What is delivered is a prefix of what was sent, in every state. -/
theorem Inv.delivered (h : Inv l) (x : Bool) : (l.party !x).got <+: (l.party x).sent := by
  have hkept := (h x).kept
  rw [List.append_assoc] at hkept
  exact (List.prefix_append _ _).trans hkept

/-- A party that was live when it learned that the other one had finished has received
everything. -/
theorem Inv.complete (h : Inv l) {x : Bool} (hclosed : (l.party !x).closed = true) :
    (l.party x).sent = (l.party !x).got ++ (l.party !x).queue ++ (l.party !x).lost :=
  ((h x).closed hclosed).2.2

/-- As long as the receiver is up, every piece is delivered, waits there or is on the way. -/
theorem Inv.stream (h : Inv l) {x : Bool} (hup : (l.party !x).up) :
    (l.party x).sent = (l.party !x).got ++ (l.party !x).queue ++ datas (l.toward !x) :=
  (h x).stream hup

/-- At most one piece is under way or not yet acknowledged. -/
theorem Inv.one_outstanding (h : Inv l) (x : Bool) :
    (l.toward !x).countP Msg.isData + (l.party !x).owes.toNat ≤ 1 := by
  have hle := (h x).tokens_le
  rw [tokens] at hle
  omega

/-- Between parties that are up, the permission to send is somewhere. -/
theorem Inv.not_stuck (h : Inv l) {x : Bool} (hup : (l.party x).up) (hup' : (l.party !x).up) :
    (l.party x).canSend = true ∨ (∃ d, .data d ∈ l.toward !x) ∨ (l.party !x).owes = true ∨
      .ack ∈ l.toward x := by
  by_contra hnone
  simp only [not_or, not_exists, Bool.not_eq_true] at hnone
  obtain ⟨hcan, hdata, howes, hack⟩ := hnone
  have hnodata : (l.toward !x).countP Msg.isData = 0 := by
    rw [List.countP_eq_zero]
    rintro (d | _ | _) hm
    · exact absurd hm (hdata d)
    · exact Bool.false_ne_true
    · exact Bool.false_ne_true
  have hnoack : (l.toward x).countP Msg.isAck = 0 := by
    rw [List.countP_eq_zero]
    rintro (d | _ | _) hm
    · exact Bool.false_ne_true
    · exact absurd hm hack
    · exact Bool.false_ne_true
  have htokens := (h x).tokens_eq hup hup'
  simp [tokens, hcan, howes, hnodata, hnoack] at htokens

/-- When one end is down, the other one is down too or will learn of it. -/
theorem Inv.not_half_open (h : Inv l) {x : Bool} (hdown : ¬ (l.party x).up)
    (hup : (l.party !x).up) : .fin ∈ l.toward !x :=
  (h x).down_fin hdown hup

/-- A piece only comes to a party that has acknowledged what it had before. -/
theorem Inv.owes_eq_false (h : Inv l) {x : Bool} {d : List α} {rest : List (Msg α)}
    (hmsg : l.toward x = .data d :: rest) : (l.party x).owes = false := by
  have hle := h.one_outstanding (!x)
  rw [Bool.not_not, hmsg, List.countP_cons, isData_data, if_pos rfl] at hle
  exact Bool.toNat_eq_zero.mp (by omega)

/-- A party that waits for the first acknowledgement finds it in front, and has nothing to do
before. -/
theorem Inv.opening (h : Inv l) {x : Bool} (ho : (l.party x).phase = .opening) :
    (l.party x).canSend = false ∧ (l.party x).owes = false ∧ ∃ rest, l.toward x = .ack :: rest := by
  have hin := h (!x)
  rw [Bool.not_not] at hin
  obtain ⟨-, -, howes, rest, hrest⟩ := hin.opening ho
  have hle := (h x).tokens_le
  simp only [tokens, hrest, List.countP_cons, isAck_ack, if_true] at hle
  exact ⟨Bool.toNat_eq_zero.mp (by omega), howes, rest, hrest⟩

end Results

end BootableRecovery.StopAndWait
