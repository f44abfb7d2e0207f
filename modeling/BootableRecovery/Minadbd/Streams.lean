import BootableRecovery.Minadbd.Party

/-!
# `minadbd`: two endpoints

Two programs that run this code are connected by a transport that keeps the packets in
order. A socket that one of them connects and the socket that the other one makes for its
`A_OPEN` are the ends of a stream. Any number of streams share the transport.

Main results:
* `Reachable.inv`: the invariant of the system (`Sys.Inv`), as long as there are identifiers.
* `streams_refine`: each stream is a link of `StopAndWait`, whatever the other streams do.
-/

namespace BootableRecovery.Minadbd

open StopAndWait (Link Msg Party Phase Steps)

/-! ## Two endpoints -/

/-- The endpoints, and the packets on the way to each of them. -/
structure Sys where
  ends : Bool → Endpoint
  toward : Bool → List Packet

def Sys.start : Sys := ⟨fun _ => .start, fun _ => []⟩

/-- The endpoint `z` becomes `e`, `inbox` is still on the way to it, and it sends `out`. -/
def Sys.act (s : Sys) (z : Bool) (e : Endpoint) (inbox out : List Packet) : Sys where
  ends := Function.update s.ends z e
  toward := Function.update (Function.update s.toward z inbox) (!z) (s.toward (!z) ++ out)

/-- An endpoint takes the packet in front, or it does something else. A destination that does
not fit into a packet ends the program. -/
inductive Step (s : Sys) : Sys → Prop where
  | packet (z : Bool) (p : Packet) (rest : List Packet) (env : PacketEnv) (e : Endpoint)
      (out : List Packet) (hin : s.toward z = p :: rest)
      (hstep : step (s.ends z) (.packet p env) = .done (e, out)) : Step s (s.act z e rest out)
  | select (z : Bool) (a : Nat) (read write : Bool) (e : Endpoint) (out : List Packet)
      (hstep : step (s.ends z) (.select a read write) = .done (e, out)) :
      Step s (s.act z e (s.toward z) out)
  | call (z : Bool) (a : Nat) (ws : List WriteAns) (rs : List ReadAns) (e : Endpoint)
      (out : List Packet) (hstep : step (s.ends z) (.call a ws rs) = .done (e, out)) :
      Step s (s.act z e (s.toward z) out)
  | connect (z : Bool) (destination : Bytes) (e : Endpoint) (out : List Packet)
      (hstep : step (s.ends z) (.connect destination) = .done (e, out)) :
      Step s (s.act z e (s.toward z) out)

def Reachable (s : Sys) : Prop := Relation.ReflTransGen Step .start s

/-- No endpoint has used up its identifiers. -/
def Sys.Numbered (s : Sys) : Prop := ∀ x, (s.ends x).made < 2 ^ 32

/-! ## Streams -/

/-- The packets for the socket with an identifier. -/
def inbox (id : Nat) (ps : List Packet) : List Packet :=
  ps.filter fun p => p.opens = none ∧ p.arg1 = id

/-- The identifiers for which `A_OPEN` is among the packets. -/
def opens (ps : List Packet) : List Nat := ps.filterMap Packet.opens

/-- The socket `c o` was connected by the endpoint `o`, and the socket `c !o` was made for its
`A_OPEN`. -/
structure Joined (s : Sys) (o : Bool) (c : Bool → Nat) : Prop where
  opener : ((s.ends !o).log (c !o)).opener = some (c o + 1)
  lt : ∀ x, c x < (s.ends x).made

/-- The link between two sockets. -/
def view (s : Sys) (c : Bool → Nat) : Link UInt8 where
  party x := partyOf ((s.ends x).sock (c x)) ((s.ends x).log (c x))
  toward x := (inbox (c x + 1) (s.toward x)).filterMap Packet.kind

/-- What holds of a stream: it is a link, its ends are each other's peers, and the packets on
the way name them. -/
structure Stream (s : Sys) (o : Bool) (c : Bool → Nat) : Prop where
  steps : Steps (Link.start o) (view s c)
  peer : ∀ x, ∀ sk ∈ (s.ends x).sock (c x), sk.closing = false →
    sk.peer = some (c (!x) + 1) ∨ x = o ∧ sk.peer = none
  sender : ∀ x, ∀ p ∈ inbox (c x + 1) (s.toward x), ∀ i ∈ p.sender, i = c (!x) + 1

/-- A socket that waits for the answer to its `A_OPEN`, which is on the way, or was refused, or
the refusal has come. -/
inductive Waiting (s : Sys) (x : Bool) (a : Nat) : Prop where
  | asked (hsock : (s.ends x).sock a = some ⟨a + 1, false, none, fdeventInstall, []⟩)
      (hlog : (s.ends x).log a = .new) (hopens : (opens (s.toward !x)).count (a + 1) = 1)
      (hinbox : inbox (a + 1) (s.toward x) = [])
  | refused (hsock : (s.ends x).sock a = some ⟨a + 1, false, none, fdeventInstall, []⟩)
      (hopens : a + 1 ∉ opens (s.toward !x))
      (hinbox : inbox (a + 1) (s.toward x) = [.clse 0 (a + 1)])
  | dead (hsock : (s.ends x).sock a = none) (hopens : a + 1 ∉ opens (s.toward !x))
      (hinbox : inbox (a + 1) (s.toward x) = [])

/-- The endpoint `x` has connected with the socket `a`, and no socket was made for it. -/
structure Unanswered (s : Sys) (x : Bool) (a : Nat) : Prop where
  lt : a < (s.ends x).made
  opener : ((s.ends x).log a).opener = none
  none : ∀ b, ((s.ends !x).log b).opener ≠ some (a + 1)

/-- The invariant of the system. -/
structure Sys.Inv (s : Sys) : Prop where
  ok : ∀ x, (s.ends x).Ok
  opener : ∀ x b i, ((s.ends x).log b).opener = some i → b < (s.ends x).made ∧
    ∃ a, i = a + 1 ∧ a < (s.ends !x).made ∧ ((s.ends !x).log a).opener = none
  unique : ∀ x b b' i, ((s.ends x).log b).opener = some i → ((s.ends x).log b').opener = some i →
    b = b'
  streams : ∀ o c, Joined s o c → Stream s o c
  waiting : ∀ x a, Unanswered s x a → Waiting s x a
  opening : ∀ x, ∀ i ∈ opens (s.toward !x), ∃ a, i = a + 1 ∧ Unanswered s x a
  fresh : ∀ x a, (s.ends x).made ≤ a → inbox (a + 1) (s.toward x) = []

section Lookup

variable (s : Sys) (z : Bool) (e : Endpoint) (ps out : List Packet)

@[simp] theorem act_ends_self : (s.act z e ps out).ends z = e := Function.update_self ..

@[simp] theorem act_ends_other : (s.act z e ps out).ends (!z) = s.ends (!z) :=
  Function.update_of_ne (StopAndWait.bool_not_ne z) ..

@[simp] theorem act_toward_self : (s.act z e ps out).toward z = ps :=
  (Function.update_of_ne (StopAndWait.bool_not_ne z).symm ..).trans (Function.update_self ..)

@[simp] theorem act_toward_other : (s.act z e ps out).toward (!z) = s.toward (!z) ++ out :=
  Function.update_self ..

theorem inbox_append (id : Nat) : inbox id (ps ++ out) = inbox id ps ++ inbox id out :=
  List.filter_append ..

theorem opens_append : opens (ps ++ out) = opens ps ++ opens out := List.filterMap_append ..

end Lookup

theorem start_inv : Sys.start.Inv where
  ok _ := start_ok
  opener x b i h := by simp [Sys.start, Endpoint.start, SocketLog.new] at h
  unique x b b' i h := by simp [Sys.start, Endpoint.start, SocketLog.new] at h
  streams o c h := absurd (h.lt o) (Nat.not_lt_zero _)
  waiting x a h := absurd h.lt (Nat.not_lt_zero _)
  opening x i h := by simp [Sys.start, opens] at h
  fresh x a _ := rfl

theorem self_or_not (x z : Bool) : x = z ∨ x = !z := by
  cases x <;> cases z <;> simp

/-- The socket that an endpoint connects was not made for an `A_OPEN`. -/
theorem Sys.Inv.connector {s : Sys} (h : s.Inv) {o : Bool} {c : Bool → Nat} (hj : Joined s o c) :
    ((s.ends o).log (c o)).opener = none := by
  obtain ⟨-, a, ha, -, hnone⟩ := h.opener _ _ _ hj.opener
  rw [Bool.not_not] at hnone
  rwa [Nat.succ.inj ha]

/-- A socket belongs to one stream. -/
theorem Sys.Inv.joined_unique {s : Sys} (h : s.Inv) {o o' : Bool} {c c' : Bool → Nat} {z : Bool}
    (hj : Joined s o c) (hj' : Joined s o' c') (hz : c z = c' z) : o = o' ∧ c = c' := by
  have hopener := hj.opener
  have hopener' := hj'.opener
  have hnone := h.connector hj
  have hnone' := h.connector hj'
  rcases self_or_not o' o with rfl | rfl
  · refine ⟨rfl, ?_⟩
    have hboth : c o' = c' o' ∧ c (!o') = c' (!o') := by
      rcases self_or_not z o' with rfl | rfl
      · rw [hz] at hopener
        exact ⟨hz, h.unique _ _ _ _ hopener hopener'⟩
      · rw [hz, hopener'] at hopener
        exact ⟨(Nat.succ.inj (Option.some.inj hopener)).symm, hz⟩
    funext x
    rcases self_or_not x o' with rfl | rfl
    · exact hboth.1
    · exact hboth.2
  · rw [Bool.not_not] at hopener'
    rcases self_or_not z o with rfl | rfl
    · rw [hz, hopener'] at hnone
      cases hnone
    · rw [← hz, hopener] at hnone'
      cases hnone'

/-- Sockets that wait belong to no stream. -/
theorem Sys.Inv.unanswered_ne {s : Sys} {o : Bool} {c : Bool → Nat} {x : Bool} {a : Nat}
    (hj : Joined s o c) (hu : Unanswered s x a) : a ≠ c x := by
  rintro rfl
  rcases self_or_not x o with rfl | rfl
  · exact hu.none _ hj.opener
  · have hopener := hj.opener
    rw [hu.opener] at hopener
    cases hopener

/-! ## What a step preserves -/

/-- A stream whose ends and whose packets are not touched. -/
theorem Stream.of_same {s s' : Sys} {o : Bool} {c : Bool → Nat} (h : Stream s o c)
    (hsock : ∀ x, (s'.ends x).sock (c x) = (s.ends x).sock (c x))
    (hlog : ∀ x, (s'.ends x).log (c x) = (s.ends x).log (c x))
    (hinbox : ∀ x, inbox (c x + 1) (s'.toward x) = inbox (c x + 1) (s.toward x)) :
    Stream s' o c where
  steps := by
    have hview : view s' c = view s c := by
      simp only [view, hsock, hlog, hinbox]
    rw [hview]
    exact h.steps
  peer x := by
    rw [hsock]
    exact h.peer x
  sender x := by
    rw [hinbox]
    exact h.sender x

theorem Waiting.of_same {s s' : Sys} {x : Bool} {a : Nat} (h : Waiting s x a)
    (hsock : (s'.ends x).sock a = (s.ends x).sock a) (hlog : (s'.ends x).log a = (s.ends x).log a)
    (hinbox : inbox (a + 1) (s'.toward x) = inbox (a + 1) (s.toward x))
    (hopens : (opens (s'.toward !x)).count (a + 1) = (opens (s.toward !x)).count (a + 1)) :
    Waiting s' x a := by
  have hmem : a + 1 ∉ opens (s.toward !x) → a + 1 ∉ opens (s'.toward !x) := by
    simp only [← List.count_eq_zero, hopens]
    exact fun h => h
  cases h with
  | asked h₁ h₂ h₃ h₄ => exact .asked (hsock.trans h₁) (hlog.trans h₂) (hopens.trans h₃) (hinbox.trans h₄)
  | refused h₁ h₂ h₃ => exact .refused (hsock.trans h₁) (hmem h₂) (hinbox.trans h₃)
  | dead h₁ h₂ h₃ => exact .dead (hsock.trans h₁) (hmem h₂) (hinbox.trans h₃)

/-- A step that is about one socket of a stream: `k` at the endpoint `z`, which sends packets
to the other socket only. -/
structure Touches (s : Sys) (z : Bool) (c : Bool → Nat) (e : Endpoint) (ps out : List Packet) :
    Prop where
  ok : e.Ok
  made : e.made = (s.ends z).made
  sock : ∀ a, a ≠ c z → e.sock a = (s.ends z).sock a
  log : ∀ a, a ≠ c z → e.log a = (s.ends z).log a
  opener : (e.log (c z)).opener = ((s.ends z).log (c z)).opener
  keeps : ∀ a, a ≠ c z → inbox (a + 1) ps = inbox (a + 1) (s.toward z)
  keepsOpens : opens ps = opens (s.toward z)
  sends : ∀ p ∈ out, p.opens = none ∧ p.arg1 = c (!z) + 1

section Touching

variable {s : Sys} {z : Bool} {c : Bool → Nat} {e : Endpoint} {ps out : List Packet}

theorem Touches.opener_eq (h : Touches s z c e ps out) (x : Bool) (a : Nat) :
    (((s.act z e ps out).ends x).log a).opener = ((s.ends x).log a).opener := by
  rcases self_or_not x z with rfl | rfl
  · rw [act_ends_self]
    rcases eq_or_ne a (c x) with rfl | ha
    · exact h.opener
    · rw [h.log a ha]
  · rw [act_ends_other]

theorem Touches.made_eq (h : Touches s z c e ps out) (x : Bool) :
    ((s.act z e ps out).ends x).made = (s.ends x).made := by
  rcases self_or_not x z with rfl | rfl
  · rw [act_ends_self, h.made]
  · rw [act_ends_other]

theorem Touches.sock_eq (h : Touches s z c e ps out) {x : Bool} {a : Nat} (ha : a ≠ c x) :
    ((s.act z e ps out).ends x).sock a = (s.ends x).sock a ∧
      ((s.act z e ps out).ends x).log a = (s.ends x).log a := by
  rcases self_or_not x z with rfl | rfl
  · rw [act_ends_self]
    exact ⟨h.sock a ha, h.log a ha⟩
  · rw [act_ends_other]
    exact ⟨rfl, rfl⟩

theorem Touches.inbox_eq (h : Touches s z c e ps out) {x : Bool} {a : Nat} (ha : a ≠ c x) :
    inbox (a + 1) ((s.act z e ps out).toward x) = inbox (a + 1) (s.toward x) := by
  rcases self_or_not x z with rfl | rfl
  · rw [act_toward_self]
    exact h.keeps a ha
  · have hnone : inbox (a + 1) out = [] := by
      rw [inbox, List.filter_eq_nil_iff]
      intro p hp
      obtain ⟨-, harg⟩ := h.sends p hp
      simp [harg, Ne.symm ha]
    rw [act_toward_other, inbox_append, hnone, List.append_nil]

theorem Touches.opens_eq (h : Touches s z c e ps out) (x : Bool) :
    opens ((s.act z e ps out).toward x) = opens (s.toward x) := by
  rcases self_or_not x z with rfl | rfl
  · rw [act_toward_self]
    exact h.keepsOpens
  · have hnone : opens out = [] := by
      rw [opens, List.filterMap_eq_nil_iff]
      exact fun p hp => (h.sends p hp).1
    rw [act_toward_other, opens_append, hnone, List.append_nil]

theorem Touches.joined_iff (h : Touches s z c e ps out) {o : Bool} {c' : Bool → Nat} :
    Joined (s.act z e ps out) o c' ↔ Joined s o c' := by
  constructor
  · rintro ⟨hopener, hlt⟩
    exact ⟨by rwa [h.opener_eq] at hopener, fun x => by simpa [h.made_eq] using hlt x⟩
  · rintro ⟨hopener, hlt⟩
    exact ⟨by rwa [h.opener_eq], fun x => by simpa [h.made_eq] using hlt x⟩

theorem Touches.unanswered_iff (h : Touches s z c e ps out) {x : Bool} {a : Nat} :
    Unanswered (s.act z e ps out) x a ↔ Unanswered s x a := by
  constructor
  · rintro ⟨hlt, hopener, hnone⟩
    exact ⟨by rwa [h.made_eq] at hlt, by rwa [h.opener_eq] at hopener,
      fun b => by simpa [h.opener_eq] using hnone b⟩
  · rintro ⟨hlt, hopener, hnone⟩
    exact ⟨by rwa [h.made_eq], by rwa [h.opener_eq], fun b => by simpa [h.opener_eq] using hnone b⟩

/-- Such a step preserves the invariant, if it does so where it touches something. -/
theorem Touches.inv (h : Touches s z c e ps out) (hinv : s.Inv)
    (hstreams : ∀ o' c', Joined s o' c' → ∀ x, c' x = c x → Stream (s.act z e ps out) o' c')
    (hwaiting : ∀ x, Unanswered s x (c x) → Waiting (s.act z e ps out) x (c x))
    (hfresh : ∀ x, (s.ends x).made ≤ c x →
      inbox (c x + 1) ((s.act z e ps out).toward x) = []) : (s.act z e ps out).Inv where
  ok x := by
    rcases self_or_not x z with rfl | rfl
    · rw [act_ends_self]
      exact h.ok
    · rw [act_ends_other]
      exact hinv.ok _
  opener x b i hb := by
    rw [h.opener_eq] at hb
    obtain ⟨hlt, a, hi, ha, hnone⟩ := hinv.opener x b i hb
    exact ⟨by rwa [h.made_eq], a, hi, by rwa [h.made_eq], by rwa [h.opener_eq]⟩
  unique x b b' i hb hb' := by
    rw [h.opener_eq] at hb hb'
    exact hinv.unique x b b' i hb hb'
  streams o' c' hj' := by
    have hj' := h.joined_iff.mp hj'
    by_cases hsame : ∃ x, c' x = c x
    · obtain ⟨x, hx⟩ := hsame
      exact hstreams o' c' hj' x hx
    · have hne : ∀ x, c' x ≠ c x := fun x hx => hsame ⟨x, hx⟩
      exact (hinv.streams o' c' hj').of_same (fun x => (h.sock_eq (hne x)).1)
        (fun x => (h.sock_eq (hne x)).2) fun x => h.inbox_eq (hne x)
  waiting x a hu := by
    have hu := h.unanswered_iff.mp hu
    rcases eq_or_ne a (c x) with rfl | hne
    · exact hwaiting x hu
    · exact (hinv.waiting x a hu).of_same (h.sock_eq hne).1 (h.sock_eq hne).2
        (h.inbox_eq hne) (by rw [h.opens_eq])
  opening x i hi := by
    rw [h.opens_eq] at hi
    obtain ⟨a, ha, hu⟩ := hinv.opening x i hi
    exact ⟨a, ha, h.unanswered_iff.mpr hu⟩
  fresh x a ha := by
    rw [h.made_eq] at ha
    rcases eq_or_ne a (c x) with rfl | hne
    · exact hfresh x ha
    · rw [h.inbox_eq hne]
      exact hinv.fresh x a ha

/-- The step of a socket of a stream. -/
theorem Touches.inv_of_joined (h : Touches s z c e ps out) (hinv : s.Inv) {o : Bool}
    (hj : Joined s o c) (hstream : Stream (s.act z e ps out) o c) : (s.act z e ps out).Inv := by
  refine h.inv hinv (fun o' c' hj' x hx => ?_) (fun x hu => ?_) fun x hle => ?_
  · obtain ⟨rfl, rfl⟩ := hinv.joined_unique hj' hj hx
    exact hstream
  · exact absurd rfl (Sys.Inv.unanswered_ne hj hu)
  · exact absurd (hj.lt x) (Nat.not_lt_of_le hle)

/-- The step of a socket that belongs to no stream. It sends nothing. -/
theorem Touches.inv_of_unanswered (h : Touches s z c e ps []) (hinv : s.Inv)
    (hc : c (!z) = (s.ends !z).made) (hu : Unanswered s z (c z))
    (hwaiting : Waiting (s.act z e ps []) z (c z)) : (s.act z e ps []).Inv := by
  refine h.inv hinv (fun o' c' hj' x hx => ?_) (fun x hu' => ?_) fun x hle => ?_
  · rcases self_or_not x z with rfl | rfl
    · exact absurd hx.symm (Sys.Inv.unanswered_ne hj' hu)
    · exact absurd (hx.trans hc) (hj'.lt _).ne
  · rcases self_or_not x z with rfl | rfl
    · exact hwaiting
    · exact absurd hc hu'.lt.ne
  · rcases self_or_not x z with rfl | rfl
    · exact absurd hu.lt (Nat.not_lt_of_le hle)
    · rw [act_toward_other, List.append_nil]
      exact hinv.fresh _ _ hle

end Touching

section Installing

variable {s : Sys} {z : Bool}

theorem install_sock (e : Endpoint) (sk : ASocket) (opener : Option Nat) (a : Nat) :
    (e.install sk opener).sock a = if a = e.made then some sk else e.sock a :=
  Function.update_apply ..

theorem install_log (e : Endpoint) (sk : ASocket) (opener : Option Nat) (a : Nat) :
    (e.install sk opener).log a =
      if a = e.made then { SocketLog.new with opener := opener } else e.log a :=
  Function.update_apply ..

theorem localSocketNextId_eq {e : Endpoint} (h : e.made + 1 < 2 ^ 32) :
    e.localSocketNextId = e.made + 1 := Nat.mod_eq_of_lt h

/-- The number of a socket that was not installed yet is not in use. -/
theorem Sys.Inv.opener_made (h : s.Inv) (x : Bool) (b : Nat) :
    ((s.ends !x).log b).opener ≠ some ((s.ends x).made + 1) := by
  intro hb
  obtain ⟨-, a, ha, hlt, -⟩ := h.opener _ _ _ hb
  rw [Bool.not_not] at hlt
  omega

theorem Sys.Inv.opens_made (h : s.Inv) (x : Bool) : (s.ends x).made + 1 ∉ opens (s.toward !x) := by
  intro hmem
  obtain ⟨a, ha, hu⟩ := h.opening x _ hmem
  have hlt := hu.lt
  omega

theorem Sys.Inv.log_made (h : s.Inv) (x : Bool) : (s.ends x).log (s.ends x).made = .new :=
  (h.ok x).log_new _ le_rfl

/-- `connect_to_remote` -/
theorem Sys.Inv.connect (h : s.Inv) (destination : Bytes) (hnum : (s.ends z).made + 1 < 2 ^ 32) :
    (s.act z (connectToRemote (s.ends z) destination).1 (s.toward z)
      (connectToRemote (s.ends z) destination).2).Inv := by
  set n := (s.ends z).made with hn
  have hid : (s.ends z).localSocketNextId = n + 1 := localSocketNextId_eq hnum
  let sk : ASocket := ⟨n + 1, false, none, fdeventInstall, []⟩
  have hcon : connectToRemote (s.ends z) destination =
      ((s.ends z).install sk none, [.open (n + 1) 0 (destination ++ [0])]) := by
    unfold connectToRemote
    rw [hid]
  rw [hcon]
  set s' := s.act z ((s.ends z).install sk none) (s.toward z) [.open (n + 1) 0 (destination ++ [0])]
    with hs'
  have hsock : ∀ x a, ¬(x = z ∧ a = n) →
      (s'.ends x).sock a = (s.ends x).sock a ∧ (s'.ends x).log a = (s.ends x).log a := by
    intro x a hne
    rcases self_or_not x z with rfl | rfl
    · rw [hs', act_ends_self, install_sock, install_log, if_neg fun ha => hne ⟨rfl, ha⟩,
        if_neg fun ha => hne ⟨rfl, ha⟩]
      exact ⟨rfl, rfl⟩
    · rw [hs', act_ends_other]
      exact ⟨rfl, rfl⟩
  have hopener : ∀ x a, ((s'.ends x).log a).opener = ((s.ends x).log a).opener := by
    intro x a
    by_cases hne : x = z ∧ a = n
    · obtain ⟨rfl, rfl⟩ := hne
      rw [hs', act_ends_self, install_log, if_pos hn, h.log_made]
      rfl
    · rw [(hsock x a hne).2]
  have hmade : ∀ x, (s.ends x).made ≤ (s'.ends x).made := by
    intro x
    rcases self_or_not x z with rfl | rfl
    · rw [hs', act_ends_self]
      exact Nat.le_succ _
    · rw [hs', act_ends_other]
  have hinbox : ∀ x id, inbox id (s'.toward x) = inbox id (s.toward x) := by
    intro x id
    rcases self_or_not x z with rfl | rfl
    · rw [hs', act_toward_self]
    · rw [hs', act_toward_other, inbox_append]
      simp [inbox, Packet.opens]
  have hopens : ∀ x, opens (s'.toward !x) = opens (s.toward !x) ++ if x = z then [n + 1] else [] := by
    intro x
    rcases self_or_not x z with rfl | rfl
    · rw [hs', act_toward_other, opens_append, if_pos rfl]
      rfl
    · rw [Bool.not_not, hs', act_toward_self, if_neg (StopAndWait.bool_not_ne z), List.append_nil]
  have hold : ∀ {o c}, Joined s' o c → Joined s o c := by
    rintro o c ⟨hop, hlt⟩
    rw [hopener] at hop
    obtain ⟨hb, a, ha, hlta, -⟩ := h.opener _ _ _ hop
    rw [Bool.not_not] at hlta
    refine ⟨hop, fun x => ?_⟩
    rcases self_or_not x o with rfl | rfl
    · omega
    · exact hb
  have hnone : ∀ {x a}, (∀ b, ((s'.ends !x).log b).opener ≠ some (a + 1)) ↔
      ∀ b, ((s.ends !x).log b).opener ≠ some (a + 1) := by simp [hopener]
  exact {
    ok := fun x => by
      rcases self_or_not x z with rfl | rfl
      · rw [hs', act_ends_self]
        exact (h.ok x).install (new_ok _ none) rfl hid.symm none
      · rw [hs', act_ends_other]
        exact h.ok _
    opener := fun x b i hb => by
      rw [hopener] at hb
      obtain ⟨hlt, a, hi, ha, hop⟩ := h.opener x b i hb
      exact ⟨hlt.trans_le (hmade x), a, hi, ha.trans_le (hmade _), by rwa [hopener]⟩
    unique := fun x b b' i hb hb' => by
      rw [hopener] at hb hb'
      exact h.unique x b b' i hb hb'
    streams := fun o c hj => by
      have hj₀ := hold hj
      have hne : ∀ x, ¬(x = z ∧ c x = n) := by
        rintro x ⟨rfl, hx⟩
        exact (hj₀.lt x).ne hx
      exact (h.streams o c hj₀).of_same (fun x => (hsock x _ (hne x)).1)
        (fun x => (hsock x _ (hne x)).2) fun x => hinbox x _
    waiting := fun x a hu => by
      by_cases hne : x = z ∧ a = n
      · obtain ⟨rfl, rfl⟩ := hne
        refine .asked ?_ ?_ ?_ ?_
        · rw [hs', act_ends_self, install_sock, if_pos hn]
        · rw [hs', act_ends_self, install_log, if_pos hn]
          rfl
        · rw [hopens, if_pos rfl, List.count_append, List.count_eq_zero.mpr (h.opens_made x)]
          simp
        · rw [hinbox]
          exact h.fresh x _ le_rfl
      · have hlt : a < (s.ends x).made := by
          have hlt := hu.lt
          rcases self_or_not x z with rfl | rfl
          · rw [hs', act_ends_self] at hlt
            exact Nat.lt_of_le_of_ne (Nat.le_of_lt_succ hlt) fun ha => hne ⟨rfl, ha⟩
          · rwa [hs', act_ends_other] at hlt
        have hu : Unanswered s x a := ⟨hlt, by rw [← hopener]; exact hu.opener, hnone.mp hu.none⟩
        refine (h.waiting x a hu).of_same (hsock x a hne).1 (hsock x a hne).2 (hinbox x _) ?_
        rw [hopens]
        split_ifs with hx
        · have ha : n ≠ a := fun ha => hne ⟨hx, ha.symm⟩
          simp [ha]
        · rw [List.append_nil]
    opening := fun x i hi => by
      rw [hopens] at hi
      rcases List.mem_append.mp hi with hi | hi
      · obtain ⟨a, ha, hu⟩ := h.opening x i hi
        exact ⟨a, ha, hu.lt.trans_le (hmade x), by rw [hopener]; exact hu.opener, hnone.mpr hu.none⟩
      · split_ifs at hi with hx
        · obtain rfl : i = n + 1 := by simpa using hi
          subst hx
          refine ⟨n, rfl, ?_, ?_, hnone.mpr (h.opener_made x)⟩
          · rw [hs', act_ends_self]
            exact Nat.lt_succ_self _
          · rw [hopener, h.log_made]
            rfl
        · cases hi
    fresh := fun x a ha => by
      rw [hinbox]
      exact h.fresh x a ((hmade x).trans ha) }

/-- What the endpoint knows about a socket for which `A_OPEN` comes. -/
theorem Sys.Inv.asked (h : s.Inv) {i arg1 : Nat} {data : Bytes} {rest : List Packet}
    (hin : s.toward z = .open i arg1 data :: rest) : ∃ a, i = a + 1 ∧ Unanswered s (!z) a ∧
      (s.ends !z).sock a = some ⟨a + 1, false, none, fdeventInstall, []⟩ ∧
      (s.ends !z).log a = .new ∧ inbox (a + 1) (s.toward !z) = [] ∧ a + 1 ∉ opens rest := by
  have hmem : i ∈ opens (s.toward !!z) := by
    rw [Bool.not_not, hin]
    simp [opens, Packet.opens]
  obtain ⟨a, rfl, hu⟩ := h.opening (!z) i hmem
  refine ⟨a, rfl, hu, ?_⟩
  cases h.waiting (!z) a hu with
  | asked hsock hlog hopens hinbox =>
    refine ⟨hsock, hlog, hinbox, ?_⟩
    rw [Bool.not_not, hin] at hopens
    have hcount : opens (.open (a + 1) arg1 data :: rest) = (a + 1) :: opens rest := rfl
    rw [hcount, List.count_cons_self] at hopens
    exact List.count_eq_zero.mp (Nat.succ.inj hopens)
  | refused _ hopens _ => exact absurd hmem hopens
  | dead _ hopens _ => exact absurd hmem hopens

theorem inbox_open (id i arg1 : Nat) (data : Bytes) (rest : List Packet) :
    inbox id (.open i arg1 data :: rest) = inbox id rest := by
  simp [inbox, Packet.opens]

theorem count_opens_open {i j : Nat} (h : j ≠ i) (arg1 : Nat) (data : Bytes) (rest : List Packet) :
    (opens (.open i arg1 data :: rest)).count j = (opens rest).count j := by
  rw [show opens (.open i arg1 data :: rest) = i :: opens rest from rfl, List.count_cons_of_ne h.symm]

section Answer

variable {i arg1 : Nat} {data : Bytes} {rest : List Packet} {p : Packet}

/-- The answer to `A_OPEN` goes to the socket that asked. -/
theorem inbox_answer (hin : s.toward z = .open i arg1 data :: rest) (harg : p.arg1 = i)
    (e : Endpoint) {x : Bool} {id : Nat} (hne : ¬(x = (!z) ∧ id = i)) :
    inbox id ((s.act z e rest [p]).toward x) = inbox id (s.toward x) := by
  rcases self_or_not x z with rfl | rfl
  · rw [act_toward_self, hin, inbox_open]
  · have hid : i ≠ id := fun hid => hne ⟨rfl, hid.symm⟩
    rw [act_toward_other, inbox_append]
    simp [inbox, harg, hid]

theorem count_opens_answer (hin : s.toward z = .open i arg1 data :: rest) (hp : p.opens = none)
    (e : Endpoint) {x : Bool} {j : Nat} (hne : ¬(x = (!z) ∧ j = i)) :
    (opens ((s.act z e rest [p]).toward !x)).count j = (opens (s.toward !x)).count j := by
  rcases self_or_not x z with rfl | rfl
  · have hnone : opens [p] = [] := by simp [opens, hp]
    rw [act_toward_other, opens_append, hnone, List.append_nil]
  · have hj : j ≠ i := fun hj => hne ⟨rfl, hj⟩
    rw [Bool.not_not, act_toward_self, hin, count_opens_open hj]

end Answer

/-- `A_OPEN` for a service that there is not -/
theorem Sys.Inv.refuse (h : s.Inv) {i arg1 : Nat} {data : Bytes} {rest : List Packet}
    (hin : s.toward z = .open i arg1 data :: rest) :
    (s.act z (s.ends z) rest [.clse 0 i]).Inv := by
  obtain ⟨a, rfl, hu, hsock, hlog, hnone, hrest⟩ := h.asked hin
  set s' := s.act z (s.ends z) rest [.clse 0 (a + 1)] with hs'
  have hends : s'.ends = s.ends := by
    rw [hs', Sys.act]
    exact Function.update_eq_self z s.ends
  have hunanswered : ∀ {x b}, Unanswered s' x b ↔ Unanswered s x b := by
    intro x b
    constructor
    · rintro ⟨h₁, h₂, h₃⟩
      exact ⟨by rwa [hends] at h₁, by rwa [hends] at h₂, by rwa [hends] at h₃⟩
    · rintro ⟨h₁, h₂, h₃⟩
      exact ⟨by rwa [hends], by rwa [hends], by rwa [hends]⟩
  exact {
    ok := fun x => by
      rw [hends]
      exact h.ok x
    opener := by
      rw [hends]
      exact h.opener
    unique := by
      rw [hends]
      exact h.unique
    streams := fun o c hj => by
      have hj₀ : Joined s o c := ⟨by rw [← hends]; exact hj.opener, by rw [← hends]; exact hj.lt⟩
      have hne : ∀ x, ¬(x = (!z) ∧ c x + 1 = a + 1) := by
        rintro x ⟨rfl, hx⟩
        exact Sys.Inv.unanswered_ne hj₀ hu (Nat.succ.inj hx).symm
      exact (h.streams o c hj₀).of_same (fun x => by rw [hends]) (fun x => by rw [hends])
        fun x => inbox_answer hin rfl _ (hne x)
    waiting := fun x b hu' => by
      by_cases hne : x = (!z) ∧ b = a
      · obtain ⟨rfl, rfl⟩ := hne
        refine .refused ?_ ?_ ?_
        · rw [hends, hsock]
        · rwa [Bool.not_not, hs', act_toward_self]
        · rw [hs', act_toward_other, inbox_append, hnone]
          simp [inbox, Packet.opens, Packet.arg1]
      · have hne' : ¬(x = (!z) ∧ b + 1 = a + 1) := by simpa using hne
        exact (h.waiting x b (hunanswered.mp hu')).of_same (by rw [hends]) (by rw [hends])
          (inbox_answer hin rfl _ hne') (count_opens_answer (p := .clse 0 (a + 1)) hin rfl _ hne')
    opening := fun x j hj => by
      have hne : ¬(x = (!z) ∧ j = a + 1) := by
        rintro ⟨rfl, rfl⟩
        rw [Bool.not_not, hs', act_toward_self] at hj
        exact hrest hj
      have hmem : j ∈ opens (s.toward !x) := by
        rw [← List.count_pos_iff, ← count_opens_answer (p := .clse 0 (a + 1)) hin rfl _ hne,
          List.count_pos_iff]
        exact hj
      obtain ⟨b, hb, hu'⟩ := h.opening x j hmem
      exact ⟨b, hb, hunanswered.mpr hu'⟩
    fresh := fun x b hb => by
      rw [hends] at hb
      have hne : ¬(x = (!z) ∧ b + 1 = a + 1) := by
        rintro ⟨rfl, hab⟩
        have hlt := hu.lt
        omega
      rw [inbox_answer hin rfl _ hne]
      exact h.fresh x b hb }

/-- The stream that begins when `A_OPEN` is answered. -/
theorem answered_stream {a n arg1 : Nat} {data : Bytes} {rest : List Packet} {c : Bool → Nat}
    (ha : c (!z) = a) (hn : c z = n)
    (hsock : (s.ends !z).sock a = some ⟨a + 1, false, none, fdeventInstall, []⟩)
    (hlog : (s.ends !z).log a = .new) (hnone : inbox (a + 1) (s.toward !z) = [])
    (hin : s.toward z = .open (a + 1) arg1 data :: rest)
    (hfresh : inbox (n + 1) (s.toward z) = []) {e : Endpoint}
    (hnew : e.sock n = some ⟨n + 1, false, some (a + 1), fdeventAddRead fdeventInstall, []⟩)
    (hnewlog : e.log n = { SocketLog.new with opener := some (a + 1) }) :
    Stream (s.act z e rest [.okay (n + 1) (a + 1)]) (!z) c := by
  have hrest : inbox (n + 1) rest = [] := by
    rw [hin, inbox_open] at hfresh
    exact hfresh
  have hin' : inbox (a + 1) ((s.act z e rest [.okay (n + 1) (a + 1)]).toward !z) =
      [.okay (n + 1) (a + 1)] := by
    rw [act_toward_other, inbox_append, hnone]
    simp [inbox, Packet.opens, Packet.arg1]
  have hview : view (s.act z e rest [.okay (n + 1) (a + 1)]) c = Link.start (!z) := by
    have hparty : (view (s.act z e rest [.okay (n + 1) (a + 1)]) c).party =
        (Link.start (α := UInt8) !z).party := by
      funext x
      rcases self_or_not x z with rfl | rfl
      · simp [view, Link.start, hn, hnew, hnewlog, partyOf, fdeventAddRead, fdeventSet,
          fdeventInstall, SocketLog.new]
      · simp [view, Link.start, ha, hsock, hlog, partyOf, fdeventInstall, SocketLog.new]
    have htoward : (view (s.act z e rest [.okay (n + 1) (a + 1)]) c).toward =
        (Link.start (α := UInt8) !z).toward := by
      funext x
      rcases self_or_not x z with rfl | rfl
      · simp [view, Link.start, hn, hrest]
      · have hmsg : [Packet.okay (n + 1) (a + 1)].filterMap Packet.kind = [.ack] := rfl
        simp only [view, Link.start, ha, hin', hmsg, if_pos]
    rw [show view (s.act z e rest [.okay (n + 1) (a + 1)]) c =
      ⟨(view (s.act z e rest [.okay (n + 1) (a + 1)]) c).party,
        (view (s.act z e rest [.okay (n + 1) (a + 1)]) c).toward⟩ from rfl, hparty, htoward]
  refine ⟨?_, fun x sk hsk hopen => ?_, fun x p hp i hi => ?_⟩
  · rw [hview]
  · rcases self_or_not x z with rfl | rfl
    · rw [act_ends_self, hn, hnew] at hsk
      cases hsk
      exact .inl (by rw [ha])
    · rw [act_ends_other, ha, hsock] at hsk
      cases hsk
      exact .inr ⟨rfl, rfl⟩
  · rcases self_or_not x z with rfl | rfl
    · rw [act_toward_self, hn, hrest] at hp
      cases hp
    · rw [ha, hin', List.mem_singleton] at hp
      subst hp
      rw [Bool.not_not, hn]
      exact (Option.some.inj hi).symm

/-- `A_OPEN` for a service that there is -/
theorem Sys.Inv.accept (h : s.Inv) {i arg1 : Nat} {data : Bytes} {rest : List Packet}
    (hin : s.toward z = .open i arg1 data :: rest) (hnum : (s.ends z).made + 1 < 2 ^ 32) :
    (s.act z ((s.ends z).install ⟨(s.ends z).localSocketNextId, false, some i,
      fdeventAddRead fdeventInstall, []⟩ (some i)) rest
      [.okay (s.ends z).localSocketNextId i]).Inv := by
  obtain ⟨a, rfl, hu, hsock, hlog, hnone, hrest⟩ := h.asked hin
  set n := (s.ends z).made with hn
  have hid : (s.ends z).localSocketNextId = n + 1 := localSocketNextId_eq hnum
  rw [hid]
  let sk : ASocket := ⟨n + 1, false, some (a + 1), fdeventAddRead fdeventInstall, []⟩
  set s' := s.act z ((s.ends z).install sk (some (a + 1))) rest [.okay (n + 1) (a + 1)] with hs'
  have hother : ∀ x b, ¬(x = z ∧ b = n) →
      (s'.ends x).sock b = (s.ends x).sock b ∧ (s'.ends x).log b = (s.ends x).log b := by
    intro x b hne
    rcases self_or_not x z with rfl | rfl
    · rw [hs', act_ends_self, install_sock, install_log, if_neg fun ha => hne ⟨rfl, ha⟩,
        if_neg fun ha => hne ⟨rfl, ha⟩]
      exact ⟨rfl, rfl⟩
    · rw [hs', act_ends_other]
      exact ⟨rfl, rfl⟩
  have hnew : (s'.ends z).sock n = some sk ∧
      (s'.ends z).log n = { SocketLog.new with opener := some (a + 1) } := by
    rw [hs', act_ends_self, install_sock, install_log, if_pos hn, if_pos hn]
    exact ⟨rfl, rfl⟩
  have hmade : (s'.ends z).made = n + 1 ∧ (s'.ends !z).made = (s.ends !z).made := by
    rw [hs', act_ends_self, act_ends_other]
    exact ⟨rfl, rfl⟩
  have hmono : ∀ x, (s.ends x).made ≤ (s'.ends x).made := by
    intro x
    rcases self_or_not x z with rfl | rfl
    · rw [hmade.1]
      exact Nat.le_succ _
    · rw [hmade.2]
  have hopener : ∀ x b, ((s'.ends x).log b).opener =
      if x = z ∧ b = n then some (a + 1) else ((s.ends x).log b).opener := by
    intro x b
    split_ifs with hb
    · obtain ⟨rfl, rfl⟩ := hb
      rw [hnew.2]
    · rw [(hother x b hb).2]
  have hfree : ∀ b i, ((s.ends z).log b).opener = some i → i ≠ a + 1 := by
    intro b i hb hi
    have hnone := hu.none b
    rw [Bool.not_not] at hnone
    exact hnone (hi ▸ hb)
  exact {
    ok := fun x => by
      rcases self_or_not x z with rfl | rfl
      · rw [hs', act_ends_self]
        exact (h.ok x).install ((new_ok _ (some (a + 1))).ready rfl) rfl hid.symm _
      · rw [hs', act_ends_other]
        exact h.ok _
    opener := fun x b i hb => by
      rw [hopener] at hb
      split_ifs at hb with hxb
      · obtain ⟨rfl, rfl⟩ := hxb
        obtain rfl : a + 1 = i := Option.some.inj hb
        refine ⟨by rw [hmade.1]; exact Nat.lt_succ_self _, a, rfl, by rw [hmade.2]; exact hu.lt, ?_⟩
        rw [(hother (!x) a fun hx => StopAndWait.bool_not_ne x hx.1).2]
        exact hu.opener
      · obtain ⟨hlt, a', hi, ha', hnone'⟩ := h.opener x b i hb
        refine ⟨hlt.trans_le (hmono x), a', hi, ha'.trans_le (hmono _), ?_⟩
        rw [hopener, if_neg ?_]
        · exact hnone'
        · rintro ⟨hx, rfl⟩
          rw [hx] at ha'
          exact ha'.ne hn
    unique := fun x b b' i hb hb' => by
      rw [hopener] at hb hb'
      split_ifs at hb hb' with h₁ h₂ h₂
      · rw [h₁.2, h₂.2]
      · obtain ⟨rfl, -⟩ := h₁
        exact absurd (Option.some.inj hb).symm (hfree b' i hb')
      · obtain ⟨rfl, -⟩ := h₂
        exact absurd (Option.some.inj hb').symm (hfree b i hb)
      · exact h.unique x b b' i hb hb'
    streams := fun o c hj => by
      have hop := hj.opener
      rw [hopener] at hop
      split_ifs at hop with hco
      · obtain ⟨ho, hc⟩ := hco
        obtain rfl : o = !z := by rw [← ho, Bool.not_not]
        have hca : c (!z) = a := (Nat.succ.inj (Option.some.inj hop)).symm
        rw [Bool.not_not] at hc
        rw [hs', act_ends_self] at hnew
        exact answered_stream hca hc hsock hlog hnone hin (h.fresh z n hn.ge) hnew.1 hnew.2
      · obtain ⟨hb, a', ha', hlta', -⟩ := h.opener _ _ _ hop
        rw [Bool.not_not] at hlta'
        have hj₀ : Joined s o c := by
          refine ⟨hop, fun x => ?_⟩
          rcases self_or_not x o with rfl | rfl
          · omega
          · exact hb
        have hne : ∀ x, ¬(x = z ∧ c x = n) := by
          rintro x ⟨rfl, hx⟩
          exact (hj₀.lt x).ne hx
        have hne' : ∀ x, ¬(x = (!z) ∧ c x + 1 = a + 1) := by
          rintro x ⟨rfl, hx⟩
          exact Sys.Inv.unanswered_ne hj₀ hu (Nat.succ.inj hx).symm
        exact (h.streams o c hj₀).of_same (fun x => (hother x _ (hne x)).1)
          (fun x => (hother x _ (hne x)).2) fun x => inbox_answer hin rfl _ (hne' x)
    waiting := fun x b hu' => by
      have hold : ¬(x = z ∧ b = n) := by
        intro hxb
        have hop := hu'.opener
        rw [hopener, if_pos hxb] at hop
        cases hop
      have hne : ¬(x = (!z) ∧ b + 1 = a + 1) := by
        rintro ⟨rfl, hab⟩
        refine hu'.none n ?_
        rw [hopener, if_pos ⟨Bool.not_not z, rfl⟩, hab]
      have hlt : b < (s.ends x).made := by
        have hlt := hu'.lt
        rcases self_or_not x z with rfl | rfl
        · rw [hmade.1] at hlt
          exact Nat.lt_of_le_of_ne (Nat.le_of_lt_succ hlt) fun hb => hold ⟨rfl, hb⟩
        · rwa [hmade.2] at hlt
      have hu₀ : Unanswered s x b := by
        refine ⟨hlt, ?_, fun b' hb' => ?_⟩
        · have hop := hu'.opener
          rwa [hopener, if_neg hold] at hop
        · refine hu'.none b' ?_
          have hlt' := (h.opener _ _ _ hb').1
          rw [hopener, if_neg ?_]
          · exact hb'
          · rintro ⟨hx, rfl⟩
            rw [hx] at hlt'
            exact hlt'.ne hn
      exact (h.waiting x b hu₀).of_same (hother x b hold).1 (hother x b hold).2
        (inbox_answer hin rfl _ hne) (count_opens_answer (p := .okay (n + 1) (a + 1)) hin rfl _ hne)
    opening := fun x j hj => by
      have hne : ¬(x = (!z) ∧ j = a + 1) := by
        rintro ⟨rfl, rfl⟩
        rw [Bool.not_not, hs', act_toward_self] at hj
        exact hrest hj
      have hmem : j ∈ opens (s.toward !x) := by
        rw [← List.count_pos_iff, ← count_opens_answer (p := .okay (n + 1) (a + 1)) hin rfl _ hne,
          List.count_pos_iff]
        exact hj
      obtain ⟨b, rfl, hu'⟩ := h.opening x j hmem
      refine ⟨b, rfl, hu'.lt.trans_le (hmono x), ?_, fun b' => ?_⟩
      · rw [hopener, if_neg ?_]
        · exact hu'.opener
        · rintro ⟨rfl, hb⟩
          exact hu'.lt.ne (hb.trans hn)
      · rw [hopener]
        split_ifs with hb'
        · intro hab
          refine hne ⟨?_, (Option.some.inj hab).symm⟩
          rw [← hb'.1, Bool.not_not]
        · exact hu'.none b'
    fresh := fun x b hb => by
      have hne : ¬(x = (!z) ∧ b + 1 = a + 1) := by
        rintro ⟨rfl, hab⟩
        have hlt := hu.lt
        rw [hmade.2] at hb
        omega
      rw [inbox_answer hin rfl _ hne]
      exact h.fresh x b ((hmono x).trans hb) }

end Installing

/-! ## The steps of a stream -/

section Steps

variable {s : Sys} {z o : Bool} {c : Bool → Nat} {e : Endpoint} {ps out : List Packet} {p : Packet}

theorem inbox_self {id : Nat} (h : ∀ p ∈ out, p.opens = none ∧ p.arg1 = id) : inbox id out = out :=
  List.filter_eq_self.mpr fun p hp => decide_eq_true (h p hp)

theorem view_act (hout : ∀ p ∈ out, p.opens = none ∧ p.arg1 = c (!z) + 1) :
    view (s.act z e (s.toward z) out) c = ((view s c).set z
      (partyOf (e.sock (c z)) (e.log (c z)))).push (!z) (out.filterMap Packet.kind) := by
  ext x : 2
  · rcases self_or_not x z with rfl | rfl
    · simp [view]
    · simp [view]
  · rcases self_or_not x z with rfl | rfl
    · simp [view]
    · simp [view, inbox_append, inbox_self hout]

theorem view_act_pop (hin : s.toward z = p :: ps) (hp : p.opens = none) (harg : p.arg1 = c z + 1)
    {m : Msg UInt8} (hkind : p.kind = some m)
    (hout : ∀ p ∈ out, p.opens = none ∧ p.arg1 = c (!z) + 1) :
    view (s.act z e ps out) c = (((view s c).pop z).set z
      (partyOf (e.sock (c z)) (e.log (c z)))).push (!z) (out.filterMap Packet.kind) := by
  have htail : (view s c).toward z = m :: (inbox (c z + 1) ps).filterMap Packet.kind := by
    simp [view, hin, inbox, hp, harg, hkind]
  ext x : 2
  · rcases self_or_not x z with rfl | rfl
    · simp [view]
    · simp [view]
  · rcases self_or_not x z with rfl | rfl
    · simp only [StopAndWait.toward_push_not, StopAndWait.toward_set, StopAndWait.toward_pop_self,
        htail, List.tail_cons]
      simp [view]
    · simp [view, inbox_append, inbox_self hout]

theorem Stream.inv (h : Stream s o c) : StopAndWait.Inv (view s c) :=
  h.steps.inv (StopAndWait.inv_start o)

/-- A socket that waits for the first `A_OKAY` has no event and nothing in its queue. -/
theorem Stream.opening (h : Stream s o c) {sk : ASocket} (hsk : (s.ends z).sock (c z) = some sk)
    (hopen : sk.closing = false) (hpeer : sk.peer = none) :
    sk.fde.read = false ∧ sk.fde.write = false ∧ ∃ rest, (view s c).toward z = .ack :: rest := by
  have hparty : (view s c).party z = partyOf (some sk) ((s.ends z).log (c z)) := by simp [view, hsk]
  rw [partyOf_opening hopen hpeer] at hparty
  have hall := h.inv.opening (x := z) (by rw [hparty])
  rw [hparty] at hall
  exact hall

theorem Sys.Inv.touch (h : s.Inv) (hj : Joined s o c) (ht : Touches s z c e ps out)
    (hsub : ∀ p ∈ ps, p ∈ s.toward z)
    (hpeer : ∀ sk ∈ e.sock (c z), sk.closing = false →
      sk.peer = some (c (!z) + 1) ∨ z = o ∧ sk.peer = none)
    (hsender : ∀ p ∈ out, ∀ i ∈ p.sender, i = c z + 1)
    (hsteps : Steps (view s c) (view (s.act z e ps out) c)) : (s.act z e ps out).Inv := by
  have hstream := h.streams o c hj
  refine ht.inv_of_joined h hj ⟨hstream.steps.trans hsteps, fun x sk hsk hopen => ?_,
    fun x p hp i hi => ?_⟩
  · rcases self_or_not x z with rfl | rfl
    · rw [act_ends_self] at hsk
      exact hpeer sk hsk hopen
    · rw [act_ends_other] at hsk
      exact hstream.peer _ sk hsk hopen
  · rcases self_or_not x z with rfl | rfl
    · rw [act_toward_self] at hp
      obtain ⟨hmem, hid⟩ := List.mem_filter.mp hp
      exact hstream.sender x p (List.mem_filter.mpr ⟨hsub p hmem, hid⟩) i hi
    · rw [act_toward_other, inbox_append] at hp
      rcases List.mem_append.mp hp with hp | hp
      · exact hstream.sender _ p hp i hi
      · rw [Bool.not_not]
        exact hsender p (List.mem_filter.mp hp).1 i hi

/-- Every socket that was made belongs to a stream or waits. -/
theorem Sys.Inv.place (h : s.Inv) {k : Nat} (hk : k < (s.ends z).made) :
    Unanswered s z k ∨ ∃ o c, Joined s o c ∧ c z = k := by
  cases hop : ((s.ends z).log k).opener with
  | some i =>
    obtain ⟨-, a, rfl, ha, -⟩ := h.opener z k i hop
    refine .inr ⟨!z, fun x => if x = z then k else a, ⟨?_, fun x => ?_⟩, if_pos rfl⟩
    · simpa [StopAndWait.bool_not_ne] using hop
    · rcases self_or_not x z with rfl | rfl
      · simpa using hk
      · simpa [StopAndWait.bool_not_ne] using ha
  | none =>
    by_cases hanswered : ∃ b, ((s.ends !z).log b).opener = some (k + 1)
    · obtain ⟨b, hb⟩ := hanswered
      refine .inr ⟨z, fun x => if x = z then k else b, ⟨?_, fun x => ?_⟩, if_pos rfl⟩
      · simpa [StopAndWait.bool_not_ne] using hb
      · rcases self_or_not x z with rfl | rfl
        · simpa using hk
        · simpa [StopAndWait.bool_not_ne] using (h.opener _ b _ hb).1
    · exact .inl ⟨hk, hop, fun b hb => hanswered ⟨b, hb⟩⟩

/-- The identifier of an open socket is its number. -/
theorem Endpoint.Ok.id_eq {e : Endpoint} (h : e.Ok) (hnum : e.made < 2 ^ 32) {a : Nat} {sk : ASocket}
    (hsk : e.sock a = some sk) (hopen : sk.closing = false) : sk.id = a + 1 := by
  have hlt := h.lt a sk hsk
  rw [h.id a sk hsk hopen, Nat.mod_eq_of_lt (by omega)]

/-- What a socket of a stream sends goes to the other end, under its own name. -/
theorem Sys.Inv.sends (h : s.Inv) (hnum : (s.ends z).made < 2 ^ 32) (hj : Joined s o c) {sk : ASocket}
    (hsk : (s.ends z).sock (c z) = some sk) {r : Effect} (hnames : Names sk r) :
    ∀ p ∈ r.out, p.opens = none ∧ p.arg1 = c (!z) + 1 ∧ ∀ i ∈ p.sender, i = c z + 1 := by
  intro p hp
  obtain ⟨hopens, hpeer, hsender⟩ := hnames.out p hp
  have hopen : sk.closing = false := by
    cases hclosing : sk.closing with
    | false => rfl
    | true => simp [((h.ok z).ok _ sk hsk).closing hclosing] at hpeer
  rw [(h.ok z).id_eq hnum hsk hopen] at hsender
  refine ⟨hopens, ?_, hsender⟩
  rcases (h.streams o c hj).peer z sk hsk hopen with hp' | ⟨-, hp'⟩
  · rw [hpeer] at hp'
    exact Option.some.inj hp'
  · rw [hpeer] at hp'
    cases hp'

theorem keeps_tail (hin : s.toward z = p :: ps) (hp : p.opens = none) (harg : p.arg1 = c z + 1) :
    (∀ a, a ≠ c z → inbox (a + 1) ps = inbox (a + 1) (s.toward z)) ∧
      opens ps = opens (s.toward z) := by
  rw [hin]
  constructor
  · intro a ha
    simp [inbox, harg, Ne.symm ha]
  · simp [opens, hp]

/-- A call of a socket of a stream preserves the invariant, if it is steps of the link. -/
theorem Sys.Inv.put (h : s.Inv) (hj : Joined s o c) {sk : ASocket}
    (hsk : (s.ends z).sock (c z) = some sk) {r : Effect} (hkeeps : sk.Keeps r.sock)
    (hpeer : ∀ sk' ∈ r.sock, sk'.closing = false →
      sk'.peer = some (c (!z) + 1) ∨ z = o ∧ sk'.peer = none)
    (hout : ∀ p ∈ out, p.opens = none ∧ p.arg1 = c (!z) + 1 ∧ ∀ i ∈ p.sender, i = c z + 1)
    (hps : (∀ a, a ≠ c z → inbox (a + 1) ps = inbox (a + 1) (s.toward z)) ∧
      opens ps = opens (s.toward z)) (hsub : ∀ p ∈ ps, p ∈ s.toward z)
    (hsteps : Steps (view s c) (view (s.act z ((s.ends z).put (c z) r) ps out) c)) :
    (s.act z ((s.ends z).put (c z) r) ps out).Inv := by
  have ht : Touches s z c ((s.ends z).put (c z) r) ps out := {
    ok := (h.ok z).put hsk hkeeps
    made := rfl
    sock := fun a ha => put_sock_of_ne ha _ _
    log := fun a ha => put_log_of_ne ha _ _
    opener := by
      rw [put_log_self]
      rfl
    keeps := hps.1
    keepsOpens := hps.2
    sends := fun p hp => ⟨(hout p hp).1, (hout p hp).2.1⟩ }
  refine h.touch hj ht hsub ?_ (fun p hp => (hout p hp).2.2) hsteps
  rw [put_sock_self]
  exact hpeer

theorem act_same : s.act z (s.ends z) (s.toward z) [] = s := by
  simp [Sys.act]

/-- A socket that waits has not changed since it was made. -/
theorem Sys.Inv.waiting_sock (h : s.Inv) {a : Nat} {sk : ASocket} (hu : Unanswered s z a)
    (hsk : (s.ends z).sock a = some sk) : sk = ⟨a + 1, false, none, fdeventInstall, []⟩ := by
  cases h.waiting z a hu with
  | asked hsock _ _ _ => exact Option.some.inj (hsk.symm.trans hsock)
  | refused hsock _ _ => exact Option.some.inj (hsk.symm.trans hsock)
  | dead hsock _ _ =>
    rw [hsock] at hsk
    cases hsk

theorem put_keep {e : Endpoint} {a : Nat} {sk : ASocket} (hsk : e.sock a = some sk)
    (hopen : sk.closing = false) : e.put a (.keep sk) = e := by
  have hsock : Function.update e.sock a (some sk) = e.sock := hsk ▸ Function.update_eq_self a e.sock
  have hlog : Function.update e.log a (e.log a) = e.log := Function.update_eq_self a e.log
  unfold Endpoint.put
  rw [SocketLog.add_keep, hlog]
  simp [Effect.keep, hopen, hsock]

theorem Sys.Inv.select (h : s.Inv) {a : Nat} {read write : Bool}
    (hstep : step (s.ends z) (.select a read write) = .done (e, out)) :
    (s.act z e (s.toward z) out).Inv := by
  cases hsk : (s.ends z).sock a with
  | none =>
    simp only [step, hsk, Outcome.done.injEq, Prod.mk.injEq] at hstep
    obtain ⟨rfl, rfl⟩ := hstep
    rw [act_same]
    exact h
  | some sk =>
    simp only [step, hsk, Outcome.done.injEq, Prod.mk.injEq] at hstep
    obtain ⟨rfl, rfl⟩ := hstep
    rcases h.place ((h.ok z).lt a sk hsk) with hu | ⟨o, c, hj, rfl⟩
    · have hnew := h.waiting_sock hu hsk
      have hsame : ({ sk with fde := fdeventSelect sk.fde read write } : ASocket) = sk := by
        rw [hnew]
        simp [fdeventSelect, fdeventInstall]
      rw [hsame, put_keep hsk (by rw [hnew]), act_same]
      exact h
    · have hstream := h.streams o c hj
      refine h.put hj hsk (fdeventSelect_keeps ((h.ok z).ok _ sk hsk) read write) ?_ (by simp)
        ⟨fun _ _ => rfl, rfl⟩ (fun _ hp => hp) ?_
      · intro sk' hsk' hopen
        cases hsk'
        exact hstream.peer z sk hsk hopen
      · rw [view_act (by simp), put_sock_self, put_log_self, SocketLog.add_keep]
        have hparty : partyOf (some { sk with fde := fdeventSelect sk.fde read write })
            ((s.ends z).log (c z)) = (view s c).party z := by
          simp only [view, hsk]
          rfl
        rw [Effect.keep, hparty]
        simpa using Relation.ReflTransGen.refl

theorem Sys.Inv.call (h : s.Inv) (hnum : (s.ends z).made < 2 ^ 32) {a : Nat} {ws : List WriteAns}
    {rs : List ReadAns} (hstep : step (s.ends z) (.call a ws rs) = .done (e, out)) :
    (s.act z e (s.toward z) out).Inv := by
  cases hsk : (s.ends z).sock a with
  | none =>
    simp only [step, hsk, Outcome.done.injEq, Prod.mk.injEq] at hstep
    obtain ⟨rfl, rfl⟩ := hstep
    rw [act_same]
    exact h
  | some sk =>
    cases hev : sk.fde.evRead || sk.fde.evWrite with
    | false =>
      simp only [step, hsk, hev, Bool.false_eq_true, if_false, Outcome.done.injEq,
        Prod.mk.injEq] at hstep
      obtain ⟨rfl, rfl⟩ := hstep
      rw [act_same]
      exact h
    | true =>
      simp only [step, hsk, hev, if_true] at hstep
      obtain ⟨r, hr, hput⟩ := Outcome.bind_eq_done.mp hstep
      obtain ⟨rfl, rfl⟩ := Prod.mk.inj (Outcome.done.inj hput)
      have hok := (h.ok z).ok a sk hsk
      rcases h.place ((h.ok z).lt a sk hsk) with hu | ⟨o, c, hj, rfl⟩
      · have hnew := h.waiting_sock hu hsk
        rw [hnew] at hev
        cases hev
      · have hstream := h.streams o c hj
        have hopening : sk.fde.evRead = true ∨ sk.fde.evWrite = true → sk.closing = false →
            sk.peer.isSome := by
          intro hevs hopen
          cases hpeer : sk.peer with
          | some r => rfl
          | none =>
            obtain ⟨hread, hwrite, -⟩ := hstream.opening hsk hopen hpeer
            rcases hevs with hevr | hevw
            · rw [hok.evRead hopen hevr] at hread
              cases hread
            · rw [hok.evWrite hevw] at hwrite
              cases hwrite
        obtain ⟨r', hr', hkeeps⟩ := fdeventCallFdfunc_keeps hok (fun hevw => hopening (.inr hevw)) ws rs
        obtain rfl : r' = r := Outcome.done.inj (hr'.symm.trans hr)
        have hnames := names_call hr
        have hsends := h.sends hnum hj hsk hnames
        refine h.put hj hsk hkeeps ?_ hsends ⟨fun _ _ => rfl, rfl⟩ (fun _ hp => hp) ?_
        · intro sk' hsk' hopen
          rw [hnames.same sk' hsk' hopen]
          exact hstream.peer z sk hsk (hkeeps.opened sk' hsk' hopen).1
        · rw [view_act fun p hp => ⟨(hsends p hp).1, (hsends p hp).2.1⟩, put_sock_self, put_log_self]
          exact simulates_call hok hopening hr (view s c) z _ (by simp [view, hsk])

/-- What `find_local_socket` does not find is not open. -/
theorem Endpoint.Ok.find_none {e : Endpoint} (h : e.Ok) {id a : Nat} {sk : ASocket}
    (hfind : e.findLocalSocket id = none) (hsk : e.sock a = some sk) (hopen : sk.closing = false) :
    sk.id ≠ id := by
  intro hid
  have hmem : a ∈ e.socks := (h.mem_socks a).mpr ⟨sk, hsk, hopen⟩
  have hnone := List.findSome?_eq_none_iff.mp hfind a hmem
  simp [hsk, hid] at hnone

/-- The packets for a socket that is not open have no effect. -/
theorem Sys.Inv.drop (h : s.Inv) (hnum : (s.ends z).made < 2 ^ 32) (hin : s.toward z = p :: ps)
    (hp : p.opens = none) {m : Msg UInt8} (hkind : p.kind = some m)
    (hfind : (s.ends z).findLocalSocket p.arg1 = none) : (s.act z (s.ends z) ps []).Inv := by
  have hsub : ∀ q ∈ ps, q ∈ s.toward z := fun q hq => hin ▸ List.mem_cons_of_mem _ hq
  have hdown : ∀ a sk, p.arg1 = a + 1 → (s.ends z).sock a = some sk → sk.closing = true := by
    intro a sk harg hsk
    cases hclosing : sk.closing with
    | true => rfl
    | false =>
      refine absurd ((h.ok z).id_eq hnum hsk hclosing) ?_
      rw [← harg]
      exact (h.ok z).find_none hfind hsk hclosing
  have htouches : ∀ c : Bool → Nat, (∀ a, a ≠ c z → p.arg1 ≠ a + 1) →
      Touches s z c (s.ends z) ps [] := by
    intro c hc
    exact {
      ok := h.ok z
      made := rfl
      sock := fun _ _ => rfl
      log := fun _ _ => rfl
      opener := rfl
      keeps := fun a ha => by
        rw [hin]
        simp [inbox, hc a ha]
      keepsOpens := by
        rw [hin]
        simp [opens, hp]
      sends := by simp }
  have hinbox : ∀ a, p.arg1 = a + 1 → inbox (a + 1) (s.toward z) ≠ [] := by
    intro a harg
    rw [hin]
    simp [inbox, hp, harg]
  -- to whom the packet goes
  by_cases hto : ∃ a < (s.ends z).made, p.arg1 = a + 1
  · obtain ⟨a, ha, harg⟩ := hto
    rcases h.place ha with hu | ⟨o, c, hj, rfl⟩
    · exfalso
      cases h.waiting z a hu with
      | asked _ _ _ hnone => exact hinbox a harg hnone
      | refused hsock _ _ => exact absurd (hdown a _ harg hsock) (by simp)
      | dead _ _ hnone => exact hinbox a harg hnone
    · have ht := htouches c fun b hb hb' => hb (Nat.succ.inj (hb'.symm.trans harg))
      have hout : ∀ p ∈ ([] : List Packet), p.opens = none ∧ p.arg1 = c (!z) + 1 := by simp
      have hview := view_act_pop (e := s.ends z) hin hp harg hkind hout
      have hparty : (view s c).party z = partyOf ((s.ends z).sock (c z)) ((s.ends z).log (c z)) := rfl
      have hnotup : ¬ ((view s c).party z).up := by
        rw [hparty]
        cases hsk : (s.ends z).sock (c z) with
        | none => simp [partyOf, Party.up]
        | some sk => simp [partyOf_up, hdown _ sk harg hsk]
      refine h.touch hj ht hsub ((h.streams o c hj).peer z) (by simp) ?_
      rw [hview, ← hparty]
      have hhead : (view s c).toward z = m :: (inbox (c z + 1) ps).filterMap Packet.kind := by
        simp [view, hin, inbox, hp, harg, hkind]
      have hstep := StopAndWait.Step.drop z m _ hhead hnotup
      refine .single ?_
      have hset : ((view s c).pop z).set z ((view s c).party z) = (view s c).pop z :=
        StopAndWait.set_party ((view s c).pop z) z
      simpa [hset] using hstep
  · have hno : ∀ a, p.arg1 ≠ a + 1 := by
      intro a harg
      refine hto ⟨a, ?_, harg⟩
      by_contra hle
      exact hinbox a harg (h.fresh z a (Nat.le_of_not_lt hle))
    have ht := htouches (fun x => (s.ends x).made) fun a _ => hno a
    refine ht.inv h (fun o c hj x hx => absurd hx (hj.lt x).ne) (fun x hu => absurd hu.lt (lt_irrefl _))
      fun x _ => ?_
    rcases self_or_not x z with rfl | rfl
    · rw [act_toward_self]
      have hnone := h.fresh x _ le_rfl
      rw [hin] at hnone
      exact List.filter_eq_nil_iff.mpr fun q hq =>
        List.filter_eq_nil_iff.mp hnone q (List.mem_cons_of_mem _ hq)
    · rw [act_toward_other, List.append_nil]
      exact h.fresh _ _ le_rfl

theorem view_head {a : Nat} (hin : s.toward z = p :: ps) (hp : p.opens = none)
    (harg : p.arg1 = a + 1) (hc : c z = a) {m : Msg UInt8} (hkind : p.kind = some m) :
    (view s c).toward z = m :: (inbox (a + 1) ps).filterMap Packet.kind := by
  simp [view, hin, inbox, hp, harg, hc, hkind]

/-- A packet for an open socket other than `A_CLSE` finds a stream. -/
theorem Sys.Inv.find_joined (h : s.Inv) (hin : s.toward z = p :: ps) (hp : p.opens = none)
    (hnot : ∀ i j, p ≠ .clse i j) {a : Nat} {sk : ASocket} (hsk : (s.ends z).sock a = some sk)
    (harg : p.arg1 = a + 1) : ∃ o c, Joined s o c ∧ c z = a := by
  have hmem : p ∈ inbox (a + 1) (s.toward z) := by
    rw [hin]
    simp [inbox, hp, harg]
  refine (h.place ((h.ok z).lt a sk hsk)).resolve_left fun hu => ?_
  cases h.waiting z a hu with
  | asked _ _ _ hnone =>
    rw [hnone] at hmem
    cases hmem
  | refused _ _ hone =>
    rw [hone, List.mem_singleton] at hmem
    exact hnot _ _ hmem
  | dead hsock _ _ =>
    rw [hsock] at hsk
    cases hsk

theorem Sys.Inv.okay (h : s.Inv) (hnum : (s.ends z).made < 2 ^ 32) {arg0 arg1 : Nat}
    (hin : s.toward z = .okay arg0 arg1 :: ps) (env : PacketEnv) :
    (s.act z (handlePacket (s.ends z) env (.okay arg0 arg1)).1 ps
      (handlePacket (s.ends z) env (.okay arg0 arg1)).2).Inv := by
  simp only [handlePacket]
  cases hfind : (s.ends z).findLocalSocket arg1 with
  | none => exact h.drop hnum hin rfl rfl hfind
  | some found =>
    obtain ⟨a, sk⟩ := found
    obtain ⟨hsk, hopen, hid⟩ := (h.ok z).find hfind
    have harg : arg1 = a + 1 := by rw [← hid, (h.ok z).id_eq hnum hsk hopen]
    obtain ⟨o, c, hj, rfl⟩ := h.find_joined hin rfl (by simp) hsk harg
    have hstream := h.streams o c hj
    have hok := (h.ok z).ok _ sk hsk
    have hsender : arg0 = c (!z) + 1 :=
      hstream.sender z (.okay arg0 arg1) (by simp [hin, inbox, Packet.opens, Packet.arg1, harg]) _ rfl
    refine h.put hj hsk (okay_keeps hok hopen arg0) ?_ (by simp) (keeps_tail hin rfl harg)
      (fun q hq => hin ▸ List.mem_cons_of_mem _ hq) ?_
    · intro sk' hsk' _
      cases hsk'
      refine .inl ?_
      unfold localSocketReady
      split_ifs with hpeer
      · simp [hsender]
      · rcases hstream.peer z sk hsk hopen with hp | ⟨-, hp⟩
        · exact hp
        · exact absurd hp hpeer
    · rw [view_act_pop hin rfl harg rfl (by simp), put_sock_self, put_log_self, SocketLog.add_keep]
      have hparty : (view s c).party z = partyOf (some sk) ((s.ends z).log (c z)) := by
        simp [view, hsk]
      have hsteps := steps_okay hopen hparty (view_head hin rfl harg rfl rfl) arg0
      simpa [Effect.keep] using hsteps

/-- A socket for which `A_WRTE` comes is an end of a stream, is connected, and has nothing in
its queue. -/
theorem Sys.Inv.wrte_finds (h : s.Inv) (hnum : (s.ends z).made < 2 ^ 32) {arg0 arg1 a : Nat}
    {data : Bytes} (hin : s.toward z = .wrte arg0 arg1 data :: ps) {sk : ASocket}
    (hfind : (s.ends z).findLocalSocket arg1 = some (a, sk)) :
    (s.ends z).sock a = some sk ∧ sk.closing = false ∧ arg1 = a + 1 ∧ sk.pkts = [] ∧
      (∃ peer, sk.peer = some peer) ∧ ∃ o c, Joined s o c ∧ c z = a := by
  obtain ⟨hsk, hopen, hid⟩ := (h.ok z).find hfind
  have harg : arg1 = a + 1 := by rw [← hid, (h.ok z).id_eq hnum hsk hopen]
  obtain ⟨o, c, hj, rfl⟩ := h.find_joined hin rfl (by simp) hsk harg
  have hstream := h.streams o c hj
  have hhead := view_head (c := c) hin rfl harg rfl rfl
  have hparty : (view s c).party z = partyOf (some sk) ((s.ends z).log (c z)) := by simp [view, hsk]
  -- a socket that waits for `A_OKAY` would find it in front
  obtain ⟨peer, hpeer⟩ : ∃ peer, sk.peer = some peer := by
    cases hpeer : sk.peer with
    | some peer => exact ⟨peer, rfl⟩
    | none =>
      obtain ⟨-, -, rest, hack⟩ := hstream.opening hsk hopen hpeer
      rw [hhead] at hack
      cases hack
  have hpkts : sk.pkts = [] := by
    have howes := hstream.inv.owes_eq_false hhead
    rw [hparty, partyOf_live hopen hpeer] at howes
    by_contra hne
    rw [((h.ok z).ok _ sk hsk).write.mpr hne] at howes
    cases howes
  exact ⟨hsk, hopen, harg, hpkts, ⟨peer, hpeer⟩, o, c, hj, rfl⟩

theorem Sys.Inv.wrte (h : s.Inv) (hnum : (s.ends z).made < 2 ^ 32) {arg0 arg1 : Nat} {data : Bytes}
    (hin : s.toward z = .wrte arg0 arg1 data :: ps) (env : PacketEnv) :
    (s.act z (handlePacket (s.ends z) env (.wrte arg0 arg1 data)).1 ps
      (handlePacket (s.ends z) env (.wrte arg0 arg1 data)).2).Inv := by
  simp only [handlePacket]
  cases hfind : (s.ends z).findLocalSocket arg1 with
  | none => exact h.drop hnum hin rfl rfl hfind
  | some found =>
    obtain ⟨a, sk⟩ := found
    obtain ⟨hsk, hopen, harg, hpkts, ⟨peer, hpeer⟩, o, c, hj, rfl⟩ := h.wrte_finds hnum hin hfind
    have hstream := h.streams o c hj
    have hok := (h.ok z).ok _ sk hsk
    have hhead := view_head (c := c) hin rfl harg rfl rfl
    have hparty : (view s c).party z = partyOf (some sk) ((s.ends z).log (c z)) := by simp [view, hsk]
    have hsender : arg0 = c (!z) + 1 := hstream.sender z (.wrte arg0 arg1 data)
      (by simp [hin, inbox, Packet.opens, Packet.arg1, harg]) _ rfl
    obtain ⟨r, ready, hr⟩ : ∃ r ready, localSocketEnqueue sk data env.writes = (r, ready) :=
      ⟨_, _, rfl⟩
    have hkeeps := localSocketEnqueue_keeps hok hopen data env.writes
    rw [hr] at hkeeps
    simp only [hr]
    have hnames := names_enqueue hr
    have hsends := h.sends hnum hj hsk hnames
    have hout : ∀ p ∈ r.out ++ (if ready then [Packet.okay sk.id arg0] else []),
        p.opens = none ∧ p.arg1 = c (!z) + 1 ∧ ∀ i ∈ p.sender, i = c z + 1 := by
      intro p hp
      rcases List.mem_append.mp hp with hp | hp
      · exact hsends p hp
      · split_ifs at hp
        · rw [List.mem_singleton.mp hp]
          refine ⟨rfl, hsender, fun i hi => ?_⟩
          rw [← (h.ok z).id_eq hnum hsk hopen]
          exact (Option.some.inj hi).symm
        · cases hp
    refine h.put hj hsk hkeeps ?_ hout (keeps_tail hin rfl harg)
      (fun q hq => hin ▸ List.mem_cons_of_mem _ hq) ?_
    · intro sk' hsk' hopen'
      rw [hnames.same sk' hsk' hopen']
      exact hstream.peer z sk hsk hopen
    · rw [view_act_pop hin rfl harg rfl fun p hp => ⟨(hout p hp).1, (hout p hp).2.1⟩, put_sock_self,
        put_log_self]
      exact steps_wrte hok hopen hpeer hpkts hparty hhead hr arg0

theorem Sys.Inv.clse (h : s.Inv) (hnum : (s.ends z).made < 2 ^ 32) {arg0 arg1 : Nat}
    (hin : s.toward z = .clse arg0 arg1 :: ps) (env : PacketEnv) :
    (s.act z (handlePacket (s.ends z) env (.clse arg0 arg1)).1 ps
      (handlePacket (s.ends z) env (.clse arg0 arg1)).2).Inv := by
  simp only [handlePacket]
  cases hfind : (s.ends z).findLocalSocket arg1 with
  | none => exact h.drop hnum hin rfl rfl hfind
  | some found =>
    obtain ⟨a, sk⟩ := found
    simp only
    obtain ⟨hsk, hopen, hid⟩ := (h.ok z).find hfind
    have harg : arg1 = a + 1 := by rw [← hid, (h.ok z).id_eq hnum hsk hopen]
    have hok := (h.ok z).ok a sk hsk
    have hkeeps := localSocketClose_keeps hok
    have hlt := (h.ok z).lt a sk hsk
    have hopener : ∀ e : Endpoint, ((e.setFinished a).log a).opener = (e.log a).opener := by
      intro e
      simp [Endpoint.setFinished]
    have hlog : ∀ (e : Endpoint) b, b ≠ a → (e.setFinished a).log b = e.log b := fun e b hb =>
      Function.update_of_ne hb ..
    have hsub : ∀ q ∈ ps, q ∈ s.toward z := fun q hq => hin ▸ List.mem_cons_of_mem _ hq
    have htouches : ∀ (c : Bool → Nat), c z = a → (∀ p ∈ (localSocketClose sk).out,
        p.opens = none ∧ p.arg1 = c (!z) + 1) → Touches s z c
          (((s.ends z).put a (localSocketClose sk)).setFinished a) ps (localSocketClose sk).out := by
      rintro c rfl hout
      obtain ⟨hkeep, hopens⟩ := keeps_tail hin rfl harg
      exact {
        ok := setFinished_ok ((h.ok z).put hsk hkeeps) hlt
        made := rfl
        sock := fun b hb => put_sock_of_ne hb _ _
        log := fun b hb => (hlog _ b hb).trans (put_log_of_ne hb _ _)
        opener := by
          rw [hopener, put_log_self]
          rfl
        keeps := hkeep
        keepsOpens := hopens
        sends := hout }
    rcases h.place hlt with hu | ⟨o, c, hj, rfl⟩
    · obtain rfl := h.waiting_sock hu hsk
      have hinbox : inbox (a + 1) (s.toward z) = .clse arg0 (a + 1) :: inbox (a + 1) ps := by
        rw [hin, harg]
        simp [inbox, Packet.opens, Packet.arg1]
      have ht := htouches (fun x => if x = z then a else (s.ends x).made) (if_pos rfl)
        (by simp [localSocketClose])
      have hout : (localSocketClose ⟨a + 1, false, none, fdeventInstall, []⟩).out = [] := rfl
      rw [hout] at ht ⊢
      refine ht.inv_of_unanswered h (by simp) (by simpa using hu) ?_
      simp only [if_pos]
      cases h.waiting z a hu with
      | asked _ _ _ hnone =>
        rw [hnone] at hinbox
        cases hinbox
      | dead hsock _ _ =>
        rw [hsock] at hsk
        cases hsk
      | refused _ hno hone =>
        rw [hone] at hinbox
        refine .dead ?_ ?_ ?_
        · rw [act_ends_self]
          exact put_sock_self _ _ _
        · rwa [act_toward_other, List.append_nil]
        · rw [act_toward_self]
          exact (List.cons.inj hinbox).2.symm
    · have hstream := h.streams o c hj
      have hhead := view_head (c := c) hin rfl harg rfl rfl
      have hparty : (view s c).party z = partyOf (some sk) ((s.ends z).log (c z)) := by
        simp [view, hsk]
      obtain ⟨peer, hpeer⟩ : ∃ peer, sk.peer = some peer := by
        cases hpeer : sk.peer with
        | some peer => exact ⟨peer, rfl⟩
        | none =>
          obtain ⟨-, -, rest, hack⟩ := hstream.opening hsk hopen hpeer
          rw [hhead] at hack
          cases hack
      have hsends := h.sends hnum hj hsk (names_close (s := sk))
      have hout : ∀ p ∈ (localSocketClose sk).out, p.opens = none ∧ p.arg1 = c (!z) + 1 :=
        fun p hp => ⟨(hsends p hp).1, (hsends p hp).2.1⟩
      refine h.touch hj (htouches c rfl hout) hsub ?_ (fun p hp => (hsends p hp).2.2) ?_
      · intro sk' hsk' hopen'
        have hsk' : sk' ∈ (localSocketClose sk).sock := by
          have hput : (((s.ends z).put (c z) (localSocketClose sk)).setFinished (c z)).sock (c z) =
              (localSocketClose sk).sock := put_sock_self _ _ _
          rwa [hput] at hsk'
        rw [names_close.same sk' hsk' hopen']
        exact hstream.peer z sk hsk hopen
      · have hmsgs : (localSocketClose sk).out.filterMap Packet.kind = [.fin] := by
          unfold localSocketClose
          split_ifs <;> simp [hpeer, Packet.kind]
        rw [view_act_pop hin rfl harg rfl hout, hmsgs]
        have hsteps := steps_clse hopen hpeer hparty hhead
        simpa [Endpoint.setFinished, Endpoint.put] using hsteps

theorem step_made {e e' : Endpoint} {act : Action} (h : step e act = .done (e', out)) :
    e.made ≤ e'.made := by
  cases act with
  | select a read write =>
    simp only [step] at h
    split at h
    · obtain ⟨rfl, -⟩ := Prod.mk.inj (Outcome.done.inj h)
      exact le_rfl
    · obtain ⟨rfl, -⟩ := Prod.mk.inj (Outcome.done.inj h)
      exact le_rfl
  | call a ws rs =>
    simp only [step] at h
    split at h
    · obtain ⟨rfl, -⟩ := Prod.mk.inj (Outcome.done.inj h)
      exact le_rfl
    · split_ifs at h
      · obtain ⟨r, -, hput⟩ := Outcome.bind_eq_done.mp h
        obtain ⟨rfl, -⟩ := Prod.mk.inj (Outcome.done.inj hput)
        exact le_rfl
      · obtain ⟨rfl, -⟩ := Prod.mk.inj (Outcome.done.inj h)
        exact le_rfl
  | packet p env =>
    obtain ⟨rfl, -⟩ := Prod.mk.inj (Outcome.done.inj h)
    cases p <;> simp only <;> split
    all_goals first
      | exact le_rfl
      | exact Nat.le_succ _
  | connect destination =>
    simp only [step] at h
    split_ifs at h
    obtain ⟨rfl, -⟩ := Prod.mk.inj (Outcome.done.inj h)
    exact Nat.le_succ _

theorem Step.numbered {s' : Sys} (hstep : Step s s') (hnum : s'.Numbered) : s.Numbered := by
  have hact : ∀ {z act e ps out}, step (s.ends z) act = .done (e, out) →
      (s.act z e ps out).Numbered → s.Numbered := by
    intro z act e ps out h hnum x
    have hx := hnum x
    rcases self_or_not x z with rfl | rfl
    · rw [act_ends_self] at hx
      exact (step_made h).trans_lt hx
    · rwa [act_ends_other] at hx
  cases hstep with
  | packet z p rest env e out hin hstep => exact hact hstep hnum
  | select z a read write e out hstep => exact hact hstep hnum
  | call z a ws rs e out hstep => exact hact hstep hnum
  | connect z destination e out hstep => exact hact hstep hnum

/-- Every step preserves the invariant, as long as there are identifiers. -/
theorem Step.inv {s' : Sys} (hstep : Step s s') (h : s.Inv) (hnum : s'.Numbered) : s'.Inv := by
  have hnum₀ := hstep.numbered hnum
  cases hstep with
  | packet z p rest env e out hin hstep =>
    obtain ⟨rfl, rfl⟩ := Prod.mk.inj (Outcome.done.inj hstep)
    cases p with
    | «open» arg0 arg1 data =>
      have hz := hnum z
      simp only [act_ends_self] at hz ⊢
      split_ifs at hz ⊢ with hservice
      · exact h.accept hin hz
      · exact h.refuse hin
    | okay arg0 arg1 => exact h.okay (hnum₀ z) hin env
    | clse arg0 arg1 => exact h.clse (hnum₀ z) hin env
    | wrte arg0 arg1 data => exact h.wrte (hnum₀ z) hin env
  | select z a read write e out hstep => exact h.select hstep
  | call z a ws rs e out hstep => exact h.call (hnum₀ z) hstep
  | connect z destination e out hstep =>
    simp only [step] at hstep
    split_ifs at hstep
    obtain ⟨rfl, rfl⟩ := Prod.mk.inj (Outcome.done.inj hstep)
    have hz := hnum z
    rw [act_ends_self] at hz
    exact h.connect destination hz

theorem Reachable.inv (h : Reachable s) (hnum : s.Numbered) : s.Inv := by
  induction h with
  | refl => exact start_inv
  | tail _ hstep ih => exact hstep.inv (ih (hstep.numbered hnum)) hnum

/-- Every stream behaves as a link of `StopAndWait`, whatever happens on the others. -/
theorem streams_refine {s : Sys} {o : Bool} {c : Bool → Nat} (h : Reachable s) (hnum : s.Numbered)
    (hj : Joined s o c) : Steps (Link.start o) (view s c) :=
  ((h.inv hnum).streams o c hj).steps

end Steps

/-! A run with one stream, which `true` asks for. -/

def sampleDestination : Bytes := ascii "sideload:1"

def sampleEnv : PacketEnv := ⟨true, []⟩

def sampleAsked : Sys :=
  let r := connectToRemote .start sampleDestination
  Sys.start.act true r.1 [] r.2

def sampleOpen : Sys :=
  let r := handlePacket .start sampleEnv (.open 1 0 (sampleDestination ++ [0]))
  sampleAsked.act false r.1 [] r.2

def sampleReady : Sys :=
  let r := handlePacket (sampleOpen.ends true) sampleEnv (.okay 1 1)
  sampleOpen.act true r.1 [] r.2

def sampleJoin : Bool → Nat := fun _ => 0

theorem sampleReady_reachable : Reachable sampleReady := by
  have hasked : Reachable sampleAsked :=
    Relation.ReflTransGen.refl.tail (.connect true sampleDestination _ _ rfl)
  have hopen : Reachable sampleOpen := hasked.tail (.packet false _ _ sampleEnv _ _ rfl rfl)
  exact hopen.tail (.packet true _ _ sampleEnv _ _ rfl rfl)

theorem sampleReady_numbered : sampleReady.Numbered := by
  intro x
  cases x <;> decide

theorem sampleReady_joined : Joined sampleReady true sampleJoin :=
  ⟨by decide, fun x => by cases x <;> decide⟩

theorem streams_refine_sample : Steps (Link.start true) (view sampleReady sampleJoin) :=
  streams_refine sampleReady_reachable sampleReady_numbered sampleReady_joined

end BootableRecovery.Minadbd
