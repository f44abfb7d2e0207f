import BootableRecovery.Minadbd.Sockets

/-!
# `minadbd`: a local socket as a party of a stream

A local socket, with what has happened to it, is a party of `StopAndWait`: the interest in
`FDE_READ` is its permission to send, and the interest in `FDE_WRITE` the acknowledgement
that it owes.

* `simulates_call`: a call of `local_socket_event_func` is some steps of the party.
* `steps_okay`, `steps_clse`, `steps_wrte`: so is a packet that comes to an open socket.
* `Names`: a socket names itself and its peer in what it sends.
-/

namespace BootableRecovery.Minadbd

open StopAndWait (Link Msg Party Phase Steps)

/-! ## A socket as a party -/

/-- The party that a socket is, when there is one, with what has happened to it. -/
def partyOf (o : Option ASocket) (l : SocketLog) : Party UInt8 :=
  match o with
  | none => ⟨.gone, false, false, [], l.read, l.wrote, l.lost, l.finished⟩
  | some s =>
    if s.closing then ⟨.draining, false, false, s.pkts.flatten, l.read, l.wrote, l.lost, l.finished⟩
    else
      ⟨if s.peer = none then .opening else .live, s.fde.read, s.fde.write, s.pkts.flatten, l.read,
        l.wrote, l.lost, l.finished⟩

/-- The message that a packet is for the stream to which it belongs. -/
def Packet.kind : Packet → Option (Msg UInt8)
  | .open .. => none
  | .okay .. => some .ack
  | .clse .. => some .fin
  | .wrte _ _ data => some (.data data)

def Packet.arg1 : Packet → Nat
  | .open _ arg1 _ => arg1
  | .okay _ arg1 => arg1
  | .clse _ arg1 => arg1
  | .wrte _ arg1 _ => arg1

def Packet.opens : Packet → Option Nat
  | .open arg0 _ _ => some arg0
  | _ => none

def Packet.sender : Packet → Option Nat
  | .okay arg0 _ => some arg0
  | .wrte arg0 _ _ => some arg0
  | _ => none

section Party

variable {s : ASocket} {l : SocketLog}

theorem partyOf_closing (h : s.closing = true) : partyOf (some s) l =
    ⟨.draining, false, false, s.pkts.flatten, l.read, l.wrote, l.lost, l.finished⟩ := by
  simp [partyOf, h]

theorem partyOf_live (h : s.closing = false) {r : Nat} (hpeer : s.peer = some r) :
    partyOf (some s) l =
      ⟨.live, s.fde.read, s.fde.write, s.pkts.flatten, l.read, l.wrote, l.lost, l.finished⟩ := by
  simp [partyOf, h, hpeer]

theorem partyOf_opening (h : s.closing = false) (hpeer : s.peer = none) : partyOf (some s) l =
    ⟨.opening, s.fde.read, s.fde.write, s.pkts.flatten, l.read, l.wrote, l.lost, l.finished⟩ := by
  simp [partyOf, h, hpeer]

theorem partyOf_up : (partyOf (some s) l).up ↔ s.closing = false := by
  cases h : s.closing with
  | true => simp [partyOf_closing h, Party.up]
  | false =>
    cases hpeer : s.peer with
    | none => simp [partyOf_opening h hpeer, Party.up]
    | some r => simp [partyOf_live h hpeer, Party.up]

end Party

/-! ## Calls as steps of the party -/

/-- What a call does is what the party does in some steps. -/
def Simulates (s : ASocket) (r : Effect) : Prop :=
  ∀ (l : Link UInt8) (z : Bool) (log : SocketLog), l.party z = partyOf (some s) log →
    Steps l ((l.set z (partyOf r.sock (log.add r))).push (!z) (r.out.filterMap Packet.kind))

section Calls

variable {s : ASocket} {l : Link UInt8} {z : Bool} {log : SocketLog}

@[simp] theorem SocketLog.add_keep : log.add (.keep s) = log := by
  simp [SocketLog.add, Effect.keep]

theorem simulates_keep : Simulates s (.keep s) := by
  intro l z log hl
  rw [SocketLog.add_keep, show partyOf (Effect.keep s).sock log = l.party z from hl.symm]
  simpa [Effect.keep] using Relation.ReflTransGen.refl

/-- A live socket that is closed: it finishes, and without packets it is given up at once. -/
theorem steps_close (hopen : s.closing = false) {r : Nat} (hpeer : s.peer = some r)
    (hl : l.party z = partyOf (some s) log) : Steps (l.finish z)
      ((l.set z (partyOf (localSocketClose s).sock (log.add (localSocketClose s)))).push (!z)
        [.fin]) := by
  rw [partyOf_live hopen hpeer] at hl
  unfold localSocketClose
  split_ifs with hgone
  · have hstep := StopAndWait.Step.giveUp (l := l.finish z) z (by simp [Link.finish])
    refine .single ?_
    simpa [Link.finish, hl, partyOf, SocketLog.add] using hstep
  · rw [partyOf_closing rfl]
    simpa [Link.finish, hl, SocketLog.add] using Relation.ReflTransGen.refl

theorem simulates_close (hnone : s.closing = true → s.peer = none)
    (hopening : s.closing = false → s.peer.isSome) : Simulates s (localSocketClose s) := by
  intro l z log hl
  cases hclosing : s.closing with
  | true =>
    have hstep := StopAndWait.Step.giveUp (l := l) z (by rw [hl, partyOf_closing hclosing])
    refine .single ?_
    rw [hl, partyOf_closing hclosing] at hstep
    simpa [localSocketClose, hclosing, hnone hclosing, partyOf, SocketLog.add] using hstep
  | false =>
    obtain ⟨r, hpeer⟩ := Option.isSome_iff_exists.mp (hopening hclosing)
    have hlive : (l.party z).phase = .live := by rw [hl, partyOf_live hclosing hpeer]
    have hout : (localSocketClose s).out.filterMap Packet.kind = [.fin] := by
      unfold localSocketClose
      split_ifs <;> simp [hpeer, Packet.kind]
    rw [hout]
    exact .head (.finish z hlive) (steps_close hclosing hpeer hl)

theorem Simulates.andThen {r : Effect} {f : ASocket → Effect} (h : Simulates s r)
    (hf : ∀ s' ∈ r.sock, Simulates s' (f s')) : Simulates s (r.andThen f) := by
  intro l z log hl
  have hfirst := h l z log hl
  unfold Effect.andThen
  cases hsock : r.sock with
  | none =>
    simp only
    exact hfirst
  | some s' =>
    have hsecond := hf s' hsock ((l.set z (partyOf r.sock (log.add r))).push (!z)
      (r.out.filterMap Packet.kind)) z (log.add r) (by simp [hsock])
    simpa [SocketLog.add] using hfirst.trans hsecond

/-- Writing from the queue changes nothing but what is delivered. -/
theorem simulates_write {w : Bytes} {pkts : List Bytes} (h : w ++ pkts.flatten = s.pkts.flatten) :
    Simulates s (.write { s with pkts := pkts } w) := by
  intro l z log hl
  have hqueue : (l.party z).queue = w ++ pkts.flatten := by
    rw [hl, h]
    unfold partyOf
    simp only
    split_ifs <;> rfl
  have hgone : (l.party z).phase ≠ .gone := by
    rw [hl]
    unfold partyOf
    simp only
    split_ifs <;> simp
  have hstep := StopAndWait.Step.write z w pkts.flatten hgone hqueue
  have hparty : { l.party z with queue := pkts.flatten, got := (l.party z).got ++ w } =
      partyOf (some { s with pkts := pkts }) { log with wrote := log.wrote ++ w } := by
    rw [hl]
    unfold partyOf
    simp only
    split_ifs <;> rfl
  rw [hparty] at hstep
  refine .single ?_
  simpa [Effect.write, SocketLog.add] using hstep

/-- `s->peer->ready(s->peer)`, behind the last packet of the queue -/
theorem simulates_ack (hopen : s.closing = false) {peer : Nat} (hpeer : s.peer = some peer)
    (hwrite : s.fde.write = true) (hpkts : s.pkts = []) :
    Simulates s (.send { s with fde := fdeventDelWrite s.fde } (.okay s.id peer) []) := by
  intro l z log hl
  rw [partyOf_live hopen hpeer] at hl
  have hstep := StopAndWait.Step.ack (l := l) z (by rw [hl]) (by rw [hl, hwrite])
    (by rw [hl, hpkts, List.flatten_nil])
  have hfde : (fdeventDelWrite s.fde).read = s.fde.read ∧ (fdeventDelWrite s.fde).write = false := by
    unfold fdeventDelWrite fdeventSet
    split_ifs with hsame
    · exact ⟨rfl, hsame.2⟩
    · exact ⟨rfl, rfl⟩
  refine .single ?_
  rw [hl] at hstep
  simpa [Effect.send, SocketLog.add, Packet.kind, partyOf, hopen, hpeer, hfde] using hstep

/-- `s->peer->enqueue(s->peer, p)` -/
theorem simulates_send (hopen : s.closing = false) {peer : Nat} (hpeer : s.peer = some peer)
    (hread : s.fde.read = true) (d : Bytes) :
    Simulates s (.send { s with fde := fdeventDelRead s.fde } (.wrte s.id peer d) d) := by
  intro l z log hl
  rw [partyOf_live hopen hpeer] at hl
  have hstep := StopAndWait.Step.send (l := l) z d (by rw [hl]) (by rw [hl, hread])
  refine .single ?_
  rw [hl] at hstep
  simpa [Effect.send, SocketLog.add, Packet.kind, partyOf, hopen, hpeer, fdeventDelRead_read,
    fdeventDelRead_write] using hstep

theorem simulates_eventWrite (hok : s.Ok) (hwrite : s.fde.write = true)
    (hopening : s.closing = false → s.peer.isSome) {as : List WriteAns} {r : Effect} {goesOn : Bool}
    (h : eventWrite s as = .done (r, goesOn)) : Simulates s r := by
  have hwas : s.pkts ≠ [] := hok.write.mp hwrite
  obtain ⟨w, pkts, stop, hq⟩ : ∃ w pkts stop, writeQueue as s.pkts = (w, pkts, stop) :=
    ⟨_, _, _, rfl⟩
  obtain ⟨hall, hstop⟩ := writeQueue_spec hq
  have hwritten : Simulates s (.write { s with pkts := pkts } w) := simulates_write hall
  unfold eventWrite at h
  rw [hq] at h
  cases stop with
  | again =>
    obtain ⟨rfl, -⟩ : _ ∧ _ := by simpa using h
    exact hwritten
  | failed =>
    have hpkts : pkts ≠ [] := fun hnil => by simp [hnil] at hstop
    obtain ⟨rfl, -⟩ : _ ∧ _ := by simpa using h
    refine hwritten.andThen fun s' hs' => ?_
    cases hs'
    exact simulates_close (fun hc => (hok.closing hc).1) hopening
  | sent =>
    obtain rfl : pkts = [] := hstop.mp rfl
    cases hclosing : s.closing with
    | true =>
      rw [hclosing] at h hwritten
      obtain ⟨rfl, -⟩ : _ ∧ _ := by simpa using h
      refine hwritten.andThen fun s' hs' => ?_
      cases hs'
      exact simulates_close (fun _ => (hok.closing hclosing).1) fun hc => by cases hc
    | false =>
      obtain ⟨peer, hpeer⟩ := Option.isSome_iff_exists.mp (hopening hclosing)
      rw [hclosing, hpeer] at h hwritten
      obtain ⟨rfl, -⟩ : _ ∧ _ := by simpa using h
      refine hwritten.andThen fun s' hs' => ?_
      cases hs'
      exact simulates_ack rfl rfl hwrite rfl

theorem simulates_eventRead (hok : s.Ok) (hread : s.closing = false → s.fde.read = true)
    (hopening : s.closing = false → s.peer.isSome) (as : List ReadAns) :
    Simulates s (eventRead s as) := by
  unfold eventRead
  simp only
  have hclose : ∀ s' : ASocket, s'.closing = s.closing → s'.peer = s.peer →
      Simulates s' (if (readPacket as MAX_PAYLOAD).2 then localSocketClose s' else .keep s') := by
    intro s' hclosing' hpeer'
    split_ifs
    · refine simulates_close (fun hc => ?_) fun hc => ?_
      · rw [hpeer']
        exact (hok.closing (hclosing' ▸ hc)).1
      · rw [hpeer']
        exact hopening (hclosing' ▸ hc)
    · exact simulates_keep
  split
  · refine simulates_keep.andThen fun s' hs' => ?_
    cases hs'
    exact hclose s rfl rfl
  · next peer hpeer =>
    have hopen : s.closing = false := by
      cases hclosing : s.closing with
      | false => rfl
      | true => simp [(hok.closing hclosing).1] at hpeer
    split
    · refine simulates_keep.andThen fun s' hs' => ?_
      cases hs'
      exact hclose s rfl rfl
    · refine (simulates_send hopen hpeer (hread hopen) _).andThen fun s' hs' => ?_
      cases hs'
      exact hclose _ rfl rfl

theorem partyOf_takeEvents : partyOf (some s.takeEvents) log = partyOf (some s) log := rfl

theorem Simulates.of_takeEvents {r : Effect} (h : Simulates s.takeEvents r) : Simulates s r :=
  fun l z log hl => h l z log hl

theorem simulates_call (hok : s.Ok)
    (hopening : s.fde.evRead = true ∨ s.fde.evWrite = true → s.closing = false → s.peer.isSome)
    {ws : List WriteAns} {rs : List ReadAns} {r : Effect}
    (h : fdeventCallFdfunc s ws rs = .done r) : Simulates s r := by
  refine Simulates.of_takeEvents ?_
  have hok' : s.takeEvents.Ok := hok.takeEvents
  unfold fdeventCallFdfunc localSocketEventFunc at h
  cases hevw : s.fde.evWrite with
  | false =>
    cases hevr : s.fde.evRead with
    | false =>
      rw [hevw, hevr] at h
      obtain rfl : _ = r := by simpa using h
      exact simulates_keep
    | true =>
      rw [hevw, hevr] at h
      obtain rfl : _ = r := by simpa using h
      exact simulates_eventRead hok' (fun hopen => hok.evRead hopen hevr)
        (hopening (.inl hevr)) rs
  | true =>
    rw [hevw, if_pos rfl] at h
    obtain ⟨⟨r₁, goesOn⟩, hr₁, hrest⟩ := Outcome.bind_eq_done.mp h
    have hfirst := simulates_eventWrite hok' (hok.evWrite hevw) (hopening (.inr hevw)) hr₁
    simp only [Outcome.done.injEq] at hrest
    split_ifs at hrest with hgo
    · subst hrest
      obtain ⟨rfl, hevr⟩ := Bool.and_eq_true_iff.mp hgo
      obtain ⟨hopen, hsock⟩ := eventWrite_goes_on hr₁
      refine hfirst.andThen fun s' hs' => ?_
      obtain rfl : _ = s' := Option.some.inj (hsock.symm.trans hs')
      have hpeer := hopening (.inr hevw) hopen
      have hread : (fdeventDelWrite s.takeEvents.fde).read = s.fde.read := by
        unfold fdeventDelWrite fdeventSet
        split_ifs <;> rfl
      exact simulates_eventRead (hok'.delWrite hopen rfl)
        (fun _ => hread.trans (hok.evRead hopen hevr)) (fun _ => hpeer) rs
    · subst hrest
      exact hfirst

end Calls

/-! ## Packets as steps of the party -/

section Packets

variable {s : ASocket} {l : Link UInt8} {z : Bool} {log : SocketLog} {rest : List (Msg UInt8)}

theorem steps_okay (hopen : s.closing = false) (hl : l.party z = partyOf (some s) log)
    (hin : l.toward z = .ack :: rest) (arg0 : Nat) :
    Steps l ((l.pop z).set z (partyOf
      (some (localSocketReady (if s.peer = none then { s with peer := some arg0 } else s))) log)) := by
  have hup : (l.party z).up := by
    rw [hl]
    exact partyOf_up.mpr hopen
  have hfde : (fdeventAddRead s.fde).read = true ∧ (fdeventAddRead s.fde).write = s.fde.write := by
    unfold fdeventAddRead fdeventSet
    split_ifs with hsame
    · exact ⟨hsame.1, rfl⟩
    · exact ⟨rfl, rfl⟩
  have hparty : { l.party z with phase := .live, canSend := true } = partyOf
      (some (localSocketReady (if s.peer = none then { s with peer := some arg0 } else s))) log := by
    rw [hl]
    cases hpeer : s.peer with
    | none => simp [partyOf, localSocketReady, hopen, hpeer, hfde]
    | some r => simp [partyOf, localSocketReady, hopen, hpeer, hfde]
  rw [← hparty]
  exact .single (.recvAck z rest hin hup)

theorem steps_clse (hopen : s.closing = false) {r : Nat} (hpeer : s.peer = some r)
    (hl : l.party z = partyOf (some s) log) (hin : l.toward z = .fin :: rest) :
    Steps l (((l.pop z).set z (partyOf (localSocketClose s).sock
      { log.add (localSocketClose s) with finished := true })).push (!z) [.fin]) := by
  have hlive : (l.party z).phase = .live := by rw [hl, partyOf_live hopen hpeer]
  have hclosed : { l.party z with closed := true } =
      partyOf (some s) { log with finished := true } := by
    rw [hl, partyOf_live hopen hpeer, partyOf_live hopen hpeer]
  have hclose := steps_close (l := (l.pop z).set z { l.party z with closed := true }) hopen hpeer
    (by rw [← hclosed, StopAndWait.party_set_self])
  rw [StopAndWait.set_set] at hclose
  exact .head (.recvFin z rest hin hlive) hclose

/-- `A_WRTE` comes to a socket that has nothing in its queue. -/
theorem steps_wrte (hok : s.Ok) (hopen : s.closing = false) {peer : Nat} (hpeer : s.peer = some peer)
    (hpkts : s.pkts = []) (hl : l.party z = partyOf (some s) log) {d : Bytes}
    (hin : l.toward z = .data d :: rest) {as : List WriteAns} {r : Effect} {ready : Bool}
    (h : localSocketEnqueue s d as = (r, ready)) (arg0 : Nat) :
    Steps l (((l.pop z).set z (partyOf r.sock (log.add r))).push (!z)
      ((r.out ++ if ready then [Packet.okay s.id arg0] else []).filterMap Packet.kind)) := by
  have hlive : (l.party z).phase = .live := by rw [hl, partyOf_live hopen hpeer]
  -- the packet is in the queue, and the socket owes an acknowledgement
  let s₁ : ASocket := { s with pkts := [d], fde := { s.fde with write := true } }
  have hparty₁ : { l.party z with owes := true, queue := (l.party z).queue ++ d } =
      partyOf (some s₁) log := by
    rw [hl]
    simp [partyOf, s₁, hopen, hpeer, hpkts]
  have hrecv := StopAndWait.Step.recvData z d rest hin hlive
  rw [hparty₁] at hrecv
  refine .head hrecv ?_
  obtain ⟨w, left, stop, as', hw⟩ : ∃ w left stop as', writePacket false as d = (w, left, stop, as') :=
    ⟨_, _, _, _, rfl⟩
  obtain ⟨hall, hstop⟩ := writePacket_spec hw
  have hwrite : s.fde.write = false := by simpa [hpkts] using hok.write
  unfold localSocketEnqueue at h
  rw [if_neg (by simp [hpkts]), hw] at h
  cases stop with
  | sent =>
    obtain rfl : left = [] := hstop.mp rfl
    obtain ⟨rfl, rfl⟩ := Prod.mk.inj h
    have hwritten : Simulates s₁ (.write { s₁ with pkts := [] } w) :=
      simulates_write (by simpa [s₁] using hall)
    have hsent := hwritten.andThen (f := fun s' =>
      .send { s' with fde := fdeventDelWrite s'.fde } (.okay s'.id peer) []) fun s' hs' => by
        cases hs'
        exact simulates_ack (s := { s₁ with pkts := [] }) hopen hpeer rfl rfl
    have hsteps := hsent ((l.pop z).set z (partyOf (some s₁) log)) z log (by simp)
    simpa [Effect.andThen, Effect.write, Effect.send, SocketLog.add, Packet.kind, partyOf, s₁, hopen,
      hpeer, hpkts, hwrite, fdeventDelWrite, fdeventSet] using hsteps
  | again =>
    obtain ⟨rfl, rfl⟩ := Prod.mk.inj h
    have hwritten : Simulates s₁ (.write { s₁ with pkts := [left] } w) :=
      simulates_write (by simpa [s₁] using hall)
    have hsteps := hwritten ((l.pop z).set z (partyOf (some s₁) log)) z log (by simp)
    simpa [Effect.write, SocketLog.add, partyOf, s₁, hopen, hpeer, hwrite, fdeventAddWrite,
      fdeventSet] using hsteps
  | failed =>
    obtain ⟨rfl, rfl⟩ := Prod.mk.inj h
    have hwritten : Simulates s₁ (.write { s₁ with pkts := [left] } w) :=
      simulates_write (by simpa [s₁] using hall)
    have hsteps := hwritten ((l.pop z).set z (partyOf (some s₁) log)) z log (by simp)
    refine hsteps.trans ?_
    have hlive₂ : ∀ log, partyOf (some { s₁ with pkts := [left] }) log =
        ⟨.live, s.fde.read, true, left, log.read, log.wrote, log.lost, log.finished⟩ := by
      intro log
      simp [partyOf, s₁, hopen, hpeer]
    simp only [Effect.write, hlive₂, List.filterMap_nil, StopAndWait.push_nil, StopAndWait.set_set]
    refine .head (.finish z (by simp)) (.single ?_)
    have hstep := StopAndWait.Step.giveUp (l := Link.finish ((l.pop z).set z
      ⟨.live, s.fde.read, true, left, log.read, log.wrote ++ w, log.lost, log.finished⟩) z) z
      (by simp [Link.finish])
    simpa [Link.finish, Effect.andThen, Effect.write, localSocketClose, SocketLog.add, Packet.kind,
      partyOf, hpkts, hpeer] using hstep

end Packets

/-! ## Who is named -/

/-- A call names the socket and its peer in the packets that it sends, and does not change
either. -/
structure Names (s : ASocket) (r : Effect) : Prop where
  out : ∀ p ∈ r.out, p.opens = none ∧ s.peer = some p.arg1 ∧ ∀ i ∈ p.sender, i = s.id
  same : ∀ s' ∈ r.sock, s'.closing = false → s'.peer = s.peer

section Names

variable {s : ASocket}

theorem names_close : Names s (localSocketClose s) where
  out p hp := by
    have hout : (localSocketClose s).out = s.peer.toList.map (Packet.clse 0) := by
      unfold localSocketClose
      split_ifs <;> rfl
    rw [hout] at hp
    obtain ⟨r, hr, rfl⟩ := List.mem_map.mp hp
    exact ⟨rfl, Option.mem_toList.mp hr, fun i hi => by cases hi⟩
  same s' hs' hopen := by
    unfold localSocketClose at hs'
    split_ifs at hs'
    · cases hs'
    · cases hs'
      cases hopen

theorem names_keep : Names s (.keep s) where
  out p hp := by cases hp
  same s' hs' _ := by
    cases hs'
    rfl

theorem names_write {pkts : List Bytes} {fde : FdEvent} {w : Bytes} :
    Names s (.write { s with pkts := pkts, fde := fde } w) where
  out p hp := by cases hp
  same s' hs' _ := by
    cases hs'
    rfl

theorem names_send {p : Packet} {fde : FdEvent} {d : Bytes} (hopens : p.opens = none)
    (hpeer : s.peer = some p.arg1) (hsender : p.sender = some s.id) :
    Names s (.send { s with fde := fde } p d) where
  out p' hp' := by
    obtain rfl : p' = p := by simpa [Effect.send] using hp'
    refine ⟨hopens, hpeer, fun i hi => ?_⟩
    rw [hsender] at hi
    exact (Option.some.inj hi).symm
  same s' hs' _ := by
    cases hs'
    rfl

theorem Names.andThen {r : Effect} {f : ASocket → Effect} (h : Names s r)
    (hf : ∀ s' ∈ r.sock, s'.id = s.id ∧ s'.peer = s.peer ∧ Names s' (f s')) :
    Names s (r.andThen f) := by
  unfold Effect.andThen
  cases hsock : r.sock with
  | none =>
    simp only
    exact h
  | some s' =>
    obtain ⟨hid, hpeer, hnames⟩ := hf s' hsock
    refine ⟨fun p hp => ?_, fun s'' hs'' hopen => (hnames.same s'' hs'' hopen).trans hpeer⟩
    rcases List.mem_append.mp hp with hp | hp
    · exact h.out p hp
    · rw [← hid, ← hpeer]
      exact hnames.out p hp

theorem names_eventWrite {as : List WriteAns} {r : Effect} {goesOn : Bool}
    (h : eventWrite s as = .done (r, goesOn)) : Names s r := by
  obtain ⟨w, pkts, stop, hq⟩ : ∃ w pkts stop, writeQueue as s.pkts = (w, pkts, stop) :=
    ⟨_, _, _, rfl⟩
  unfold eventWrite at h
  rw [hq] at h
  have hclose : Names s ((Effect.write { s with pkts := pkts } w).andThen localSocketClose) := by
    refine names_write.andThen fun s' hs' => ?_
    cases hs'
    exact ⟨rfl, rfl, names_close⟩
  cases stop with
  | again =>
    obtain ⟨rfl, -⟩ : _ ∧ _ := by simpa using h
    exact names_write
  | failed =>
    obtain ⟨rfl, -⟩ : _ ∧ _ := by simpa using h
    exact hclose
  | sent =>
    simp only at h
    split_ifs at h with hclosing
    · obtain ⟨rfl, -⟩ := Prod.mk.inj (Outcome.done.inj h)
      exact hclose
    · cases hpeer : s.peer with
      | none =>
        rw [hpeer] at h
        cases h
      | some peer =>
        rw [hpeer] at h
        obtain ⟨rfl, -⟩ := Prod.mk.inj (Outcome.done.inj h)
        rw [← hpeer]
        refine names_write.andThen fun s' hs' => ?_
        cases hs'
        exact ⟨rfl, rfl, names_send rfl hpeer rfl⟩

theorem names_eventRead (as : List ReadAns) : Names s (eventRead s as) := by
  have hclose : ∀ s' : ASocket, Names s'
      (if (readPacket as MAX_PAYLOAD).2 then localSocketClose s' else .keep s') := by
    intro s'
    split_ifs
    · exact names_close
    · exact names_keep
  unfold eventRead
  simp only
  split
  · refine names_keep.andThen fun s' hs' => ?_
    cases hs'
    exact ⟨rfl, rfl, hclose _⟩
  · next peer hpeer =>
    split
    · refine names_keep.andThen fun s' hs' => ?_
      cases hs'
      exact ⟨rfl, rfl, hclose _⟩
    · refine (names_send rfl hpeer rfl).andThen fun s' hs' => ?_
      cases hs'
      exact ⟨rfl, rfl, hclose _⟩

theorem names_call {ws : List WriteAns} {rs : List ReadAns} {r : Effect}
    (h : fdeventCallFdfunc s ws rs = .done r) : Names s r := by
  have htake : ∀ {r}, Names s.takeEvents r → Names s r := fun hn => ⟨hn.out, hn.same⟩
  refine htake ?_
  unfold fdeventCallFdfunc localSocketEventFunc at h
  cases hevw : s.fde.evWrite with
  | false =>
    rw [hevw] at h
    obtain rfl := Outcome.done.inj h
    split_ifs
    · exact names_eventRead rs
    · exact names_keep
  | true =>
    rw [hevw, if_pos rfl] at h
    obtain ⟨⟨r₁, goesOn⟩, hr₁, hrest⟩ := Outcome.bind_eq_done.mp h
    obtain rfl := Outcome.done.inj hrest
    split_ifs with hgo
    · obtain ⟨rfl, -⟩ := Bool.and_eq_true_iff.mp hgo
      obtain ⟨-, hsock⟩ := eventWrite_goes_on hr₁
      refine (names_eventWrite hr₁).andThen fun s' hs' => ?_
      obtain rfl : _ = s' := Option.some.inj (hsock.symm.trans hs')
      exact ⟨rfl, rfl, names_eventRead rs⟩
    · exact names_eventWrite hr₁

theorem names_enqueue {d : Bytes} {as : List WriteAns} {r : Effect} {ready : Bool}
    (h : localSocketEnqueue s d as = (r, ready)) : Names s r := by
  unfold localSocketEnqueue at h
  split_ifs at h
  · obtain ⟨rfl, -⟩ := Prod.mk.inj h
    exact names_write (w := [])
  · split at h
    · obtain ⟨rfl, -⟩ := Prod.mk.inj h
      exact names_write
    · obtain ⟨rfl, -⟩ := Prod.mk.inj h
      exact names_write
    · next w left _ _ =>
      obtain ⟨rfl, -⟩ := Prod.mk.inj h
      refine Names.andThen (r := .write s w) names_write fun s' hs' => ?_
      cases hs'
      exact ⟨rfl, rfl, names_close.out, names_close.same⟩

end Names

end BootableRecovery.Minadbd
