import BootableRecovery.Minadbd.Streams

/-!
# `minadbd`: delivery and flow control

What the invariant of two endpoints says about the bytes of a stream, about the memory that
it takes, and about its end.

Main results:
* `streams_delivered`: what one end has written to its descriptor is a prefix of what the
  other one has read from its own, and when an end has learned that the other one is closed,
  it has everything.
* `streams_flow`: one packet of each direction is under way at most, it has at most
  `MAX_PAYLOAD` bytes, and two open ends never wait for each other.
* `steps_return`: no call follows a null pointer.
-/

namespace BootableRecovery.Minadbd

open StopAndWait (Link Msg Party Phase Steps)

/-! ## Delivery -/

section Delivery

variable {s : Sys} {o : Bool} {c : Bool → Nat}

/-- The bytes in the queue of a socket. -/
def queued (o : Option ASocket) : Bytes := o.elim [] fun sk => sk.pkts.flatten

def Packet.payload : Packet → Bytes
  | .wrte _ _ data => data
  | _ => []

/-- The bytes on the way to a socket. -/
def onTheWay (id : Nat) (ps : List Packet) : Bytes := (inbox id ps).flatMap Packet.payload

theorem datas_inbox (id : Nat) (ps : List Packet) :
    StopAndWait.datas ((inbox id ps).filterMap Packet.kind) = onTheWay id ps := by
  unfold onTheWay
  induction inbox id ps with
  | nil => rfl
  | cons p ps ih => cases p <;> simp [List.filterMap_cons, Packet.kind, Packet.payload, ih]

theorem view_queue (x : Bool) :
    ((view s c).party x).queue = queued ((s.ends x).sock (c x)) := by
  simp only [view, partyOf, queued]
  cases (s.ends x).sock (c x) with
  | none => rfl
  | some sk =>
    simp only
    split_ifs <;> rfl

theorem view_log (x : Bool) : ((view s c).party x).sent = ((s.ends x).log (c x)).read ∧
    ((view s c).party x).got = ((s.ends x).log (c x)).wrote ∧
    ((view s c).party x).lost = ((s.ends x).log (c x)).lost ∧
    ((view s c).party x).closed = ((s.ends x).log (c x)).finished := by
  simp only [view, partyOf]
  cases (s.ends x).sock (c x) with
  | none => exact ⟨rfl, rfl, rfl, rfl⟩
  | some sk =>
    simp only
    split_ifs <;> exact ⟨rfl, rfl, rfl, rfl⟩

theorem view_up {x : Bool} : ((view s c).party x).up ↔
    ∃ sk ∈ (s.ends x).sock (c x), sk.closing = false := by
  cases hsk : (s.ends x).sock (c x) with
  | none => simp [view, hsk, partyOf, Party.up]
  | some sk =>
    have hparty : (view s c).party x = partyOf (some sk) ((s.ends x).log (c x)) := by
      simp [view, hsk]
    rw [hparty, partyOf_up]
    simp

theorem view_open {x : Bool} {sk : ASocket} (hsk : (s.ends x).sock (c x) = some sk)
    (hopen : sk.closing = false) : ((view s c).party x).canSend = sk.fde.read ∧
      ((view s c).party x).owes = sk.fde.write := by
  simp [view, hsk, partyOf, hopen]

/-- What one end of a stream has written to its descriptor is a prefix of what the other end has
read from its own. While the writing end is open, the rest is in its queue or on the way. An end
that found itself open when `A_CLSE` came has received everything that the other one has read or
ever reads: it has written it, has it in its queue, or had to give it up. -/
theorem streams_delivered (h : Reachable s) (hnum : s.Numbered) (hj : Joined s o c) (x : Bool) :
    ((s.ends !x).log (c !x)).wrote <+: ((s.ends x).log (c x)).read ∧
    ((∃ sk ∈ (s.ends !x).sock (c !x), sk.closing = false) →
      ((s.ends x).log (c x)).read = ((s.ends !x).log (c !x)).wrote ++
        queued ((s.ends !x).sock (c !x)) ++ onTheWay (c (!x) + 1) (s.toward !x)) ∧
    (((s.ends !x).log (c !x)).finished = true →
      ((s.ends x).log (c x)).read = ((s.ends !x).log (c !x)).wrote ++
        queued ((s.ends !x).sock (c !x)) ++ ((s.ends !x).log (c !x)).lost) := by
  have hinv := ((h.inv hnum).streams o c hj).inv
  obtain ⟨hsent, -⟩ := view_log (s := s) (c := c) x
  obtain ⟨-, hgot, hlost, hclosed⟩ := view_log (s := s) (c := c) (!x)
  have hqueue := view_queue (s := s) (c := c) (!x)
  refine ⟨?_, fun hopen => ?_, fun hfinished => ?_⟩
  · have hdelivered := hinv.delivered x
    rwa [hsent, hgot] at hdelivered
  · have hstream := hinv.stream (view_up.mpr hopen)
    rw [hsent, hgot, hqueue] at hstream
    rw [hstream, ← datas_inbox]
    rfl
  · have hcomplete := hinv.complete (hclosed.trans hfinished)
    rwa [hsent, hgot, hqueue, hlost] at hcomplete

def sampleSocket : ASocket := ⟨1, false, some 1, ⟨true, false, false, false⟩, []⟩

/-- Two bytes and the end of the file are read, which closes the socket. -/
def sampleClosed : Sys :=
  let pending : ASocket := { sampleSocket with fde := ⟨true, false, true, false⟩ }
  let e := (sampleReady.ends true).put 0 (.keep pending)
  let r := eventRead sampleSocket [.got [1, 2], .got []]
  (sampleReady.act true e [] []).act true (e.put 0 r) [] r.out

theorem sampleClosed_reachable : Reachable sampleClosed := by
  have hselect := sampleReady_reachable.tail (.select true 0 true false _ _ rfl)
  exact hselect.tail (.call true 0 [] [.got [1, 2], .got []] _ _ rfl)

theorem sampleClosed_numbered : sampleClosed.Numbered := by
  intro x
  cases x <;> decide

theorem sampleClosed_joined : Joined sampleClosed true sampleJoin :=
  ⟨by decide, fun x => by cases x <;> decide⟩

theorem streams_delivered_sample : ((sampleClosed.ends true).log 0).read =
    ((sampleClosed.ends false).log 0).wrote ++ queued ((sampleClosed.ends false).sock 0) ++
      onTheWay 1 (sampleClosed.toward false) :=
  (streams_delivered sampleClosed_reachable sampleClosed_numbered sampleClosed_joined true).2.1
    (by decide)

/-- When one end is closed and the other one is open, `A_CLSE` is on the way to it. -/
theorem streams_close (h : Reachable s) (hnum : s.Numbered) (hj : Joined s o c) (x : Bool)
    (hdown : ∀ sk ∈ (s.ends x).sock (c x), sk.closing = true)
    (hopen : ∃ sk ∈ (s.ends !x).sock (c !x), sk.closing = false) :
    ∃ arg0, .clse arg0 (c (!x) + 1) ∈ s.toward !x := by
  have hinv := ((h.inv hnum).streams o c hj).inv
  have hnotup : ¬ ((view s c).party x).up := by
    rw [view_up]
    rintro ⟨sk, hsk, hopen'⟩
    simp [hdown sk hsk] at hopen'
  have hfin := hinv.not_half_open hnotup (view_up.mpr hopen)
  obtain ⟨p, hp, hkind⟩ := List.mem_filterMap.mp hfin
  obtain ⟨hmem, hto⟩ := List.mem_filter.mp hp
  obtain ⟨-, harg⟩ : p.opens = none ∧ p.arg1 = c (!x) + 1 := by simpa using hto
  cases p with
  | clse arg0 arg1 =>
    obtain rfl : arg1 = c (!x) + 1 := harg
    exact ⟨arg0, hmem⟩
  | «open» | okay | wrte => cases hkind

theorem streams_close_sample : ∃ arg0, .clse arg0 1 ∈ sampleClosed.toward false :=
  streams_close sampleClosed_reachable sampleClosed_numbered sampleClosed_joined true
    (by decide) (by decide)

/-- Two ends that are open never wait for each other: one of them has asked for the bytes of its
descriptor, has to write what is in its queue, or a packet is on the way. -/
theorem streams_go_on (h : Reachable s) (hnum : s.Numbered) (hj : Joined s o c) (x : Bool)
    {sk sk' : ASocket} (hsk : (s.ends x).sock (c x) = some sk) (hopen : sk.closing = false)
    (hsk' : (s.ends !x).sock (c !x) = some sk') (hopen' : sk'.closing = false) :
    sk.fde.read = true ∨ sk'.fde.write = true ∨ (∃ p ∈ inbox (c (!x) + 1) (s.toward !x),
      ∃ i data, p = .wrte i (c (!x) + 1) data) ∨
        ∃ p ∈ inbox (c x + 1) (s.toward x), ∃ i, p = .okay i (c x + 1) := by
  have hinv := ((h.inv hnum).streams o c hj).inv
  have hup := view_up.mpr ⟨sk, hsk, hopen⟩
  have hup' := view_up.mpr ⟨sk', hsk', hopen'⟩
  obtain ⟨hcan, -⟩ := view_open hsk hopen
  obtain ⟨-, howes⟩ := view_open hsk' hopen'
  have hinbox : ∀ {y m}, m ∈ (view s c).toward y →
      ∃ p ∈ inbox (c y + 1) (s.toward y), p.kind = some m ∧ p.arg1 = c y + 1 := by
    intro y m hm
    obtain ⟨p, hp, hkind⟩ := List.mem_filterMap.mp hm
    obtain ⟨-, harg⟩ : p.opens = none ∧ p.arg1 = c y + 1 := by simpa using (List.mem_filter.mp hp).2
    exact ⟨p, hp, hkind, harg⟩
  rcases hinv.not_stuck hup hup' with hcan' | ⟨d, hd⟩ | howes' | hack
  · exact .inl (hcan.symm.trans hcan')
  · obtain ⟨p, hp, hkind, harg⟩ := hinbox hd
    refine .inr (.inr (.inl ⟨p, hp, ?_⟩))
    cases p with
    | wrte i j data =>
      obtain rfl : j = c (!x) + 1 := harg
      exact ⟨i, data, rfl⟩
    | «open» | okay | clse => cases hkind
  · exact .inr (.inl (howes.symm.trans howes'))
  · obtain ⟨p, hp, hkind, harg⟩ := hinbox hack
    refine .inr (.inr (.inr ⟨p, hp, ?_⟩))
    cases p with
    | okay i j =>
      obtain rfl : j = c x + 1 := harg
      exact ⟨i, rfl⟩
    | «open» | wrte | clse => cases hkind

theorem streams_go_on_sample : sampleSocket.fde.read = true ∨ sampleSocket.fde.write = true ∨
    (∃ p ∈ inbox 1 (sampleReady.toward false), ∃ i data, p = .wrte i 1 data) ∨
      ∃ p ∈ inbox 1 (sampleReady.toward true), ∃ i, p = .okay i 1 :=
  streams_go_on sampleReady_reachable sampleReady_numbered sampleReady_joined true
    (show _ = some sampleSocket from rfl) rfl (show _ = some sampleSocket from rfl) rfl

end Delivery

/-! ## What is buffered -/

/-- A queue has one packet at most, which has not grown. -/
def ASocket.Small (s : ASocket) : Prop :=
  s.pkts.length ≤ 1 ∧ ∀ p ∈ s.pkts, p.length ≤ MAX_PAYLOAD

structure Effect.Small (r : Effect) : Prop where
  sock : ∀ s' ∈ r.sock, s'.Small
  out : ∀ p ∈ r.out, p.payload.length ≤ MAX_PAYLOAD

section Small

variable {s : ASocket}

theorem readPacket_length (as : List ReadAns) (avail : Nat) :
    (readPacket as avail).1.length ≤ avail := by
  induction as generalizing avail with
  | nil => exact Nat.zero_le _
  | cons ans as ih =>
    rw [readPacket.eq_def]
    simp only
    split_ifs
    · exact Nat.zero_le _
    · cases ans with
      | got b =>
        cases b with
        | nil => exact Nat.zero_le _
        | cons x b =>
          have hlen := ih (avail - ((x :: b).take avail).length)
          simp only [List.length_append]
          simp only [List.length_take] at hlen ⊢
          omega
      | eagain => exact Nat.zero_le _
      | eintr => exact ih avail
      | failed => exact Nat.zero_le _

theorem writeQueue_small {as : List WriteAns} {w : Bytes} {pkts : List Bytes} {stop : WriteEnd}
    (h : s.Small) (hq : writeQueue as s.pkts = (w, pkts, stop)) :
    ({ s with pkts := pkts } : ASocket).Small := by
  obtain ⟨hone, hlen⟩ := h
  cases hp : s.pkts with
  | nil =>
    rw [hp] at hq
    cases hq
    exact ⟨Nat.zero_le _, by simp⟩
  | cons p rest =>
    obtain rfl : rest = [] := by
      rw [hp, List.length_cons] at hone
      exact List.length_eq_zero_iff.mp (by omega)
    obtain ⟨w', left, stop', as', hw⟩ :
        ∃ w' left stop' as', writePacket true as p = (w', left, stop', as') := ⟨_, _, _, _, rfl⟩
    have hleft : left.length ≤ MAX_PAYLOAD := by
      have hall := congrArg List.length (writePacket_spec hw).1
      have hp' := hlen p (by simp [hp])
      rw [List.length_append] at hall
      omega
    rw [hp, writeQueue, hw] at hq
    cases stop' with
    | sent =>
      cases hq
      exact ⟨Nat.zero_le _, by simp⟩
    | again =>
      cases hq
      exact ⟨le_rfl, by simpa using hleft⟩
    | failed =>
      cases hq
      exact ⟨le_rfl, by simpa using hleft⟩

theorem Effect.Small.andThen {r : Effect} {f : ASocket → Effect} (h : r.Small)
    (hf : ∀ s' ∈ r.sock, s'.Small → (f s').Small) : (r.andThen f).Small := by
  unfold Effect.andThen
  cases hsock : r.sock with
  | none =>
    simp only
    exact h
  | some s' =>
    have hnext := hf s' hsock (h.sock s' hsock)
    refine ⟨hnext.sock, fun p hp => ?_⟩
    rcases List.mem_append.mp hp with hp | hp
    · exact h.out p hp
    · exact hnext.out p hp

theorem localSocketClose_small (h : s.Small) : (localSocketClose s).Small := by
  have hout : (localSocketClose s).out = s.peer.toList.map (Packet.clse 0) := by
    unfold localSocketClose
    split_ifs <;> rfl
  refine ⟨fun s' hs' => ?_, fun p hp => ?_⟩
  · unfold localSocketClose at hs'
    split_ifs at hs'
    · cases hs'
    · cases hs'
      exact h
  · rw [hout] at hp
    obtain ⟨r, -, rfl⟩ := List.mem_map.mp hp
    exact Nat.zero_le _

theorem small_keep (h : s.Small) : (Effect.keep s).Small where
  sock s' hs' := by
    cases hs'
    exact h
  out p hp := by cases hp

theorem small_write (h : s.Small) (w : Bytes) : (Effect.write s w).Small where
  sock s' hs' := by
    cases hs'
    exact h
  out p hp := by cases hp

theorem small_send (h : s.Small) {p : Packet} (hp : p.payload.length ≤ MAX_PAYLOAD) (d : Bytes) :
    (Effect.send s p d).Small where
  sock s' hs' := by
    cases hs'
    exact h
  out p' hp' := by
    obtain rfl : p' = p := by simpa [Effect.send] using hp'
    exact hp

theorem eventWrite_small (h : s.Small) {as : List WriteAns} {r : Effect} {goesOn : Bool}
    (hr : eventWrite s as = .done (r, goesOn)) : r.Small := by
  obtain ⟨w, pkts, stop, hq⟩ : ∃ w pkts stop, writeQueue as s.pkts = (w, pkts, stop) :=
    ⟨_, _, _, rfl⟩
  have hwritten := small_write (writeQueue_small h hq) w
  have hclose : ((Effect.write { s with pkts := pkts } w).andThen localSocketClose).Small :=
    hwritten.andThen fun s' _ hs' => localSocketClose_small hs'
  unfold eventWrite at hr
  rw [hq] at hr
  cases stop with
  | again =>
    obtain ⟨rfl, -⟩ : _ ∧ _ := by simpa using hr
    exact hwritten
  | failed =>
    obtain ⟨rfl, -⟩ : _ ∧ _ := by simpa using hr
    exact hclose
  | sent =>
    simp only at hr
    split_ifs at hr with hclosing
    · obtain ⟨rfl, -⟩ := Prod.mk.inj (Outcome.done.inj hr)
      exact hclose
    · split at hr
      · cases hr
      · obtain ⟨rfl, -⟩ := Prod.mk.inj (Outcome.done.inj hr)
        rename_i peer _
        refine hwritten.andThen fun s' _ hs' => ?_
        have hdel : ({ s' with fde := fdeventDelWrite s'.fde } : ASocket).Small := hs'
        exact small_send hdel (p := .okay s'.id peer) (Nat.zero_le _) _

theorem eventRead_small (h : s.Small) (as : List ReadAns) : (eventRead s as).Small := by
  have hclose : ∀ s' : ASocket, s'.Small →
      (if (readPacket as MAX_PAYLOAD).2 then localSocketClose s' else .keep s').Small := by
    intro s' hs'
    split_ifs
    · exact localSocketClose_small hs'
    · exact small_keep hs'
  unfold eventRead
  simp only
  split
  · exact (small_keep h).andThen fun s' _ hs' => hclose s' hs'
  · split
    · exact (small_keep h).andThen fun s' _ hs' => hclose s' hs'
    · rename_i peer _ _
      have hdel : ({ s with fde := fdeventDelRead s.fde } : ASocket).Small := h
      have hlen := readPacket_length as MAX_PAYLOAD
      exact (small_send hdel (p := .wrte s.id peer _) hlen _).andThen fun s' _ hs' => hclose s' hs'

theorem call_small (h : s.Small) {ws : List WriteAns} {rs : List ReadAns} {r : Effect}
    (hr : fdeventCallFdfunc s ws rs = .done r) : r.Small := by
  have h' : s.takeEvents.Small := h
  unfold fdeventCallFdfunc localSocketEventFunc at hr
  cases hevw : s.fde.evWrite with
  | false =>
    rw [hevw] at hr
    obtain rfl := Outcome.done.inj hr
    split_ifs
    · exact eventRead_small h' rs
    · exact small_keep h'
  | true =>
    rw [hevw, if_pos rfl] at hr
    obtain ⟨⟨r₁, goesOn⟩, hr₁, hrest⟩ := Outcome.bind_eq_done.mp hr
    obtain rfl := Outcome.done.inj hrest
    split_ifs
    · exact (eventWrite_small h' hr₁).andThen fun s' _ hs' => eventRead_small hs' rs
    · exact eventWrite_small h' hr₁

theorem enqueue_small (h : s.Small) (hpkts : s.pkts = []) {d : Bytes} (hd : d.length ≤ MAX_PAYLOAD)
    (as : List WriteAns) : (localSocketEnqueue s d as).1.Small := by
  obtain ⟨w, left, stop, as', hw⟩ : ∃ w left stop as', writePacket false as d = (w, left, stop, as') :=
    ⟨_, _, _, _, rfl⟩
  have hleft : left.length ≤ MAX_PAYLOAD := by
    have hall := congrArg List.length (writePacket_spec hw).1
    rw [List.length_append] at hall
    omega
  unfold localSocketEnqueue
  rw [if_neg (by simp [hpkts]), hw]
  cases stop with
  | sent => exact small_write h w
  | again =>
    refine small_write ⟨le_rfl, ?_⟩ w
    simpa using hleft
  | failed =>
    simp only
    refine (small_write h w).andThen fun s' _ hs' => ?_
    have hclose := localSocketClose_small hs'
    exact ⟨hclose.sock, hclose.out⟩

end Small

/-- What the endpoints hold and what is on the way. -/
structure Sys.Small (s : Sys) : Prop where
  sock : ∀ x a, ∀ sk ∈ (s.ends x).sock a, sk.Small
  packets : ∀ x, ∀ p ∈ s.toward x, p.payload.length ≤ MAX_PAYLOAD

section Steps

variable {s s' : Sys} {z : Bool} {e : Endpoint} {ps out : List Packet}

theorem Sys.Small.act (h : s.Small) (hsock : ∀ a, ∀ sk ∈ e.sock a, sk.Small)
    (hps : ∀ p ∈ ps, p ∈ s.toward z) (hout : ∀ p ∈ out, p.payload.length ≤ MAX_PAYLOAD) :
    (s.act z e ps out).Small where
  sock x a sk hsk := by
    rcases self_or_not x z with rfl | rfl
    · rw [act_ends_self] at hsk
      exact hsock a sk hsk
    · rw [act_ends_other] at hsk
      exact h.sock _ a sk hsk
  packets x p hp := by
    rcases self_or_not x z with rfl | rfl
    · rw [act_toward_self] at hp
      exact h.packets x p (hps p hp)
    · rw [act_toward_other] at hp
      rcases List.mem_append.mp hp with hp | hp
      · exact h.packets _ p hp
      · exact hout p hp

theorem put_small (h : ∀ a, ∀ sk ∈ e.sock a, sk.Small) (a : Nat) {r : Effect} (hr : r.Small) :
    ∀ b, ∀ sk ∈ (e.put a r).sock b, sk.Small := by
  intro b sk hsk
  rcases eq_or_ne b a with rfl | hb
  · rw [put_sock_self] at hsk
    exact hr.sock sk hsk
  · rw [put_sock_of_ne hb] at hsk
    exact h b sk hsk

theorem install_small (h : ∀ a, ∀ sk ∈ e.sock a, sk.Small) {sk : ASocket} (hsk : sk.pkts = [])
    (opener : Option Nat) : ∀ b, ∀ sk' ∈ (e.install sk opener).sock b, sk'.Small := by
  intro b sk' hsk'
  rw [install_sock] at hsk'
  split_ifs at hsk'
  · cases hsk'
    exact ⟨by simp [hsk], by simp [hsk]⟩
  · exact h b sk' hsk'

theorem Step.small (hstep : Step s s') (hinv : s.Inv) (hnum : s.Numbered) (h : s.Small) :
    s'.Small := by
  cases hstep with
  | packet z p rest env e out hin hstep =>
    obtain ⟨rfl, rfl⟩ := Prod.mk.inj (Outcome.done.inj hstep)
    have hsub : ∀ q ∈ rest, q ∈ s.toward z := fun q hq => hin ▸ List.mem_cons_of_mem _ hq
    have hz := h.sock z
    cases p with
    | «open» arg0 arg1 data =>
      simp only
      split_ifs
      · exact h.act (install_small hz rfl _) hsub (by simp [Packet.payload])
      · exact h.act hz hsub (by simp [Packet.payload])
    | okay arg0 arg1 =>
      simp only
      split
      · exact h.act hz hsub (by simp)
      · next a sk hfind =>
        have hsk := hz a sk ((hinv.ok z).find hfind).1
        refine h.act (put_small hz a (small_keep ?_)) hsub (by simp)
        split_ifs
        · exact hsk
        · exact hsk
    | clse arg0 arg1 =>
      simp only
      split
      · exact h.act hz hsub (by simp)
      · next a sk hfind =>
        have hclose := localSocketClose_small (hz a sk ((hinv.ok z).find hfind).1)
        exact h.act (put_small hz a hclose) hsub hclose.out
    | wrte arg0 arg1 data =>
      simp only
      split
      · exact h.act hz hsub (by simp)
      · next a sk hfind =>
        obtain ⟨hsk, -, -, hpkts, -⟩ := hinv.wrte_finds (hnum z) hin hfind
        have hdata : data.length ≤ MAX_PAYLOAD :=
          h.packets z (.wrte arg0 arg1 data) (by simp [hin])
        have hr := enqueue_small (hz a sk hsk) hpkts hdata env.writes
        refine h.act (put_small hz a hr) hsub fun p hp => ?_
        rcases List.mem_append.mp hp with hp | hp
        · exact hr.out p hp
        · split_ifs at hp
          · rw [List.mem_singleton.mp hp]
            exact Nat.zero_le _
          · cases hp
  | select z a read write e out hstep =>
    cases hsk : (s.ends z).sock a with
    | none =>
      simp only [step, hsk, Outcome.done.injEq, Prod.mk.injEq] at hstep
      obtain ⟨rfl, rfl⟩ := hstep
      exact h.act (h.sock z) (fun _ hp => hp) (by simp)
    | some sk =>
      simp only [step, hsk, Outcome.done.injEq, Prod.mk.injEq] at hstep
      obtain ⟨rfl, rfl⟩ := hstep
      have hsel : ({ sk with fde := fdeventSelect sk.fde read write } : ASocket).Small :=
        h.sock z a sk hsk
      exact h.act (put_small (h.sock z) a (small_keep hsel)) (fun _ hp => hp) (by simp)
  | call z a ws rs e out hstep =>
    cases hsk : (s.ends z).sock a with
    | none =>
      simp only [step, hsk, Outcome.done.injEq, Prod.mk.injEq] at hstep
      obtain ⟨rfl, rfl⟩ := hstep
      exact h.act (h.sock z) (fun _ hp => hp) (by simp)
    | some sk =>
      simp only [step, hsk] at hstep
      split_ifs at hstep
      · obtain ⟨r, hr, hput⟩ := Outcome.bind_eq_done.mp hstep
        obtain ⟨rfl, rfl⟩ := Prod.mk.inj (Outcome.done.inj hput)
        have hcall := call_small (h.sock z a sk hsk) hr
        exact h.act (put_small (h.sock z) a hcall) (fun _ hp => hp) hcall.out
      · obtain ⟨rfl, rfl⟩ := Prod.mk.inj (Outcome.done.inj hstep)
        exact h.act (h.sock z) (fun _ hp => hp) (by simp)
  | connect z destination e out hstep =>
    simp only [step] at hstep
    split_ifs at hstep
    obtain ⟨rfl, rfl⟩ := Prod.mk.inj (Outcome.done.inj hstep)
    refine h.act (install_small (h.sock z) rfl none) (fun _ hp => hp) fun p hp => ?_
    rw [List.mem_singleton.mp hp]
    exact Nat.zero_le _

theorem Reachable.small (h : Reachable s) (hnum : s.Numbered) : s.Small := by
  induction h with
  | refl =>
    exact ⟨fun x a sk hsk => by simp [Sys.start, Endpoint.start] at hsk,
      fun x p hp => by simp [Sys.start] at hp⟩
  | tail hrun hstep ih =>
    have hnum₀ := hstep.numbered hnum
    exact hstep.small (Reachable.inv hrun hnum₀) hnum₀ (ih hnum₀)

end Steps

/-! ## Flow control -/

section Flow

variable {s : Sys} {o : Bool} {c : Bool → Nat}

def Packet.isWrte : Packet → Bool
  | .wrte .. => true
  | _ => false

theorem countP_inbox (id : Nat) (ps : List Packet) :
    ((inbox id ps).filterMap Packet.kind).countP Msg.isData = (inbox id ps).countP Packet.isWrte := by
  induction inbox id ps with
  | nil => rfl
  | cons p ps ih =>
    cases p <;>
      simp [List.filterMap_cons, List.countP_cons, Packet.kind, Packet.isWrte, Msg.isData, ih]

/-- One `A_WRTE` of each direction of a stream is on the way at most, and none while the open
socket that receives it has a packet in its queue. -/
theorem streams_flow (h : Reachable s) (hnum : s.Numbered) (hj : Joined s o c) (x : Bool) :
    (inbox (c (!x) + 1) (s.toward !x)).countP Packet.isWrte ≤ 1 ∧
    ∀ sk ∈ (s.ends !x).sock (c !x), sk.closing = false →
      (inbox (c (!x) + 1) (s.toward !x)).countP Packet.isWrte + sk.pkts.length ≤ 1 := by
  have hinv := h.inv hnum
  have hone := (hinv.streams o c hj).inv.one_outstanding x
  have hcount : ((view s c).toward !x).countP Msg.isData =
      (inbox (c (!x) + 1) (s.toward !x)).countP Packet.isWrte := countP_inbox _ _
  rw [hcount] at hone
  refine ⟨(Nat.le_add_right _ _).trans hone, fun sk hsk hopen => ?_⟩
  obtain ⟨-, howes⟩ := view_open hsk hopen
  obtain ⟨hqueue, -⟩ := (h.small hnum).sock _ _ sk hsk
  have hwrite := ((hinv.ok !x).ok _ sk hsk).write
  rw [howes] at hone
  cases hfde : sk.fde.write with
  | false =>
    have hnil : sk.pkts = [] := by
      by_contra hne
      exact Bool.false_ne_true (hfde.symm.trans (hwrite.mpr hne))
    rw [hnil]
    exact (Nat.le_add_right _ _).trans hone
  | true =>
    rw [hfde] at hone
    exact (Nat.add_le_add_left hqueue _).trans hone

theorem streams_flow_sample :
    (inbox 1 (sampleClosed.toward false)).countP Packet.isWrte ≤ 1 ∧
    ∀ sk ∈ (sampleClosed.ends false).sock 0, sk.closing = false →
      (inbox 1 (sampleClosed.toward false)).countP Packet.isWrte + sk.pkts.length ≤ 1 :=
  streams_flow sampleClosed_reachable sampleClosed_numbered sampleClosed_joined true

/-- No queue has more than one packet, and no packet has more than `MAX_PAYLOAD` bytes. -/
theorem sockets_small (h : Reachable s) (hnum : s.Numbered) (x : Bool) :
    (∀ a, ∀ sk ∈ (s.ends x).sock a, sk.pkts.length ≤ 1 ∧ ∀ p ∈ sk.pkts, p.length ≤ MAX_PAYLOAD) ∧
    ∀ p ∈ s.toward x, p.payload.length ≤ MAX_PAYLOAD :=
  ⟨fun a sk hsk => (h.small hnum).sock x a sk hsk, (h.small hnum).packets x⟩

theorem sockets_small_sample : (∀ a, ∀ sk ∈ (sampleClosed.ends false).sock a,
    sk.pkts.length ≤ 1 ∧ ∀ p ∈ sk.pkts, p.length ≤ MAX_PAYLOAD) ∧
    ∀ p ∈ sampleClosed.toward false, p.payload.length ≤ MAX_PAYLOAD :=
  sockets_small sampleClosed_reachable sampleClosed_numbered false

/-- Whatever an endpoint does next, it does not follow a null pointer. -/
theorem steps_return (h : Reachable s) (hnum : s.Numbered) (x : Bool) (act : Action)
    (hfits : ∀ dest, act = .connect dest → destinationFits dest) :
    ∃ e out, step (s.ends x) act = .done (e, out) := by
  have hinv := h.inv hnum
  have hpeer : ∀ a, ∀ sk ∈ (s.ends x).sock a, sk.fde.evWrite = true → sk.closing = false →
      sk.peer.isSome := by
    intro a sk hsk hev hopen
    have hwrite := ((hinv.ok x).ok a sk hsk).evWrite hev
    by_contra hnone
    have hpeer : sk.peer = none := by simpa using hnone
    rcases hinv.place ((hinv.ok x).lt a sk hsk) with hu | ⟨o, c, hj, rfl⟩
    · -- no `A_OKAY` came yet, and nothing was asked of `select`
      rw [hinv.waiting_sock hu hsk] at hwrite
      cases hwrite
    · obtain ⟨-, hnowrite, -⟩ := (hinv.streams o c hj).opening hsk hopen hpeer
      exact Bool.false_ne_true (hnowrite.symm.trans hwrite)
  obtain ⟨e, out, hstep, -⟩ := step_ok (hinv.ok x) hpeer act hfits
  exact ⟨e, out, hstep⟩

theorem steps_return_sample : ∃ e out,
    step (sampleClosed.ends false) (.packet (.wrte 1 1 [1, 2]) ⟨true, [.wrote 1, .eagain]⟩) =
      .done (e, out) :=
  steps_return sampleClosed_reachable sampleClosed_numbered false _ (by simp)

end Flow

end BootableRecovery.Minadbd
