import BootableRecovery.Lib.CString
import BootableRecovery.Lib.StopAndWait

/-!
# `minadbd`: sockets, packets and the event loop

A local socket binds a file descriptor to the protocol. Its events come from the
descriptor (`local_socket_event_func`) and from packets (`handle_packet`), and it answers
with packets to the remote socket that it is connected to. A remote socket has no state
of its own beyond its identifier, so that it is modelled by that.

Sockets are numbered in the order in which they are installed; the number stands for the
pointer and for the descriptor. What `adb_read` and `adb_write` answer is given with each
event, and behind the last answer the descriptor would block. The transport is online;
`force_eof` is never set, and no descriptor becomes bad.

Main result:
* `run_ok`: the table of sockets stays in order, and no pointer is null where it is used,
  whatever packets come and whatever the descriptors do.
-/

namespace BootableRecovery.Minadbd

def MAX_PAYLOAD : Nat := 4096

/-! ## `fdevent.c` -/

/-- `FDE_READ` and `FDE_WRITE` in `state` and in `events`. `FDE_PENDING` is set as long as
`events` is not zero. -/
structure FdEvent where
  read : Bool
  write : Bool
  evRead : Bool
  evWrite : Bool
  deriving DecidableEq, Repr

def fdeventInstall : FdEvent := ⟨false, false, false, false⟩

/-- `fdevent_set`. Of the pending events, those that are wanted are cleared. -/
def fdeventSet (fde : FdEvent) (read write : Bool) : FdEvent :=
  if fde.read = read ∧ fde.write = write then fde
  else ⟨read, write, fde.evRead && !read, fde.evWrite && !write⟩

/-- `fdevent_add` and `fdevent_del`, with one event each -/
def fdeventAddRead (fde : FdEvent) : FdEvent := fdeventSet fde true fde.write
def fdeventAddWrite (fde : FdEvent) : FdEvent := fdeventSet fde fde.read true
def fdeventDelRead (fde : FdEvent) : FdEvent := fdeventSet fde false fde.write
def fdeventDelWrite (fde : FdEvent) : FdEvent := fdeventSet fde fde.read false

/-- `fdevent_process`, for a descriptor that `select` reports for these events -/
def fdeventSelect (fde : FdEvent) (read write : Bool) : FdEvent :=
  { fde with
    evRead := fde.evRead || (fde.read && read)
    evWrite := fde.evWrite || (fde.write && write) }

/-! ## Packets and sockets -/

/-- The commands that concern streams. The device sends `arg0 = 0` in `A_CLSE`. -/
inductive Packet where
  | open (arg0 arg1 : Nat) (data : Bytes)
  | okay (arg0 arg1 : Nat)
  | clse (arg0 arg1 : Nat)
  | wrte (arg0 arg1 : Nat) (data : Bytes)
  deriving DecidableEq, Repr

/-- A local socket. `peer` is the identifier of the remote socket, and `pkts` has what is
left of each packet of the queue. -/
structure ASocket where
  id : Nat
  closing : Bool
  peer : Option Nat
  fde : FdEvent
  pkts : List Bytes
  deriving DecidableEq, Repr

/-- What one `adb_write` answers. -/
inductive WriteAns where
  | wrote (n : Nat)
  | eagain
  | eintr
  | failed
  deriving DecidableEq, Repr

/-- What one `adb_read` answers; no bytes are the end of the file. -/
inductive ReadAns where
  | got (b : Bytes)
  | eagain
  | eintr
  | failed
  deriving DecidableEq, Repr

/-- How a loop of writes ends. -/
inductive WriteEnd where
  | sent
  | again
  | failed
  deriving DecidableEq, Repr

/-- The loop that writes one packet: what is written, what is left, how it ends and the
answers that are left. `intr` says whether the loop goes on after `EINTR`. -/
def writePacket (intr : Bool) : List WriteAns → Bytes → Bytes × Bytes × WriteEnd × List WriteAns
  | as, [] => ([], [], .sent, as)
  | [], b => ([], b, .again, [])
  | .wrote n :: as, b =>
    if n = 0 then ([], b, .failed, as)
    else
      let (w, left, stop, as) := writePacket intr as (b.drop n)
      (b.take n ++ w, left, stop, as)
  | .eagain :: as, b => ([], b, .again, as)
  | .eintr :: as, b => if intr then writePacket intr as b else ([], b, .failed, as)
  | .failed :: as, b => ([], b, .failed, as)

/-- The loop over the queue in `local_socket_event_func`. -/
def writeQueue : List WriteAns → List Bytes → Bytes × List Bytes × WriteEnd
  | _, [] => ([], [], .sent)
  | as, p :: pkts =>
    match writePacket true as p with
    | (w, _, .sent, as) =>
      let (w', pkts', stop) := writeQueue as pkts
      (w ++ w', pkts', stop)
    | (w, left, stop, _) => (w, left :: pkts, stop)

/-- The loop of reads in `local_socket_event_func`, with `is_eof`. -/
def readPacket : List ReadAns → Nat → Bytes × Bool
  | [], _ => ([], false)
  | ans :: as, avail =>
    if avail = 0 then ([], false)
    else
      match ans with
      | .got [] => ([], true)
      | .got b =>
        let x := b.take avail
        let (d, is_eof) := readPacket as (avail - x.length)
        (x ++ d, is_eof)
      | .eagain => ([], false)
      | .eintr => readPacket as avail
      | .failed => ([], true)

/-! ## What a call does with a socket -/

/-- The socket after a call, when it still exists, the packets that were sent, and what was
written to the descriptor, read from it and given up. -/
structure Effect where
  sock : Option ASocket
  out : List Packet
  wrote : Bytes
  read : Bytes
  lost : Bytes
  deriving DecidableEq, Repr

/-- One call behind another. -/
def Effect.andThen (r : Effect) (f : ASocket → Effect) : Effect :=
  match r.sock with
  | none => r
  | some s =>
    let r' := f s
    ⟨r'.sock, r.out ++ r'.out, r.wrote ++ r'.wrote, r.read ++ r'.read, r.lost ++ r'.lost⟩

def Effect.keep (s : ASocket) : Effect := ⟨some s, [], [], [], []⟩

def Effect.write (s : ASocket) (w : Bytes) : Effect := ⟨some s, [], w, [], []⟩

def Effect.send (s : ASocket) (p : Packet) (read : Bytes) : Effect := ⟨some s, [p], [], read, []⟩

/-- `local_socket_close_locked`. The peer is cleared before its `close` is called, which
sends the packet. Without packets, or when it closes already, the socket is destroyed. -/
def localSocketClose (s : ASocket) : Effect :=
  let out := s.peer.toList.map (Packet.clse 0)
  if s.closing = true ∨ s.pkts = [] then ⟨none, out, [], [], s.pkts.flatten⟩
  else
    ⟨some { s with peer := none, closing := true, id := 0, fde := fdeventDelRead s.fde },
      out, [], [], []⟩

/-- `local_socket_ready` -/
def localSocketReady (s : ASocket) : ASocket := { s with fde := fdeventAddRead s.fde }

/-- `local_socket_enqueue`, and whether the socket is ready for more. `EINTR` is an error
here. -/
def localSocketEnqueue (s : ASocket) (data : Bytes) (as : List WriteAns) : Effect × Bool :=
  if s.pkts ≠ [] then
    (.keep { s with pkts := s.pkts ++ [data], fde := fdeventAddWrite s.fde }, false)
  else
    match writePacket false as data with
    | (w, _, .sent, _) => (.write s w, true)
    | (w, left, .again, _) =>
      (.write { s with pkts := [left], fde := fdeventAddWrite s.fde } w, false)
    | (w, left, .failed, _) =>
      ((Effect.write s w).andThen fun s => { localSocketClose s with lost := left }, false)

/-- The part of `local_socket_event_func` for `FDE_WRITE`, and whether the function goes on
behind it. -/
def eventWrite (s : ASocket) (as : List WriteAns) : Outcome (Effect × Bool) :=
  match writeQueue as s.pkts with
  | (w, pkts, .again) => .done (.write { s with pkts := pkts } w, false)
  | (w, pkts, .failed) =>
    .done ((Effect.write { s with pkts := pkts } w).andThen localSocketClose, false)
  | (w, pkts, .sent) =>
    let r := Effect.write { s with pkts := pkts } w
    if s.closing then .done (r.andThen localSocketClose, false)
    else
      match s.peer with
      | none => .fault
      | some peer =>
        .done (r.andThen fun s =>
          .send { s with fde := fdeventDelWrite s.fde } (.okay s.id peer) [], true)

/-- The part for `FDE_READ`. `remote_socket_enqueue` sends the packet and answers 1. -/
def eventRead (s : ASocket) (as : List ReadAns) : Effect :=
  let (d, is_eof) := readPacket as MAX_PAYLOAD
  let sent : Effect :=
    match s.peer with
    | none => .keep s
    | some peer =>
      if d = [] then .keep s
      else .send { s with fde := fdeventDelRead s.fde } (.wrte s.id peer d) d
  sent.andThen fun s => if is_eof then localSocketClose s else .keep s

/-- `local_socket_event_func` -/
def localSocketEventFunc (s : ASocket) (evRead evWrite : Bool) (ws : List WriteAns)
    (rs : List ReadAns) : Outcome Effect := do
  let (r, goesOn) ← if evWrite then eventWrite s ws else .done (.keep s, true)
  .done (if goesOn && evRead then r.andThen fun s => eventRead s rs else r)

/-- `fde->events = 0` -/
def ASocket.takeEvents (s : ASocket) : ASocket :=
  { s with fde := { s.fde with evRead := false, evWrite := false } }

/-- `fdevent_call_fdfunc` -/
def fdeventCallFdfunc (s : ASocket) (ws : List WriteAns) (rs : List ReadAns) : Outcome Effect :=
  localSocketEventFunc s.takeEvents s.fde.evRead s.fde.evWrite ws rs

/-! ## The table of sockets -/

/-- What has happened to a socket: `opener` is `arg0` of the `A_OPEN` that made it, `read`,
`wrote` and `lost` collect the effects, and `finished` says that `A_CLSE` found it. -/
structure SocketLog where
  opener : Option Nat
  read : Bytes
  wrote : Bytes
  lost : Bytes
  finished : Bool
  deriving DecidableEq, Repr

def SocketLog.new : SocketLog := ⟨none, [], [], [], false⟩

def SocketLog.add (l : SocketLog) (r : Effect) : SocketLog :=
  { l with read := l.read ++ r.read, wrote := l.wrote ++ r.wrote, lost := l.lost ++ r.lost }

/-- `made` counts the calls of `install_local_socket`, and `socks` is `local_socket_list`. -/
structure Endpoint where
  made : Nat
  socks : List Nat
  sock : Nat → Option ASocket
  log : Nat → SocketLog

namespace Endpoint

def start : Endpoint := ⟨0, [], fun _ => none, fun _ => .new⟩

/-- `local_socket_next_id`, which starts with 1 -/
def localSocketNextId (e : Endpoint) : Nat := (e.made + 1) % 2 ^ 32

/-- `find_local_socket` -/
def findLocalSocket (e : Endpoint) (id : Nat) : Option (Nat × ASocket) :=
  e.socks.findSome? fun a => (e.sock a).bind fun s => if s.id = id then some (a, s) else none

/-- `create_local_socket`, with the fields that its callers set at once -/
def install (e : Endpoint) (s : ASocket) (opener : Option Nat) : Endpoint where
  made := e.made + 1
  socks := e.socks ++ [e.made]
  sock := Function.update e.sock e.made (some s)
  log := Function.update e.log e.made { SocketLog.new with opener := opener }

/-- The socket `a` after a call. One that closes or is destroyed leaves the list. -/
def put (e : Endpoint) (a : Nat) (r : Effect) : Endpoint where
  made := e.made
  socks := if r.sock.any (!·.closing) then e.socks else e.socks.erase a
  sock := Function.update e.sock a r.sock
  log := Function.update e.log a ((e.log a).add r)

def setFinished (e : Endpoint) (a : Nat) : Endpoint :=
  { e with log := Function.update e.log a { e.log a with finished := true } }

end Endpoint

/-- What is outside and matters to a packet: whether the thread of a service can be made, and
the answers of the descriptor. -/
structure PacketEnv where
  threadOk : Bool
  writes : List WriteAns
  deriving DecidableEq, Repr

/-- `service_to_fd` returns a descriptor. -/
def serviceToFd (name : Bytes) (threadOk : Bool) : Bool :=
  (ascii "sideload:").isPrefixOf name && threadOk

/-- The name in the data of `A_OPEN`: the last byte is overwritten. -/
def openName (data : Bytes) : Bytes := cstr (data.set (data.length - 1) 0 ++ [0])

/-- `handle_packet`, and the packets that are sent -/
def handlePacket (e : Endpoint) (env : PacketEnv) : Packet → Endpoint × List Packet
  | .open arg0 _ data =>
    if serviceToFd (openName data) env.threadOk then
      let id := e.localSocketNextId
      (e.install ⟨id, false, some arg0, fdeventAddRead fdeventInstall, []⟩ (some arg0),
        [.okay id arg0])
    else (e, [.clse 0 arg0])
  | .okay arg0 arg1 =>
    match e.findLocalSocket arg1 with
    | none => (e, [])
    | some (a, s) =>
      let s := if s.peer = none then { s with peer := some arg0 } else s
      (e.put a (.keep (localSocketReady s)), [])
  | .clse _ arg1 =>
    match e.findLocalSocket arg1 with
    | none => (e, [])
    | some (a, s) =>
      let r := localSocketClose s
      ((e.put a r).setFinished a, r.out)
  | .wrte arg0 arg1 data =>
    match e.findLocalSocket arg1 with
    | none => (e, [])
    | some (a, s) =>
      let (r, ready) := localSocketEnqueue s data env.writes
      (e.put a r, r.out ++ if ready then [.okay s.id arg0] else [])

/-- `create_local_socket` and `connect_to_remote` -/
def connectToRemote (e : Endpoint) (destination : Bytes) : Endpoint × List Packet :=
  let id := e.localSocketNextId
  (e.install ⟨id, false, none, fdeventInstall, []⟩ none, [.open id 0 (destination ++ [0])])

/-- What the event loop does next: it asks `select`, whose answer is about one descriptor
here, it calls the function of a pending socket, it has a packet, or the program connects. -/
inductive Action where
  | select (a : Nat) (read write : Bool)
  | call (a : Nat) (ws : List WriteAns) (rs : List ReadAns)
  | packet (p : Packet) (env : PacketEnv)
  | connect (destination : Bytes)
  deriving DecidableEq, Repr

/-- A destination and its NUL fit in a packet. -/
def destinationFits (destination : Bytes) : Prop := destination.length + 1 ≤ MAX_PAYLOAD - 1

instance : DecidablePred destinationFits := fun _ => inferInstanceAs (Decidable (_ ≤ _))

/-- A step of an endpoint, and the packets that it sends. -/
def step (e : Endpoint) : Action → Outcome (Endpoint × List Packet)
  | .select a read write =>
    match e.sock a with
    | none => .done (e, [])
    | some s => .done (e.put a (.keep { s with fde := fdeventSelect s.fde read write }), [])
  | .call a ws rs =>
    match e.sock a with
    | none => .done (e, [])
    | some s =>
      if s.fde.evRead || s.fde.evWrite then do
        let r ← fdeventCallFdfunc s ws rs
        .done (e.put a r, r.out)
      else .done (e, [])
  | .packet p env => .done (handlePacket e env p)
  | .connect destination =>
    -- `fatal("destination oversized")` ends the program
    if destinationFits destination then .done (connectToRemote e destination) else .fault

/-! ## The loops -/

section Loops

variable {intr : Bool} {as rest : List WriteAns} {b w left : Bytes} {stop : WriteEnd}

/-- What is written and what is left make up the packet; nothing is left if and only if
everything is sent. -/
theorem writePacket_spec (h : writePacket intr as b = (w, left, stop, rest)) :
    w ++ left = b ∧ (stop = .sent ↔ left = []) := by
  induction as generalizing b w with
  | nil =>
    cases b with
    | nil =>
      cases h
      simp
    | cons c b =>
      cases h
      simp
  | cons ans as ih =>
    cases b with
    | nil =>
      cases h
      simp
    | cons c b =>
      cases ans with
      | wrote n =>
        rw [writePacket.eq_def] at h
        simp only at h
        split_ifs at h with hn
        · cases h
          simp
        · obtain ⟨w', left', stop', rest', hrec⟩ :
              ∃ w' left' stop' rest', writePacket intr as ((c :: b).drop n)
                = (w', left', stop', rest') := ⟨_, _, _, _, rfl⟩
          rw [hrec] at h
          cases h
          obtain ⟨hall, hstop⟩ := ih hrec
          exact ⟨by rw [List.append_assoc, hall, List.take_append_drop], hstop⟩
      | eagain =>
        cases h
        simp
      | eintr =>
        rw [writePacket.eq_def] at h
        simp only at h
        split_ifs at h with hintr
        · exact ih h
        · cases h
          simp
      | failed =>
        cases h
        simp

/-- The same for the queue. -/
theorem writeQueue_spec {pkts pkts' : List Bytes} (h : writeQueue as pkts = (w, pkts', stop)) :
    w ++ pkts'.flatten = pkts.flatten ∧ (stop = .sent ↔ pkts' = []) := by
  induction pkts generalizing as w with
  | nil =>
    cases h
    simp
  | cons p pkts ih =>
    obtain ⟨w₁, left, stop₁, as', hp⟩ :
        ∃ w₁ left stop₁ as', writePacket true as p = (w₁, left, stop₁, as') := ⟨_, _, _, _, rfl⟩
    obtain ⟨hall, hstop⟩ := writePacket_spec hp
    rw [writeQueue, hp] at h
    cases stop₁ with
    | sent =>
      obtain ⟨w₂, pkts₂, stop₂, hrec⟩ :
          ∃ w₂ pkts₂ stop₂, writeQueue as' pkts = (w₂, pkts₂, stop₂) := ⟨_, _, _, rfl⟩
      simp only [hrec] at h
      cases h
      obtain ⟨hrest, hend⟩ := ih hrec
      obtain rfl : left = [] := hstop.mp rfl
      exact ⟨by rw [List.append_assoc, hrest, List.flatten_cons, ← hall, List.append_nil], hend⟩
    | again =>
      cases h
      exact ⟨by rw [List.flatten_cons, ← List.append_assoc, hall, List.flatten_cons], by simp⟩
    | failed =>
      cases h
      exact ⟨by rw [List.flatten_cons, ← List.append_assoc, hall, List.flatten_cons], by simp⟩

end Loops

/-! ## What every call keeps -/

/-- A socket waits to write if and only if it has packets, and one that closes has packets, no
peer and does not wait to read. An event that is no longer wanted can be pending only for a
socket that closes. -/
structure ASocket.Ok (s : ASocket) : Prop where
  write : s.fde.write = true ↔ s.pkts ≠ []
  evWrite : s.fde.evWrite = true → s.fde.write = true
  evRead : s.closing = false → s.fde.evRead = true → s.fde.read = true
  closing : s.closing = true → s.peer = none ∧ s.pkts ≠ [] ∧ s.fde.read = false

/-- What a call leaves of the socket is in order; it does not open a socket again, and it
does not change who a socket is that stays open. -/
structure ASocket.Keeps (s : ASocket) (left : Option ASocket) : Prop where
  ok : ∀ s' ∈ left, s'.Ok
  opened : ∀ s' ∈ left, s'.closing = false →
    s.closing = false ∧ s'.id = s.id ∧ (s.peer.isSome → s'.peer.isSome)

section Calls

variable {s : ASocket}

theorem ASocket.Ok.keeps (h : s.Ok) : s.Keeps (some s) where
  ok s' hs' := by
    cases hs'
    exact h
  opened s' hs' hopen := by
    cases hs'
    exact ⟨hopen, rfl, fun hp => hp⟩

theorem ASocket.keeps_none : s.Keeps none := ⟨by simp, by simp⟩

theorem ASocket.Ok.ready (h : s.Ok) (hopen : s.closing = false) : (localSocketReady s).Ok where
  write := by
    unfold localSocketReady fdeventAddRead fdeventSet
    split_ifs <;> exact h.write
  evWrite := by
    unfold localSocketReady fdeventAddRead fdeventSet
    split_ifs
    · exact h.evWrite
    · intro hev
      exact h.evWrite (Bool.and_eq_true_iff.mp hev).1
  evRead _ := by
    unfold localSocketReady fdeventAddRead fdeventSet
    split_ifs
    · exact h.evRead hopen
    · exact fun _ => rfl
  closing hclosing := absurd (hopen.symm.trans hclosing) (by simp)

/-- A socket with another queue that is not empty either. -/
theorem ASocket.Ok.withPkts (h : s.Ok) {pkts : List Bytes} (hpkts : pkts ≠ []) (hwas : s.pkts ≠ []) :
    ({ s with pkts := pkts } : ASocket).Ok where
  write := iff_of_true (h.write.mpr hwas) hpkts
  evWrite := h.evWrite
  evRead := h.evRead
  closing hc := ⟨(h.closing hc).1, hpkts, (h.closing hc).2.2⟩

theorem ASocket.Ok.addWrite (h : s.Ok) (hopen : s.closing = false) {pkts : List Bytes}
    (hpkts : pkts ≠ []) : ({ s with pkts := pkts, fde := fdeventAddWrite s.fde } : ASocket).Ok where
  write := by
    unfold fdeventAddWrite fdeventSet
    split_ifs with hsame
    · exact iff_of_true hsame.2 hpkts
    · exact iff_of_true rfl hpkts
  evWrite _ := by
    unfold fdeventAddWrite fdeventSet
    split_ifs with hsame
    · exact hsame.2
    · rfl
  evRead _ := by
    unfold fdeventAddWrite fdeventSet
    split_ifs with hsame
    · exact h.evRead hopen
    · intro hev
      exact h.evRead hopen (Bool.and_eq_true_iff.mp hev).1
  closing hc := absurd (hopen.symm.trans hc) (by simp)

theorem ASocket.Ok.delWrite (h : s.Ok) (hopen : s.closing = false) (hev : s.fde.evWrite = false) :
    ({ s with pkts := [], fde := fdeventDelWrite s.fde } : ASocket).Ok where
  write := by
    unfold fdeventDelWrite fdeventSet
    split_ifs with hsame
    · simp [hsame.2]
    · simp
  evWrite := by
    unfold fdeventDelWrite fdeventSet
    split_ifs <;> simp [hev]
  evRead _ := by
    unfold fdeventDelWrite fdeventSet
    split_ifs with hsame
    · exact h.evRead hopen
    · intro hevr
      exact h.evRead hopen (Bool.and_eq_true_iff.mp hevr).1
  closing hc := absurd (hopen.symm.trans hc) (by simp)

theorem fdeventDelRead_read (fde : FdEvent) : (fdeventDelRead fde).read = false := by
  unfold fdeventDelRead fdeventSet
  split_ifs with hsame
  · exact hsame.1
  · rfl

theorem fdeventDelRead_write (fde : FdEvent) : (fdeventDelRead fde).write = fde.write := by
  unfold fdeventDelRead fdeventSet
  split_ifs <;> rfl

theorem localSocketClose_keeps (h : s.Ok) : s.Keeps (localSocketClose s).sock := by
  unfold localSocketClose
  split_ifs with hgone
  · exact ASocket.keeps_none
  · obtain ⟨-, hpkts⟩ := not_or.mp hgone
    have hwrite : (fdeventDelRead s.fde).write = true :=
      (fdeventDelRead_write _).trans (h.write.mpr hpkts)
    refine ⟨fun s' hs' => ?_, fun s' hs' hopen => ?_⟩
    · cases hs'
      exact {
        write := iff_of_true hwrite hpkts
        evWrite := fun _ => hwrite
        evRead := fun hc => nomatch hc
        closing := fun _ => ⟨rfl, hpkts, fdeventDelRead_read _⟩ }
    · cases hs'
      cases hopen

/-- Only what tells the socket from others matters. -/
theorem ASocket.Keeps.of_same {s₀ : ASocket} {left : Option ASocket} (h : s.Keeps left)
    (hclosing : s.closing = s₀.closing) (hid : s.id = s₀.id) (hpeer : s.peer = s₀.peer) :
    s₀.Keeps left where
  ok := h.ok
  opened := by
    rw [← hclosing, ← hid, ← hpeer]
    exact h.opened

theorem localSocketEnqueue_keeps (h : s.Ok) (hopen : s.closing = false) (data : Bytes)
    (as : List WriteAns) : s.Keeps (localSocketEnqueue s data as).1.sock := by
  unfold localSocketEnqueue
  split_ifs with hpkts
  · have hadd := h.addWrite hopen (List.append_ne_nil_of_right_ne_nil s.pkts (List.cons_ne_nil data []))
    exact hadd.keeps.of_same rfl rfl rfl
  · split
    · exact h.keeps
    · next w left _ _ =>
      exact (h.addWrite hopen (List.cons_ne_nil left [])).keeps.of_same rfl rfl rfl
    · exact localSocketClose_keeps h

/-- The part for `FDE_WRITE` only runs for a socket that has packets. Where an open one has a
peer, no pointer is null. -/
theorem eventWrite_keeps (h : s.Ok) (hev : s.fde.evWrite = false) (hwrite : s.fde.write = true)
    (hpeer : s.closing = false → s.peer.isSome) (as : List WriteAns) :
    ∃ r goesOn, eventWrite s as = .done (r, goesOn) ∧ s.Keeps r.sock := by
  have hwas : s.pkts ≠ [] := h.write.mp hwrite
  obtain ⟨w, pkts, stop, hq⟩ : ∃ w pkts stop, writeQueue as s.pkts = (w, pkts, stop) :=
    ⟨_, _, _, rfl⟩
  obtain ⟨-, hstop⟩ := writeQueue_spec hq
  unfold eventWrite
  rw [hq]
  cases stop with
  | again =>
    have hpkts : pkts ≠ [] := fun hnil => nomatch hstop.mpr hnil
    refine ⟨_, _, rfl, ?_⟩
    exact (h.withPkts hpkts hwas).keeps.of_same rfl rfl rfl
  | failed =>
    have hpkts : pkts ≠ [] := fun hnil => nomatch hstop.mpr hnil
    refine ⟨_, _, rfl, ?_⟩
    exact (localSocketClose_keeps (h.withPkts hpkts hwas)).of_same rfl rfl rfl
  | sent =>
    obtain rfl : pkts = [] := hstop.mp rfl
    cases hclosing : s.closing with
    | true =>
      refine ⟨_, _, rfl, ?_⟩
      simpa [Effect.andThen, Effect.write, localSocketClose] using ASocket.keeps_none
    | false =>
      obtain ⟨r, hr⟩ := Option.isSome_iff_exists.mp (hpeer hclosing)
      simp only [hr, Bool.false_eq_true, if_false]
      refine ⟨_, _, rfl, ?_⟩
      have hok := h.delWrite hclosing hev
      rw [hclosing, hr] at hok
      exact hok.keeps.of_same hclosing.symm rfl hr.symm

/-- The function only goes on with an open socket, whose queue is empty now. -/
theorem eventWrite_goes_on {as : List WriteAns} {r : Effect} (h : eventWrite s as = .done (r, true)) :
    s.closing = false ∧ r.sock = some { s with pkts := [], fde := fdeventDelWrite s.fde } := by
  obtain ⟨w, pkts, stop, hq⟩ : ∃ w pkts stop, writeQueue as s.pkts = (w, pkts, stop) :=
    ⟨_, _, _, rfl⟩
  obtain ⟨-, hstop⟩ := writeQueue_spec hq
  unfold eventWrite at h
  rw [hq] at h
  cases stop with
  | again => simp at h
  | failed => simp at h
  | sent =>
    cases hclosing : s.closing with
    | true => simp [hclosing] at h
    | false =>
      cases hpeer : s.peer with
      | none => simp [hclosing, hpeer] at h
      | some p =>
        simp only [hclosing, hpeer, Bool.false_eq_true, if_false, Outcome.done.injEq,
          Prod.mk.injEq] at h
        obtain ⟨rfl, -⟩ := h
        obtain rfl : pkts = [] := hstop.mp rfl
        exact ⟨rfl, rfl⟩

theorem ASocket.Ok.delRead (h : s.Ok) (hopen : s.closing = false) (hev : s.fde.evRead = false) :
    ({ s with fde := fdeventDelRead s.fde } : ASocket).Ok where
  write := by
    rw [fdeventDelRead_write]
    exact h.write
  evWrite := by
    rw [fdeventDelRead_write]
    unfold fdeventDelRead fdeventSet
    split_ifs
    · exact h.evWrite
    · intro hev
      exact h.evWrite (Bool.and_eq_true_iff.mp hev).1
  evRead _ := by
    unfold fdeventDelRead fdeventSet
    split_ifs <;> simp [hev]
  closing hc := absurd (hopen.symm.trans hc) (by simp)

theorem Effect.andThen_keeps {r : Effect} {f : ASocket → Effect} (h : s.Keeps r.sock)
    (hf : ∀ s', s.Keeps (some s') → s.Keeps (f s').sock) : s.Keeps (r.andThen f).sock := by
  unfold Effect.andThen
  cases hsock : r.sock with
  | none =>
    simp only
    rw [hsock]
    exact ASocket.keeps_none
  | some s' => exact hf s' (hsock ▸ h)

/-- One call behind another keeps what the first one has to keep. -/
theorem ASocket.Keeps.trans {s' : ASocket} {left : Option ASocket} (h : s.Keeps (some s'))
    (h' : s'.Keeps left) : s.Keeps left where
  ok := h'.ok
  opened s'' hs'' hopen := by
    obtain ⟨hopen', hid', hpeer'⟩ := h'.opened s'' hs'' hopen
    obtain ⟨hopens, hid, hpeer⟩ := h.opened s' rfl hopen'
    exact ⟨hopens, hid'.trans hid, fun hp => hpeer' (hpeer hp)⟩

theorem eventRead_keeps (h : s.Ok) (hev : s.fde.evRead = false) (as : List ReadAns) :
    s.Keeps (eventRead s as).sock := by
  unfold eventRead
  simp only
  refine Effect.andThen_keeps ?_ fun s' hs' => ?_
  · split
    · exact h.keeps
    · next r hpeer =>
      split_ifs
      · exact h.keeps
      · have hopen : s.closing = false := by
          cases hclosing : s.closing with
          | false => rfl
          | true => simp [(h.closing hclosing).1] at hpeer
        exact (h.delRead hopen hev).keeps.of_same rfl rfl rfl
  · have hok : s'.Ok := hs'.ok s' rfl
    split_ifs
    · exact hs'.trans (localSocketClose_keeps hok)
    · exact hs'

theorem ASocket.Ok.takeEvents (h : s.Ok) : s.takeEvents.Ok where
  write := h.write
  evWrite := by simp [ASocket.takeEvents]
  evRead := by simp [ASocket.takeEvents]
  closing := h.closing

/-- The function of a pending socket returns and keeps it in order. -/
theorem fdeventCallFdfunc_keeps (h : s.Ok)
    (hpeer : s.fde.evWrite = true → s.closing = false → s.peer.isSome) (ws : List WriteAns) (rs : List ReadAns) :
    ∃ r, fdeventCallFdfunc s ws rs = .done r ∧ s.Keeps r.sock := by
  have hok : s.takeEvents.Ok := h.takeEvents
  have hsame : ∀ {left}, s.takeEvents.Keeps left → s.Keeps left := fun hk => hk.of_same rfl rfl rfl
  have hread : s.takeEvents.Keeps (eventRead s.takeEvents rs).sock := eventRead_keeps hok rfl rs
  unfold fdeventCallFdfunc localSocketEventFunc
  cases hevw : s.fde.evWrite with
  | false =>
    refine ⟨_, rfl, hsame ?_⟩
    split_ifs
    · exact hread
    · exact hok.keeps
  | true =>
    obtain ⟨r, goesOn, hr, hk⟩ := eventWrite_keeps hok rfl (h.evWrite hevw) (hpeer hevw) ws
    rw [if_pos rfl, hr, Outcome.done_bind]
    refine ⟨_, rfl, hsame ?_⟩
    split_ifs with hgo
    · obtain ⟨rfl, -⟩ := Bool.and_eq_true_iff.mp hgo
      obtain ⟨hopen, hsock⟩ := eventWrite_goes_on hr
      unfold Effect.andThen
      rw [hsock]
      have hev : (fdeventDelWrite s.takeEvents.fde).evRead = false := by
        unfold fdeventDelWrite fdeventSet
        split_ifs <;> rfl
      rw [hsock] at hk
      exact hk.trans (eventRead_keeps (hk.ok _ rfl) hev rs)
    · exact hk

end Calls

/-! ## What every step keeps -/

/-- The list has the sockets that are open, each once and under its identifier. -/
structure Endpoint.Ok (e : Endpoint) : Prop where
  nodup : e.socks.Nodup
  mem_socks : ∀ a, a ∈ e.socks ↔ ∃ s ∈ e.sock a, s.closing = false
  ok : ∀ a, ∀ s ∈ e.sock a, s.Ok
  id : ∀ a, ∀ s ∈ e.sock a, s.closing = false → s.id = (a + 1) % 2 ^ 32
  lt : ∀ a, ∀ s ∈ e.sock a, a < e.made
  log_new : ∀ a, e.made ≤ a → e.log a = .new

section Steps

variable {e : Endpoint}

theorem start_ok : Endpoint.start.Ok where
  nodup := .nil
  mem_socks a := by simp [Endpoint.start]
  ok a s hs := by simp [Endpoint.start] at hs
  id a s hs := by simp [Endpoint.start] at hs
  lt a s hs := by simp [Endpoint.start] at hs
  log_new a _ := rfl

@[simp] theorem put_sock_self (e : Endpoint) (a : Nat) (r : Effect) : (e.put a r).sock a = r.sock :=
  Function.update_self ..

theorem put_sock_of_ne {a b : Nat} (h : b ≠ a) (e : Endpoint) (r : Effect) :
    (e.put a r).sock b = e.sock b :=
  Function.update_of_ne h ..

@[simp] theorem put_log_self (e : Endpoint) (a : Nat) (r : Effect) :
    (e.put a r).log a = (e.log a).add r :=
  Function.update_self ..

theorem put_log_of_ne {a b : Nat} (h : b ≠ a) (e : Endpoint) (r : Effect) :
    (e.put a r).log b = e.log b :=
  Function.update_of_ne h ..

theorem Endpoint.Ok.put (h : e.Ok) {a : Nat} {s : ASocket} (hs : e.sock a = some s) {r : Effect}
    (hr : s.Keeps r.sock) : (e.put a r).Ok where
  nodup := by
    unfold Endpoint.put
    simp only
    split_ifs
    · exact h.nodup
    · exact h.nodup.erase a
  mem_socks b := by
    have hsocks : b ∈ (e.put a r).socks ↔
        if b = a then ∃ s' ∈ r.sock, s'.closing = false else b ∈ e.socks := by
      unfold Endpoint.put
      simp only
      split_ifs with hopen hb hb
      · obtain ⟨s', hs', hopen'⟩ := (Option.any_eq_true _ _).mp hopen
        have hopen' : s'.closing = false := by simpa using hopen'
        subst hb
        exact iff_of_true ((h.mem_socks b).mpr ⟨s, hs, (hr.opened s' hs' hopen').1⟩) ⟨s', hs', hopen'⟩
      · rfl
      · subst hb
        refine iff_of_false (fun hmem => (h.nodup.mem_erase_iff.mp hmem).1 rfl) ?_
        rintro ⟨s', hs', hopen'⟩
        exact hopen ((Option.any_eq_true _ _).mpr ⟨s', hs', by simp [hopen']⟩)
      · rw [h.nodup.mem_erase_iff]
        exact and_iff_right hb
    rw [hsocks]
    split_ifs with hb
    · rw [hb, put_sock_self]
    · rw [put_sock_of_ne hb, h.mem_socks]
  ok b s' hs' := by
    rcases eq_or_ne b a with rfl | hb
    · rw [put_sock_self] at hs'
      exact hr.ok s' hs'
    · rw [put_sock_of_ne hb] at hs'
      exact h.ok b s' hs'
  id b s' hs' hopen := by
    rcases eq_or_ne b a with rfl | hb
    · rw [put_sock_self] at hs'
      obtain ⟨hwas, hid, -⟩ := hr.opened s' hs' hopen
      rw [hid]
      exact h.id b s hs hwas
    · rw [put_sock_of_ne hb] at hs'
      exact h.id b s' hs' hopen
  lt b s' hs' := by
    rcases eq_or_ne b a with rfl | hb
    · exact h.lt b s hs
    · rw [put_sock_of_ne hb] at hs'
      exact h.lt b s' hs'
  log_new b hb := by
    have hne : b ≠ a := (Nat.lt_of_lt_of_le (h.lt a s hs) hb).ne'
    rw [put_log_of_ne hne]
    exact h.log_new b hb

theorem Endpoint.Ok.install (h : e.Ok) {s : ASocket} (hs : s.Ok) (hopen : s.closing = false)
    (hid : s.id = e.localSocketNextId) (opener : Option Nat) : (e.install s opener).Ok := by
  have hfree : ∀ a, e.made ≤ a → e.sock a = none := by
    intro a ha
    cases hsock : e.sock a with
    | none => rfl
    | some s' => exact absurd (h.lt a s' hsock) (by omega)
  have hnew : e.made ∉ e.socks := by
    rw [h.mem_socks, hfree _ le_rfl]
    simp
  have hsock : ∀ a, (e.install s opener).sock a = if a = e.made then some s else e.sock a :=
    fun a => Function.update_apply ..
  exact {
    nodup := by
      have hconcat := List.Nodup.concat hnew h.nodup
      rwa [List.concat_eq_append] at hconcat
    mem_socks := fun a => by
      rw [hsock]
      simp only [Endpoint.install, List.mem_append, List.mem_singleton, h.mem_socks]
      split_ifs with ha
      · exact iff_of_true (.inr ha) ⟨s, rfl, hopen⟩
      · simp [ha]
    ok := fun a s' hs' => by
      rw [hsock] at hs'
      split_ifs at hs'
      · cases hs'
        exact hs
      · exact h.ok a s' hs'
    id := fun a s' hs' hopen' => by
      rw [hsock] at hs'
      split_ifs at hs' with ha
      · cases hs'
        rw [hid, ha]
        rfl
      · exact h.id a s' hs' hopen'
    lt := fun a s' hs' => by
      rw [hsock] at hs'
      split_ifs at hs' with ha
      · rw [ha]
        exact Nat.lt_succ_self _
      · exact Nat.lt_succ_of_lt (h.lt a s' hs')
    log_new := fun a ha => by
      have hne : a ≠ e.made := by
        rintro rfl
        exact absurd ha (Nat.not_succ_le_self _)
      exact (Function.update_of_ne hne ..).trans (h.log_new a (Nat.le_of_succ_le ha)) }

/-- What `find_local_socket` finds is open. -/
theorem Endpoint.Ok.find (h : e.Ok) {id a : Nat} {s : ASocket}
    (hfind : e.findLocalSocket id = some (a, s)) :
    e.sock a = some s ∧ s.closing = false ∧ s.id = id := by
  obtain ⟨b, hb, hbs⟩ := List.exists_of_findSome?_eq_some hfind
  obtain ⟨s', hs', hopen⟩ := (h.mem_socks b).mp hb
  obtain ⟨s'', hs'', hif⟩ := Option.bind_eq_some_iff.mp hbs
  obtain rfl : s' = s'' := Option.some.inj (hs'.symm.trans hs'')
  split_ifs at hif with hid
  cases hif
  exact ⟨hs'', hopen, hid⟩

/-- Every open socket has a peer. -/
def Endpoint.Connected (e : Endpoint) : Prop :=
  ∀ a, ∀ s ∈ e.sock a, s.closing = false → s.peer.isSome

theorem Endpoint.Connected.put (h : e.Connected) {a : Nat} {s : ASocket} (hs : e.sock a = some s)
    {r : Effect} (hr : s.Keeps r.sock) : (e.put a r).Connected := by
  intro b s' hs' hopen
  rcases eq_or_ne b a with rfl | hb
  · rw [put_sock_self] at hs'
    obtain ⟨hwas, -, hpeer⟩ := hr.opened s' hs' hopen
    exact hpeer (h b s hs hwas)
  · rw [put_sock_of_ne hb] at hs'
    exact h b s' hs' hopen

/-- `A_OKAY` gives a socket its peer. -/
theorem okay_keeps {s : ASocket} (h : s.Ok) (hopen : s.closing = false) (arg0 : Nat) :
    s.Keeps (some (localSocketReady (if s.peer = none then { s with peer := some arg0 } else s))) := by
  split_ifs with hpeer
  · have hok : ({ s with peer := some arg0 } : ASocket).Ok :=
      ⟨h.write, h.evWrite, h.evRead, fun hc => absurd (hopen.symm.trans hc) (by simp)⟩
    refine ⟨fun s' hs' => ?_, fun s' hs' _ => ?_⟩
    · cases hs'
      exact hok.ready hopen
    · cases hs'
      exact ⟨hopen, rfl, fun _ => rfl⟩
  · exact (h.ready hopen).keeps.of_same rfl rfl rfl

theorem setFinished_ok (h : e.Ok) {a : Nat} (ha : a < e.made) : (e.setFinished a).Ok where
  nodup := h.nodup
  mem_socks := h.mem_socks
  ok := h.ok
  id := h.id
  lt := h.lt
  log_new b hb := by
    have hne : b ≠ a := (Nat.lt_of_lt_of_le ha hb).ne'
    exact (Function.update_of_ne hne ..).trans (h.log_new b hb)

theorem Endpoint.Connected.install (h : e.Connected) {s : ASocket} (hs : s.peer.isSome)
    (opener : Option Nat) : (e.install s opener).Connected := by
  intro a s' hs' hopen
  rw [show (e.install s opener).sock a = if a = e.made then some s else e.sock a from
    Function.update_apply ..] at hs'
  split_ifs at hs'
  · cases hs'
    exact hs
  · exact h a s' hs' hopen

/-- A socket as `A_OPEN` or `connect_to_remote` makes it, apart from `s->ready(s)`. -/
theorem new_ok (id : Nat) (peer : Option Nat) : ASocket.Ok ⟨id, false, peer, fdeventInstall, []⟩ :=
  ⟨by simp [fdeventInstall], by simp [fdeventInstall], by simp [fdeventInstall], by simp⟩

theorem handlePacket_ok (h : e.Ok) (env : PacketEnv) (p : Packet) :
    (handlePacket e env p).1.Ok ∧ (e.Connected → (handlePacket e env p).1.Connected) := by
  cases p with
  | «open» arg0 arg1 data =>
    simp only [handlePacket]
    split_ifs
    · exact ⟨h.install ((new_ok _ (some arg0)).ready rfl) rfl rfl _, fun hc => hc.install rfl _⟩
    · exact ⟨h, fun hc => hc⟩
  | okay arg0 arg1 =>
    simp only [handlePacket]
    split
    · exact ⟨h, fun hc => hc⟩
    · next a s hfind =>
      obtain ⟨hs, hopen, -⟩ := h.find hfind
      have hkeeps := okay_keeps (h.ok a s hs) hopen arg0
      exact ⟨h.put hs hkeeps, fun hc => hc.put hs hkeeps⟩
  | clse arg0 arg1 =>
    simp only [handlePacket]
    split
    · exact ⟨h, fun hc => hc⟩
    · next a s hfind =>
      obtain ⟨hs, -, -⟩ := h.find hfind
      have hkeeps := localSocketClose_keeps (h.ok a s hs)
      exact ⟨setFinished_ok (h.put hs hkeeps) (h.lt a s hs), fun hc => hc.put hs hkeeps⟩
  | wrte arg0 arg1 data =>
    simp only [handlePacket]
    split
    · exact ⟨h, fun hc => hc⟩
    · next a s hfind =>
      obtain ⟨hs, hopen, -⟩ := h.find hfind
      have hkeeps := localSocketEnqueue_keeps (h.ok a s hs) hopen data env.writes
      exact ⟨h.put hs hkeeps, fun hc => hc.put hs hkeeps⟩

theorem fdeventSelect_keeps {s : ASocket} (h : s.Ok) (read write : Bool) :
    s.Keeps (some { s with fde := fdeventSelect s.fde read write }) := by
  have hok : ({ s with fde := fdeventSelect s.fde read write } : ASocket).Ok := {
    write := h.write
    evWrite := by
      intro hev
      rcases Bool.or_eq_true_iff.mp hev with hev | hev
      · exact h.evWrite hev
      · exact (Bool.and_eq_true_iff.mp hev).1
    evRead := by
      intro hopen hev
      rcases Bool.or_eq_true_iff.mp hev with hev | hev
      · exact h.evRead hopen hev
      · exact (Bool.and_eq_true_iff.mp hev).1
    closing := h.closing }
  exact hok.keeps.of_same rfl rfl rfl

/-- Where every socket that is asked to write has a peer, a step returns. -/
theorem step_ok (h : e.Ok)
    (hpeer : ∀ a, ∀ s ∈ e.sock a, s.fde.evWrite = true → s.closing = false → s.peer.isSome)
    (act : Action) (hfits : ∀ dest, act = .connect dest → destinationFits dest) :
    ∃ e' out, step e act = .done (e', out) ∧ e'.Ok ∧
      (e.Connected → (∀ dest, act ≠ .connect dest) → e'.Connected) := by
  cases act with
  | select a read write =>
    cases hs : e.sock a with
    | none => exact ⟨e, [], by simp [step, hs], h, fun hc _ => hc⟩
    | some s =>
      have hkeeps := fdeventSelect_keeps (h.ok a s hs) read write
      exact ⟨e.put a (.keep { s with fde := fdeventSelect s.fde read write }), [],
        by simp only [step, hs], h.put hs hkeeps, fun hc _ => hc.put hs hkeeps⟩
  | call a ws rs =>
    cases hs : e.sock a with
    | none => exact ⟨e, [], by simp [step, hs], h, fun hc _ => hc⟩
    | some s =>
      obtain ⟨r, hr, hkeeps⟩ := fdeventCallFdfunc_keeps (h.ok a s hs) (hpeer a s hs) ws rs
      cases hev : s.fde.evRead || s.fde.evWrite with
      | false => exact ⟨e, [], by simp [step, hs, hev], h, fun hc _ => hc⟩
      | true =>
        exact ⟨e.put a r, r.out, by simp [step, hs, hev, hr], h.put hs hkeeps,
          fun hc _ => hc.put hs hkeeps⟩
  | packet p env =>
    obtain ⟨hok, hconn⟩ := handlePacket_ok h env p
    exact ⟨_, _, rfl, hok, fun hc _ => hconn hc⟩
  | connect destination =>
    exact ⟨_, _, if_pos (hfits destination rfl), h.install (new_ok _ none) rfl rfl _,
      fun _ hno => absurd rfl (hno destination)⟩

/-- A run of the daemon, and the packets that it sends. -/
def run : Endpoint → List Action → Outcome (Endpoint × List Packet)
  | e, [] => .done (e, [])
  | e, act :: acts => do
    let (e, out) ← step e act
    let (e, out') ← run e acts
    .done (e, out ++ out')

end Steps

end BootableRecovery.Minadbd
