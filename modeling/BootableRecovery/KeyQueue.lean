import BootableRecovery.Lib.Fifo
import BootableRecovery.Lib.Machine

/-!
# `ui.c`: the key event queue

The input thread and `ui_cancel_wait_key` put codes into `key_queue`, `ui_wait_key` and
`ui_wait_key_with_repeat` take them out, and `ui_clear_key_queue` forgets them. Each part
that holds `key_queue_mutex` is one step of a system with any number of waiting threads.

The keys of the board are a parameter (`Board`). `memcpy` copies forwards. `unsigned long`
and `size_t` have 32 bits.

Main result:
* `key_queue_in_order`: in which runs the array stays a queue.
-/

namespace BootableRecovery.KeyQueue

open Fifo (Event Entry History Orderly Allowed history)

/-! ## The array -/

/-- `KEY_MAX`, `BTN_WHEEL` and the first `boardNumRepeatableKeys` elements of
`boardRepeatableKeys` -/
structure Board where
  KEY_MAX : Nat
  BTN_WHEEL : Int
  boardRepeatableKeys : List Int

def UI_KEY_REPEAT_INTERVAL : Nat := 80
def UI_KEY_WAIT_REPEAT : Nat := 400

/-- `sizeof(key_queue) / sizeof(key_queue[0])` -/
def queue_max : Nat := 256

/-- The variables that `key_queue_mutex` protects, and `boardEnableKeyRepeat`. -/
structure Keys where
  key_queue : List Int
  key_queue_len : Int
  key_last_repeat : Int → Nat
  key_press_time : Int → Nat
  key_pressed : Int → UInt8
  boardEnableKeyRepeat : Bool

/-- The variables of a program that starts. -/
def Keys.start (repeats : Bool) : Keys where
  key_queue := List.replicate queue_max 0
  key_queue_len := 0
  key_last_repeat _ := 0
  key_press_time _ := 0
  key_pressed _ := 0
  boardEnableKeyRepeat := repeats

/-- `key_queue[i]` -/
def keyAt (k : Keys) (i : Int) : Outcome Int :=
  if 0 ≤ i ∧ i < queue_max then .done (k.key_queue.getD i.toNat 0) else .fault

/-- `key_queue[key_queue_len++] = code` -/
def pushKey (k : Keys) (code : Int) : Outcome Keys :=
  if 0 ≤ k.key_queue_len ∧ k.key_queue_len < queue_max then
    .done { k with
      key_queue := k.key_queue.set k.key_queue_len.toNat code
      key_queue_len := k.key_queue_len + 1 }
  else .fault

/-- `key_queue[0]`, and
`memcpy(&key_queue[0], &key_queue[1], sizeof(int) * --key_queue_len)` -/
def popKey (k : Keys) : Outcome (Int × Keys) := do
  let key ← keyAt k 0
  let len := k.key_queue_len - 1
  let n := toU32 (4 * len) / 4
  if 1 + n ≤ queue_max then
    .done (key, { k with
      key_queue := (k.key_queue.drop 1).take n ++ k.key_queue.drop n
      key_queue_len := len })
  else .fault

/-- An access to one of the arrays with `KEY_MAX + 1` elements. -/
def keyIndex (b : Board) (key : Int) : Outcome Unit :=
  if 0 ≤ key ∧ key ≤ b.KEY_MAX then .done () else .fault

/-! ## The parts that hold the mutex -/

section Sections

variable (b : Board)

/-- `key_pressed[ev.code] = ev.value`, unless the event is a fake one -/
def setPressed (k : Keys) (code value : Int) (fake_key : Bool) : Outcome Keys :=
  if fake_key then .done k
  else do
    keyIndex b code
    .done { k with key_pressed := Function.update k.key_pressed code (UInt8.ofInt value) }

/-- A wheel move behind a wheel move, which does not go into the queue. -/
def isWheelMove (k : Keys) (code : Int) : Outcome Bool :=
  if code ≠ b.BTN_WHEEL ∨ k.key_queue_len = 0 then .done false
  else do
    let last ← keyAt k (k.key_queue_len - 1)
    .done (last = b.BTN_WHEEL)

/-- Add the code of the event to the queue. -/
def addCode (k : Keys) (code : Int) : Outcome (Keys × List (Event Int)) := do
  let wheel ← isWheelMove b k code
  if wheel then .done (k, [])
  else do
    let k ← pushKey k code
    .done (k, [.put code])

/-- The times of the event. -/
def notePress (k : Keys) (code : Int) (now : Nat) : Outcome Keys :=
  if k.boardEnableKeyRepeat then do
    keyIndex b code
    .done { k with
      key_press_time := Function.update k.key_press_time code now
      key_last_repeat := Function.update k.key_last_repeat code 0 }
  else .done k

/-- `input_callback`, on an event that is a key -/
def inputCallback (k : Keys) (code value : Int) (fake_key : Bool) (now : Nat) :
    Outcome (Keys × List (Event Int)) := do
  let k ← setPressed b k code value fake_key
  if value > 0 ∧ k.key_queue_len < queue_max then do
    let (k, evs) ← addCode b k code
    let k ← notePress b k code now
    .done (k, evs)
  else .done (k, [])

/-- `ui_cancel_wait_key` -/
def uiCancelWaitKey (k : Keys) : Outcome (Keys × List (Event Int)) := do
  let k ← pushKey k (-2)
  .done (k, [.put (-2)])

/-- `ui_clear_key_queue` -/
def uiClearKeyQueue (k : Keys) : Keys × List (Event Int) :=
  ({ k with key_queue_len := 0 }, [.clear])

/-- `ui_wait_key`, when it has waited -/
def uiWaitKey (k : Keys) : Outcome (Keys × List (Event Int)) := do
  let (key, k) ← popKey k
  .done (k, [.take key])

/-- `key_can_repeat` -/
def keyCanRepeat (key : Int) : Bool := b.boardRepeatableKeys.contains key

/-- What a turn of the inner loop of `ui_wait_key_with_repeat` ends with. -/
inductive Turn where
  | empty
  | again
  | returned (key : Int)
  deriving DecidableEq, Repr

/-- A key that can repeat, behind the `memcpy`: it is put back while it is held. -/
def repeatKey (k : Keys) (key : Int) (now_msec : Nat) :
    Outcome (Keys × List (Event Int) × Turn) := do
  let held : Bool := k.key_pressed key ≠ 0
  let k ← if held then pushKey k key else .done k
  let last := k.key_last_repeat key
  if now_msec > toU32 (k.key_press_time key + UI_KEY_WAIT_REPEAT) ∧
      now_msec > toU32 (last + UI_KEY_REPEAT_INTERVAL) ∨ last = 0 then
    .done ({ k with key_last_repeat := Function.update k.key_last_repeat key now_msec },
      [if held then .recycle key else .take key], .returned key)
  else .done (k, [if held then .recycle key else .discard key], .again)

/-- A turn of the inner loop of `ui_wait_key_with_repeat`. -/
def repeatTurn (k : Keys) (now_msec : Nat) : Outcome (Keys × List (Event Int) × Turn) :=
  if k.key_queue_len = 0 then .done (k, [], .empty)
  else do
    let (key, k) ← popKey k
    if key < 0 then .done (k, [.take key], .returned key)
    else do
      keyIndex b key
      if k.key_pressed key = 0 ∧ k.key_last_repeat key > 0 then
        .done (k, [.discard key], .again)
      else if keyCanRepeat b key then repeatKey k key now_msec
      else .done (k, [.take key], .returned key)

end Sections

/-! ## The system -/

/-- Where a thread is: outside, in the wait of `ui_wait_key`, or in the wait or in the
inner loop of `ui_wait_key_with_repeat`. -/
inductive Pc where
  | idle
  | waitKey
  | repeatWait
  | repeatLoop
  deriving DecidableEq, Repr

structure Sys where
  keys : Keys
  pc : Nat → Pc

/-- The steps. `timedOut` is `rc == ETIMEDOUT`, `usb` the value of `usb_connected()`. The
write to `boardEnableKeyRepeat` in `input_callback` comes before the mutex is locked. -/
inductive Action where
  | repeatOff
  | input (code value : Int) (fake_key : Bool) (now : Nat)
  | cancel
  | clear
  | call (thread : Nat)
  | waited (thread : Nat) (timedOut usb : Bool)
  | repeatWaited (thread : Nat) (timedOut usb : Bool)
  | turn (thread : Nat) (now_msec : Nat)

/-- Where the inner loop goes on. -/
def Turn.pc : Turn → Pc
  | .empty => .repeatWait
  | .again => .repeatLoop
  | .returned _ => .idle

/-- The step can be taken. -/
def Enabled (b : Board) (s : Sys) : Action → Prop
  | .repeatOff => True
  | .input code _ _ _ => 0 ≤ code ∧ code ≤ b.KEY_MAX
  | .cancel => True
  | .clear => True
  | .call t => s.pc t = .idle
  | .waited t timedOut usb =>
    s.pc t = .waitKey ∧ (s.keys.key_queue_len ≠ 0 ∨ timedOut = true ∧ usb = false)
  | .repeatWaited t timedOut _ =>
    s.pc t = .repeatWait ∧ (s.keys.key_queue_len ≠ 0 ∨ timedOut = true)
  | .turn t _ => s.pc t = .repeatLoop

/-- The step itself, and what it does to the queue. -/
def step (b : Board) (s : Sys) : Action → Outcome (Sys × List (Event Int))
  | .repeatOff => .done ({ s with keys := { s.keys with boardEnableKeyRepeat := false } }, [])
  | .input code value fake_key now => do
    let (keys, evs) ← inputCallback b s.keys code value fake_key now
    .done ({ s with keys := keys }, evs)
  | .cancel => do
    let (keys, evs) ← uiCancelWaitKey s.keys
    .done ({ s with keys := keys }, evs)
  | .clear =>
    let (keys, evs) := uiClearKeyQueue s.keys
    .done ({ s with keys := keys }, evs)
  | .call t =>
    let pc := if s.keys.boardEnableKeyRepeat then .repeatWait else .waitKey
    .done ({ s with pc := Function.update s.pc t pc }, [])
  | .waited t _ _ => do
    let (keys, evs) ← uiWaitKey s.keys
    .done (⟨keys, Function.update s.pc t .idle⟩, evs)
  | .repeatWaited t timedOut usb =>
    let pc := if timedOut && !usb then .idle else .repeatLoop
    .done ({ s with pc := Function.update s.pc t pc }, [])
  | .turn t now_msec => do
    let (keys, evs, turn) ← repeatTurn b s.keys now_msec
    .done (⟨keys, Function.update s.pc t turn.pc⟩, evs)

/-- A system in which nothing has happened. -/
def Sys.start (repeats : Bool) : Sys := ⟨.start repeats, fun _ => .idle⟩

/-- The runs whose steps are all `ok`, with what they did to the queue. -/
inductive Run (b : Board) (ok : List (Event Int) → Sys → Action → Prop) :
    List (Event Int) → Sys → Prop where
  | start {repeats} : Run b ok [] (.start repeats)
  | step {evs s a s' new} : Run b ok evs s → Enabled b s a → ok evs s a →
      step b s a = .done (s', new) → Run b ok (evs ++ new) s'

/-! ## What is expected -/

/-- The array holds the codes of the queue that the run has made, in their order, and
whatever was taken from it was the oldest code. -/
structure InOrder (evs : List (Event Int)) (s : Sys) : Prop where
  len : 0 ≤ s.keys.key_queue_len ∧ s.keys.key_queue_len ≤ queue_max
  queue : s.keys.key_queue.take s.keys.key_queue_len.toNat = (history evs).queue.map Entry.val
  orderly : Orderly evs
  sound : (history evs).Sound

/-- The step stays inside the arrays, and takes only what is the oldest code. -/
def Keeps (b : Board) (evs : List (Event Int)) (s : Sys) (a : Action) : Prop :=
  ∃ s' new, step b s a = .done (s', new) ∧ ∀ ev ∈ new, Allowed (history evs) ev

/-- `ui_cancel_wait_key` finds a free place, `ui_wait_key` finds a key, and the key that
`ui_wait_key_with_repeat` drops because it is up was put back before. -/
def Careful (evs : List (Event Int)) (s : Sys) : Action → Prop
  | .cancel => s.keys.key_queue_len < queue_max
  | .waited _ _ _ => s.keys.key_queue_len ≠ 0
  | .turn _ _ => ∀ e ∈ (history evs).queue.head?, 0 ≤ e.val → s.keys.key_pressed e.val = 0 →
      0 < s.keys.key_last_repeat e.val → e.recycled = true
  | _ => True

/-! ## The array holds a queue -/

/-- The array holds the codes of the queue. -/
structure Holds (b : Board) (k : Keys) (q : List (Entry Int)) : Prop where
  size : k.key_queue.length = queue_max
  len : k.key_queue_len = q.length
  fits : q.length ≤ queue_max
  codes : k.key_queue.take q.length = q.map Entry.val
  small : ∀ e ∈ q, e.val ≤ b.KEY_MAX

section Array

variable {b : Board} {k : Keys} {q : List (Entry Int)} {e : Entry Int} {code : Int}

theorem Holds.pushKey (h : Holds b k q) (hroom : k.key_queue_len < queue_max)
    (hcode : e.val ≤ b.KEY_MAX) : ∃ arr, KeyQueue.pushKey k e.val =
      .done { k with key_queue := arr, key_queue_len := k.key_queue_len + 1 } ∧
      Holds b { k with key_queue := arr, key_queue_len := k.key_queue_len + 1 } (q ++ [e]) := by
  have hlen := h.len
  have hroom' : q.length < queue_max := by omega
  refine ⟨k.key_queue.set q.length e.val, ?_, ?_, ?_, ?_, ?_, ?_⟩
  · rw [KeyQueue.pushKey, if_pos ⟨by omega, hroom⟩, hlen, Int.toNat_natCast]
  · show (k.key_queue.set q.length e.val).length = queue_max
    rw [List.length_set, h.size]
  · show k.key_queue_len + 1 = _
    rw [hlen, List.length_append]
    rfl
  · rw [List.length_append]
    exact hroom'
  · show (k.key_queue.set q.length e.val).take _ = _
    rw [List.length_append, List.length_singleton,
      List.take_succ_eq_append_getElem (by rw [List.length_set, h.size]; exact hroom'),
      List.take_set_of_le le_rfl, List.getElem_set_self, h.codes, List.map_append]
    rfl
  · intro e' he'
    rcases List.mem_append.mp he' with hold | hnew
    · exact h.small e' hold
    · rwa [List.mem_singleton.mp hnew]

theorem pushKey_full (hfull : ¬k.key_queue_len < queue_max) : pushKey k code = .fault :=
  if_neg fun hroom => hfull hroom.2

theorem Holds.popKey (h : Holds b k (e :: q)) : ∃ arr, KeyQueue.popKey k =
      .done (e.val, { k with key_queue := arr, key_queue_len := k.key_queue_len - 1 }) ∧
      Holds b { k with key_queue := arr, key_queue_len := k.key_queue_len - 1 } q := by
  have hlen : k.key_queue_len = q.length + 1 := h.len
  have hfits : q.length + 1 ≤ queue_max := h.fits
  have hmax : queue_max = 256 := rfl
  have hcodes := h.codes
  rw [List.length_cons, List.map_cons] at hcodes
  obtain ⟨c, arr, harr⟩ : ∃ c arr, k.key_queue = c :: arr :=
    List.exists_cons_of_length_pos (by rw [h.size]; decide)
  rw [harr, List.take_succ_cons, List.cons.injEq] at hcodes
  have hsize : arr.length + 1 = queue_max := by rw [← h.size, harr, List.length_cons]
  have hn : toU32 (4 * (k.key_queue_len - 1)) / 4 = q.length := by
    have hmul : 4 * (k.key_queue_len - 1) = (4 * q.length : Nat) := by omega
    rw [hmul, toU32_of_range (by omega), Nat.mul_div_cancel_left _ (by decide)]
  have hkey : keyAt k 0 = .done e.val := by
    rw [keyAt, if_pos (by decide), harr, ← hcodes.1]
    rfl
  have htake : (arr.take q.length).length = q.length := by
    rw [List.length_take]
    exact Nat.min_eq_left (by omega)
  refine ⟨arr.take q.length ++ k.key_queue.drop q.length, ?_, ?_, ?_, ?_, ?_, ?_⟩
  · rw [KeyQueue.popKey, hkey, Outcome.done_bind]
    dsimp only
    rw [hn, if_pos (by omega)]
    congr 4
    rw [harr]
    rfl
  · show (arr.take q.length ++ k.key_queue.drop q.length).length = queue_max
    rw [List.length_append, htake, List.length_drop, h.size]
    omega
  · show k.key_queue_len - 1 = q.length
    omega
  · omega
  · show (arr.take q.length ++ k.key_queue.drop q.length).take q.length = _
    rw [List.take_append_of_le_length htake.ge, List.take_take, Nat.min_self, hcodes.2]
  · exact fun e' he' => h.small e' (List.mem_cons_of_mem _ he')

/-- An empty queue makes `memcpy` run over the end of the array. -/
theorem Holds.popKey_empty (h : Holds b k []) : KeyQueue.popKey k = .fault := by
  have hlen : k.key_queue_len = 0 := h.len
  have hn : toU32 (4 * (k.key_queue_len - 1)) = 4294967292 := by
    rw [hlen]
    unfold toU32
    rfl
  rw [KeyQueue.popKey, keyAt, if_pos (by decide), Outcome.done_bind]
  dsimp only
  rw [hn, if_neg (by decide)]

theorem Holds.nil_iff (h : Holds b k q) : k.key_queue_len = 0 ↔ q = [] := by
  rw [h.len, ← List.length_eq_zero_iff]
  exact Int.natCast_eq_zero

/-- The other variables have no part in it. -/
theorem Holds.congr {k' : Keys} (h : Holds b k q) (hqueue : k'.key_queue = k.key_queue)
    (hlen : k'.key_queue_len = k.key_queue_len) : Holds b k' q where
  size := by rw [hqueue, h.size]
  len := by rw [hlen, h.len]
  fits := h.fits
  codes := by rw [hqueue, h.codes]
  small := h.small

end Array

/-! ## What the parts do to the queue -/

/-- The part has done `new` to the queue, at most one thing, and that was allowed. -/
inductive Does (b : Board) (h : History Int) (k : Keys) : List (Event Int) → Prop where
  | nothing : Holds b k h.queue → Does b h k []
  | event {ev} : Allowed h ev → Holds b k (h.next ev).queue → Does b h k [ev]

section Parts

variable {b : Board} {h : History Int} {k : Keys} {code value key : Int} {fake_key : Bool}
  {now now_msec : Nat}

theorem Does.holds_congr {k' : Keys} {new : List (Event Int)} (hd : Does b h k new)
    (hqueue : k'.key_queue = k.key_queue) (hlen : k'.key_queue_len = k.key_queue_len) :
    Does b h k' new := by
  cases hd with
  | nothing hholds => exact .nothing (hholds.congr hqueue hlen)
  | event hallowed hholds => exact .event hallowed (hholds.congr hqueue hlen)

theorem addCode_does (hk : Holds b k h.queue) (hroom : k.key_queue_len < queue_max)
    (hcode : code ≤ b.KEY_MAX) : ∃ k' new, addCode b k code = .done (k', new) ∧
      Does b h k' new ∧ k'.boardEnableKeyRepeat = k.boardEnableKeyRepeat := by
  obtain ⟨wheel, hwheel⟩ : ∃ wheel, isWheelMove b k code = .done wheel := by
    rw [isWheelMove]
    split_ifs with hno
    · exact ⟨_, rfl⟩
    · have hlen := hk.len
      have hpos : k.key_queue_len ≠ 0 := fun hzero => hno (.inr hzero)
      rw [keyAt, if_pos (by omega)]
      exact ⟨_, rfl⟩
  rw [addCode, hwheel, Outcome.done_bind]
  cases wheel with
  | true => exact ⟨k, [], rfl, .nothing hk, rfl⟩
  | false =>
    obtain ⟨arr, hpush, hholds⟩ := @Holds.pushKey b k h.queue ⟨h.puts.length, code, false⟩ hk hroom
      hcode
    dsimp only at hpush
    rw [if_neg (by decide), hpush]
    exact ⟨_, [.put code], rfl, .event trivial hholds, rfl⟩

theorem keyIndex_done (h0 : 0 ≤ key) (hmax : key ≤ b.KEY_MAX) : keyIndex b key = .done () :=
  if_pos ⟨h0, hmax⟩

/-- `input_callback` adds its code, or does nothing. -/
theorem inputCallback_does (hk : Holds b k h.queue) (h0 : 0 ≤ code) (hmax : code ≤ b.KEY_MAX) :
    ∃ k' new, inputCallback b k code value fake_key now = .done (k', new) ∧ Does b h k' new := by
  obtain ⟨k₁, hpressed, hqueue, hlen⟩ : ∃ k₁, setPressed b k code value fake_key = .done k₁ ∧
      k₁.key_queue = k.key_queue ∧ k₁.key_queue_len = k.key_queue_len := by
    rw [setPressed]
    split_ifs
    · exact ⟨k, rfl, rfl, rfl⟩
    · rw [keyIndex_done h0 hmax]
      exact ⟨_, rfl, rfl, rfl⟩
  have hk₁ := hk.congr hqueue hlen
  rw [inputCallback, hpressed, Outcome.done_bind]
  split_ifs with hdown
  · obtain ⟨k₂, new, hadd, hdoes, -⟩ := addCode_does hk₁ hdown.2 hmax
    rw [hadd, Outcome.done_bind]
    dsimp only
    rw [notePress]
    split_ifs
    · rw [keyIndex_done h0 hmax]
      exact ⟨_, new, rfl, hdoes.holds_congr rfl rfl⟩
    · exact ⟨k₂, new, rfl, hdoes⟩
  · exact ⟨k₁, [], rfl, .nothing hk₁⟩

theorem uiCancelWaitKey_does (hk : Holds b k h.queue) (hroom : k.key_queue_len < queue_max) :
    ∃ k' new, uiCancelWaitKey k = .done (k', new) ∧ Does b h k' new := by
  have hsmall : (-2 : Int) ≤ b.KEY_MAX := by omega
  obtain ⟨arr, hpush, hholds⟩ := @Holds.pushKey b k h.queue ⟨h.puts.length, -2, false⟩ hk hroom
    hsmall
  dsimp only at hpush
  rw [uiCancelWaitKey, hpush]
  exact ⟨_, [.put (-2)], rfl, .event trivial hholds⟩

theorem uiClearKeyQueue_does (hk : Holds b k h.queue) :
    Does b h (uiClearKeyQueue k).1 (uiClearKeyQueue k).2 :=
  .event trivial ⟨hk.size, rfl, Nat.zero_le _, rfl, fun _ he => nomatch he⟩

theorem uiWaitKey_does (hk : Holds b k h.queue) (hsome : k.key_queue_len ≠ 0) :
    ∃ k' new, uiWaitKey k = .done (k', new) ∧ Does b h k' new := by
  obtain ⟨e, q, hq⟩ := List.exists_cons_of_ne_nil (mt hk.nil_iff.mpr hsome)
  rw [hq] at hk
  obtain ⟨arr, hpop, hholds⟩ := hk.popKey
  rw [uiWaitKey, hpop]
  refine ⟨_, [.take e.val], rfl, .event ⟨e, q, hq, rfl⟩ ?_⟩
  show Holds b _ h.queue.tail
  rwa [hq]

/-- A key that can repeat goes back, or is handed out for good. -/
theorem repeatKey_does {e : Entry Int} {q : List (Entry Int)} (hq : h.queue = e :: q)
    (hk : Holds b k q) (hroom : k.key_queue_len < queue_max) (hsmall : e.val ≤ b.KEY_MAX)
    (hup : k.key_pressed e.val = 0 → k.key_last_repeat e.val = 0) :
    ∃ k' new turn, repeatKey k e.val now_msec = .done (k', new, turn) ∧ Does b h k' new := by
  rw [repeatKey]
  by_cases hheld : k.key_pressed e.val ≠ 0
  · obtain ⟨arr, hpush, hholds⟩ := @Holds.pushKey b k q { e with recycled := true } hk hroom hsmall
    have hback : Holds b { k with key_queue := arr, key_queue_len := k.key_queue_len + 1 }
        (h.next (.recycle e.val)).queue := by
      show Holds b _ (h.queue.tail ++ h.queue.head?.toList.map _)
      rw [hq]
      exact hholds
    have hallowed : Allowed h (.recycle e.val) := ⟨e, q, hq, rfl⟩
    dsimp only at hpush ⊢
    rw [decide_eq_true hheld]
    simp only [↓reduceIte, hpush, Outcome.done_bind]
    split_ifs
    · exact ⟨_, _, _, rfl, .event hallowed (hback.congr rfl rfl)⟩
    · exact ⟨_, _, _, rfl, .event hallowed hback⟩
  · have hzero := hup (not_not.mp hheld)
    dsimp only
    rw [decide_eq_false hheld, if_neg Bool.false_ne_true, Outcome.done_bind, if_pos (.inr hzero)]
    refine ⟨_, _, _, rfl, .event ⟨e, q, hq, rfl⟩ ?_⟩
    show Holds b _ h.queue.tail
    rw [hq]
    exact hk.congr rfl rfl

/-- A turn of the inner loop takes the oldest key, and discards only what was put back. -/
theorem repeatTurn_does (hk : Holds b k h.queue)
    (hcareful : ∀ e ∈ h.queue.head?, 0 ≤ e.val → k.key_pressed e.val = 0 →
      0 < k.key_last_repeat e.val → e.recycled = true) :
    ∃ k' new turn, repeatTurn b k now_msec = .done (k', new, turn) ∧ Does b h k' new := by
  rw [repeatTurn]
  by_cases hempty : k.key_queue_len = 0
  · rw [if_pos hempty]
    exact ⟨k, [], .empty, rfl, .nothing hk⟩
  obtain ⟨e, q, hq⟩ := List.exists_cons_of_ne_nil (mt hk.nil_iff.mpr hempty)
  have hk' := hk
  rw [hq] at hk'
  obtain ⟨arr, hpop, hrest⟩ := hk'.popKey
  have hsmall := hk'.small e List.mem_cons_self
  have htail : (h.leave).queue = q := by
    show h.queue.tail = q
    rw [hq]
    rfl
  rw [if_neg hempty, hpop, Outcome.done_bind]
  dsimp only
  by_cases hneg : e.val < 0
  · rw [if_pos hneg]
    exact ⟨_, _, _, rfl, .event ⟨e, q, hq, rfl⟩ (htail.symm ▸ hrest)⟩
  have h0 := not_lt.mp hneg
  rw [if_neg hneg, keyIndex_done h0 hsmall, Outcome.done_bind]
  by_cases hup : k.key_pressed e.val = 0 ∧ k.key_last_repeat e.val > 0
  · have hrecycled := hcareful e (by rw [hq]; rfl) h0 hup.1 hup.2
    rw [if_pos hup]
    exact ⟨_, _, _, rfl, .event ⟨e, q, hq, rfl, hrecycled⟩ (htail.symm ▸ hrest)⟩
  rw [if_neg hup]
  split_ifs with hrepeat
  · refine repeatKey_does hq hrest ?_ hsmall fun hz => ?_
    · have hlen := hk.len
      have hfits := hk.fits
      show k.key_queue_len - 1 < queue_max
      omega
    · exact Nat.eq_zero_of_not_pos fun hpos => hup ⟨hz, hpos⟩
  · exact ⟨_, _, _, rfl, .event ⟨e, q, hq, rfl⟩ (htail.symm ▸ hrest)⟩

end Parts

/-! ## Steps and runs -/

section Runs

variable {b : Board} {evs new : List (Event Int)} {s s' : Sys} {a : Action}

/-- A careful step keeps the array a queue. -/
theorem step_does (hk : Holds b s.keys (history evs).queue) (henabled : Enabled b s a)
    (hcareful : Careful evs s a) : ∃ s' new, step b s a = .done (s', new) ∧
      Does b (history evs) s'.keys new := by
  cases a with
  | repeatOff => exact ⟨_, _, rfl, .nothing (hk.congr rfl rfl)⟩
  | input code value fake_key now =>
    obtain ⟨k', new, hdone, hdoes⟩ := inputCallback_does hk henabled.1 henabled.2
    exact ⟨{ s with keys := k' }, new, by rw [step, hdone]; rfl, hdoes⟩
  | cancel =>
    obtain ⟨k', new, hdone, hdoes⟩ := uiCancelWaitKey_does hk hcareful
    exact ⟨{ s with keys := k' }, new, by rw [step, hdone]; rfl, hdoes⟩
  | clear => exact ⟨_, _, rfl, uiClearKeyQueue_does hk⟩
  | call t => exact ⟨_, _, rfl, .nothing hk⟩
  | waited t timedOut usb =>
    obtain ⟨k', new, hdone, hdoes⟩ := uiWaitKey_does hk hcareful
    exact ⟨⟨k', _⟩, new, by rw [step, hdone]; rfl, hdoes⟩
  | repeatWaited t timedOut usb => exact ⟨_, _, rfl, .nothing hk⟩
  | turn t now_msec =>
    obtain ⟨k', new, turn, hdone, hdoes⟩ := repeatTurn_does hk hcareful
    exact ⟨⟨k', _⟩, new, by rw [step, hdone]; rfl, hdoes⟩

theorem Does.run (hd : Does b (history evs) s.keys new) (ho : Orderly evs) :
    Holds b s.keys (history (evs ++ new)).queue ∧ Orderly (evs ++ new) := by
  cases hd with
  | nothing hholds =>
    rw [List.append_nil]
    exact ⟨hholds, ho⟩
  | event hallowed hholds =>
    rw [Fifo.history_append_singleton]
    exact ⟨hholds, ho.snoc hallowed⟩

theorem start_holds (b : Board) (repeats : Bool) : Holds b (.start repeats) [] where
  size := List.length_replicate
  len := rfl
  fits := Nat.zero_le _
  codes := rfl
  small _ he := nomatch he

/-- In a careful run the array is a queue. -/
theorem run_holds (hrun : Run b Careful evs s) :
    Holds b s.keys (history evs).queue ∧ Orderly evs := by
  induction hrun with
  | @start repeats => exact ⟨start_holds b repeats, Fifo.orderly_nil⟩
  | step _ henabled hcareful hstep ih =>
    obtain ⟨s', new, hdone, hdoes⟩ := step_does ih.1 henabled hcareful
    cases hdone.symm.trans hstep
    exact hdoes.run ih.2

theorem Holds.inOrder (hk : Holds b s.keys (history evs).queue) (ho : Orderly evs) :
    InOrder evs s where
  len := by
    have hlen := hk.len
    have hfits := hk.fits
    constructor <;> omega
  queue := by rw [hk.len, Int.toNat_natCast, hk.codes]
  orderly := ho
  sound := Fifo.history_sound evs

/-- Where a step is not careful, it leaves the array, or discards a key that was not put back. -/
theorem careful_of_keeps (hk : Holds b s.keys (history evs).queue) (hkeeps : Keeps b evs s a) :
    Careful evs s a := by
  obtain ⟨s', new, hstep, hallowed⟩ := hkeeps
  cases a with
  | cancel =>
    by_contra hfull
    rw [step, uiCancelWaitKey, pushKey_full hfull] at hstep
    cases hstep
  | waited t timedOut usb =>
    intro hempty
    rw [hk.nil_iff.mp hempty] at hk
    rw [step, uiWaitKey, hk.popKey_empty] at hstep
    cases hstep
  | turn t now_msec =>
    intro e he h0 hup hlast
    obtain ⟨q, hq⟩ := List.head?_eq_some_iff.mp he
    have hk' := hk
    rw [hq] at hk'
    obtain ⟨arr, hpop, -⟩ := hk'.popKey
    have hsome : s.keys.key_queue_len ≠ 0 := fun hzero => by
      have := hk.nil_iff.mp hzero
      rw [hq] at this
      cases this
    rw [step, repeatTurn, if_neg hsome, hpop, Outcome.done_bind] at hstep
    dsimp only at hstep
    rw [if_neg (not_lt.mpr h0), keyIndex_done h0 (hk'.small e List.mem_cons_self),
      Outcome.done_bind, if_pos ⟨hup, hlast⟩] at hstep
    cases hstep
    obtain ⟨e', q', hq', -, hrecycled⟩ := hallowed (.discard e.val) List.mem_cons_self
    cases hq.symm.trans hq'
    exact hrecycled
  | _ => trivial

end Runs

/-- In every run whose steps are careful, the array holds the queue of the run, whatever is
taken is the oldest code, no code is lost but by `ui_clear_key_queue`, and none is
overtaken but one that was put back. The next step keeps it so just when it is careful. -/
theorem key_queue_in_order (b : Board) (evs : List (Event Int)) (s : Sys)
    (hrun : Run b Careful evs s) :
    InOrder evs s ∧ ∀ a, Enabled b s a → (Keeps b evs s a ↔ Careful evs s a) := by
  obtain ⟨hk, ho⟩ := run_holds hrun
  refine ⟨hk.inOrder ho, fun a henabled => ⟨careful_of_keeps hk, fun hcareful => ?_⟩⟩
  obtain ⟨s', new, hdone, hdoes⟩ := step_does hk henabled hcareful
  refine ⟨s', new, hdone, fun ev hev => ?_⟩
  cases hdoes with
  | nothing => cases hev
  | event hallowed => rwa [List.mem_singleton.mp hev]

/-- A board with eleven keys, none of which can repeat. -/
def smallBoard : Board := ⟨10, 7, []⟩

theorem key_queue_in_order_pressed :
    ∃ s, Run smallBoard Careful [.put 10] s ∧ InOrder [.put 10] s ∧
      (Keeps smallBoard [.put 10] s .cancel ↔ Careful [.put 10] s .cancel) := by
  obtain ⟨s, hstep⟩ : ∃ s, step smallBoard (.start false) (.input 10 1 false 0) =
      .done (s, [.put 10]) := ⟨_, rfl⟩
  have hrun : Run smallBoard Careful [.put 10] s :=
    @Run.step _ _ _ _ (.input 10 1 false 0) _ _ .start ⟨by decide, by decide⟩ trivial hstep
  have hkeeps := key_queue_in_order smallBoard [.put 10] s hrun
  exact ⟨s, hrun, hkeeps.1, hkeeps.2 .cancel trivial⟩

/-- After a time-out without USB, `ui_wait_key` takes a key from the empty queue. -/
theorem key_queue_timed_out :
    ¬∀ (b : Board) (evs : List (Event Int)) (s : Sys), Run b (fun _ _ _ => True) evs s →
      InOrder evs s ∧ ∀ a, Enabled b s a → Keeps b evs s a := by
  intro h
  have hrun : Run smallBoard (fun _ _ _ => True) [] ⟨.start false,
      Function.update (fun _ => .idle) 0 .waitKey⟩ :=
    @Run.step _ _ _ _ (.call 0) _ [] .start rfl trivial rfl
  obtain ⟨s', new, hstep, -⟩ := (h smallBoard [] _ hrun).2 (.waited 0 true false)
    ⟨rfl, .inr ⟨rfl, rfl⟩⟩
  rw [step, uiWaitKey, (start_holds smallBoard false).popKey_empty] at hstep
  cases hstep

end BootableRecovery.KeyQueue
