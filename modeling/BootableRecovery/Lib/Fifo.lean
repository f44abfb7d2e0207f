import Mathlib.Data.List.Induction
import Mathlib.Data.List.Pairwise
import Mathlib.Order.Basic

/-!
# Queues whose elements can come back

A queue is first in, first out. An element that has come to the front may be put back at
the end; from then on it is `recycled`, and nothing is promised about it. The history of a
queue counts the elements in the order in which they were put.

* `Orderly`: every element that leaves the front was there, and none is discarded that was
  not recycled before.
* `history_sound`: the elements leave in the order in which they were put, each at most
  once, and one that did not leave is still in the queue or was cleared.
-/

namespace BootableRecovery.Fifo

variable {α : Type}

structure Entry (α : Type) where
  id : Nat
  val : α
  recycled : Bool
  deriving DecidableEq, Repr

/-- What happens to a queue. An element that leaves the front is taken, recycled or
discarded. -/
inductive Event (α : Type) where
  | put (a : α)
  | take (a : α)
  | recycle (a : α)
  | discard (a : α)
  | clear
  deriving DecidableEq, Repr

/-- `left` has the elements that have come to the front, at their first time, and `cleared`
those that were in the queue when it was cleared; both give the number of the `put`. -/
structure History (α : Type) where
  puts : List α
  queue : List (Entry α)
  left : List Nat
  cleared : List Nat

namespace History

def empty : History α := ⟨[], [], [], []⟩

/-- The elements of the queue that were not recycled. -/
def fresh (q : List (Entry α)) : List Nat := (q.filter fun e => !e.recycled).map Entry.id

/-- The front of the queue leaves it. -/
def leave (h : History α) : History α :=
  { h with queue := h.queue.tail, left := h.left ++ fresh h.queue.head?.toList }

def next (h : History α) : Event α → History α
  | .put a => { h with
      puts := h.puts ++ [a], queue := h.queue ++ [⟨h.puts.length, a, false⟩] }
  | .take _ => h.leave
  | .recycle _ => { h.leave with
      queue := h.queue.tail ++ h.queue.head?.toList.map fun e => { e with recycled := true } }
  | .discard _ => h.leave
  | .clear => { h with queue := [], cleared := h.cleared ++ fresh h.queue }

end History

/-- The history of a queue that was empty at first. -/
def history (evs : List (Event α)) : History α := evs.foldl History.next .empty

/-- What leaves the front is there, and it was recycled before when it is discarded. -/
def Allowed (h : History α) : Event α → Prop
  | .put _ => True
  | .take a => ∃ e q, h.queue = e :: q ∧ e.val = a
  | .recycle a => ∃ e q, h.queue = e :: q ∧ e.val = a
  | .discard a => ∃ e q, h.queue = e :: q ∧ e.val = a ∧ e.recycled = true
  | .clear => True

/-- Every event was allowed when it happened. -/
def Orderly (evs : List (Event α)) : Prop :=
  ∀ before ev after, evs = before ++ ev :: after → Allowed (history before) ev

/-- The elements that left and those that still wait are in the order in which they were put;
each element left, waits or was cleared; and the queue has the elements that were put. -/
structure History.Sound (h : History α) : Prop where
  ordered : (h.left ++ fresh h.queue).Pairwise (· < ·)
  complete : ∀ id, id < h.puts.length ↔ id ∈ h.left ++ fresh h.queue ∨ id ∈ h.cleared
  apart : ∀ id ∈ h.cleared, id ∉ h.left ++ fresh h.queue
  vals : ∀ e ∈ h.queue, h.puts[e.id]? = some e.val

section History

variable {h : History α} {evs : List (Event α)} {ev : Event α}

@[simp] theorem history_nil : history ([] : List (Event α)) = .empty := rfl

@[simp] theorem history_append_singleton : history (evs ++ [ev]) = (history evs).next ev := by
  rw [history, List.foldl_append]
  rfl

theorem History.fresh_append (q q' : List (Entry α)) : fresh (q ++ q') = fresh q ++ fresh q' := by
  rw [fresh, List.filter_append, List.map_append]
  rfl

theorem History.fresh_split (q : List (Entry α)) :
    fresh q.head?.toList ++ fresh q.tail = fresh q := by
  rw [← fresh_append]
  cases q with
  | nil => rfl
  | cons e q => rfl

theorem History.empty_sound : (empty : History α).Sound where
  ordered := .nil
  complete id := by simp [empty, fresh]
  apart id hid := nomatch hid
  vals e he := nomatch he

theorem History.Sound.leave (hs : h.Sound) : h.leave.Sound where
  ordered := by
    rw [History.leave, List.append_assoc, fresh_split]
    exact hs.ordered
  complete id := by
    rw [History.leave, List.append_assoc, fresh_split]
    exact hs.complete id
  apart id hid := by
    rw [History.leave, List.append_assoc, fresh_split]
    exact hs.apart id hid
  vals e he := hs.vals e (List.mem_of_mem_tail he)

/-- A history stays sound, whatever happens to the queue. -/
theorem History.Sound.next (hs : h.Sound) (ev : Event α) : (h.next ev).Sound := by
  cases ev with
  | put a =>
    have hput : fresh (h.queue ++ [⟨h.puts.length, a, false⟩]) = fresh h.queue ++ [h.puts.length] :=
      fresh_append _ _
    refine ⟨?_, fun id => ?_, fun id hid => ?_, fun e he => ?_⟩
    · rw [History.next, hput, ← List.append_assoc, List.pairwise_append]
      refine ⟨hs.ordered, List.pairwise_singleton _ _, fun id hid n hn => ?_⟩
      rw [List.mem_singleton.mp hn]
      exact (hs.complete id).mpr (.inl hid)
    · rw [History.next, hput, ← List.append_assoc, List.length_append, List.length_singleton,
        List.mem_append, List.mem_singleton, or_right_comm, ← hs.complete id]
      exact Nat.lt_succ_iff_lt_or_eq
    · rw [History.next, hput, ← List.append_assoc, List.mem_append, List.mem_singleton]
      rintro (hold | rfl)
      · exact hs.apart id hid hold
      · exact absurd ((hs.complete _).mpr (.inr hid)) (Nat.lt_irrefl _)
    · rcases List.mem_append.mp he with hold | hnew
      · have hval := hs.vals e hold
        exact List.getElem?_append_left (List.getElem?_eq_some_iff.mp hval).1 ▸ hval
      · rw [List.mem_singleton.mp hnew, History.next]
        exact List.getElem?_concat_length
  | take a => exact hs.leave
  | discard a => exact hs.leave
  | recycle a =>
    have hback : fresh (h.queue.tail ++ h.queue.head?.toList.map fun e =>
        { e with recycled := true }) = fresh h.queue.tail := by
      rw [fresh_append]
      cases h.queue with
      | nil => rfl
      | cons e q => simp [fresh]
    have hleave := hs.leave
    refine ⟨?_, fun id => ?_, fun id hid => ?_, fun e he => ?_⟩
    · rw [History.next, hback]
      exact hleave.ordered
    · rw [History.next, hback]
      exact hleave.complete id
    · rw [History.next, hback]
      exact hleave.apart id hid
    · rcases List.mem_append.mp he with hold | hnew
      · exact hleave.vals e hold
      · obtain ⟨e', he', rfl⟩ := List.mem_map.mp hnew
        exact hs.vals e' (List.mem_of_mem_head? (Option.mem_toList.mp he'))
  | clear =>
    have hsplit := List.pairwise_append.mp hs.ordered
    have hnone : h.left ++ fresh ([] : List (Entry α)) = h.left := List.append_nil _
    refine ⟨?_, fun id => ?_, fun id hid => ?_, fun e he => nomatch he⟩
    · show (h.left ++ fresh ([] : List (Entry α))).Pairwise (· < ·)
      rw [hnone]
      exact hsplit.1
    · show id < h.puts.length ↔ id ∈ h.left ++ fresh ([] : List (Entry α)) ∨
          id ∈ h.cleared ++ fresh h.queue
      rw [hs.complete id, hnone, List.mem_append, List.mem_append, or_assoc]
      exact or_congr_right or_comm
    · show id ∉ h.left ++ fresh ([] : List (Entry α))
      rw [hnone]
      rcases List.mem_append.mp hid with hold | hnow
      · exact fun hleft => hs.apart id hold (List.mem_append_left _ hleft)
      · exact fun hleft => absurd (hsplit.2.2 id hleft id hnow) (Nat.lt_irrefl _)

theorem history_sound (evs : List (Event α)) : (history evs).Sound := by
  induction evs using List.reverseRecOn with
  | nil => exact History.empty_sound
  | append_singleton evs ev ih =>
    rw [history_append_singleton]
    exact ih.next ev

theorem orderly_nil : Orderly ([] : List (Event α)) := by
  intro before ev after h
  exact absurd h (by simp)

theorem Orderly.snoc (ho : Orderly evs) (hev : Allowed (history evs) ev) : Orderly (evs ++ [ev]) := by
  intro before ev' after h
  rcases List.eq_nil_or_concat after with rfl | ⟨after, last, rfl⟩
  · obtain ⟨rfl, hlast⟩ := List.append_inj' h rfl
    cases hlast
    exact hev
  · rw [List.concat_eq_append, ← List.cons_append, ← List.append_assoc] at h
    obtain ⟨hevs, -⟩ := List.append_inj' h rfl
    exact ho before ev' after hevs

end History

end BootableRecovery.Fifo
