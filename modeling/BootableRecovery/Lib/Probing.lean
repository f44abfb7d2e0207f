import BootableRecovery.Lib.Machine

/-!
# Circular probing

The search loop of an open-addressed table, over slots of an arbitrary type. A
search starts at a home position, moves to the next slot, wraps around at the
end of the array, and stops at the first slot that a predicate accepts.

* `FirstStop`: the first accepted slot on the way around the array.
* `exists_firstStop`: there is one as soon as any slot is accepted.
* `probe_eq_of_firstStop`: the loop finds it, in at most as many turns as there
  are slots.
* `Reaches`: no vacant slot stands between a home position and a slot. A search
  that stops at vacant slots and at one reached slot ends there or before.
-/

namespace BootableRecovery.Probing

variable {σ : Type}

/-- The probing loop. `next` is the step to the following slot; where it is
`none` the loop is left with the cursor behind the slot it was on. -/
def probe (next : Nat → Option Nat) (stop : σ → Bool) (slots : List σ) : Nat → Nat → Outcome Nat
  | 0, _ => .spin
  | fuel + 1, i =>
    match slots[i]? with
    | none => .fault
    | some e =>
      if stop e then .done i
      else match next i with
        | none => .done (i + 1)
        | some i' => probe next stop slots fuel i'

/-- `i` is the first slot that `stop` accepts, going around from `s`. -/
def FirstStop (stop : σ → Bool) (slots : List σ) (s i : Nat) : Prop :=
  ∃ k, k < slots.length ∧ i = (s + k) % slots.length ∧
    (∃ e, slots[i]? = some e ∧ stop e = true) ∧
    ∀ j, j < k → ∀ e, slots[(s + j) % slots.length]? = some e → stop e = false

/-- `next` goes around the array. A table of one slot is exempt: there the
search can only stop where it starts. -/
def GoesAround (next : Nat → Option Nat) (n : Nat) : Prop :=
  1 < n → ∀ i, i < n → next i = some ((i + 1) % n)

/-- Going around from `s`, every slot is met. -/
theorem exists_offset {n s i : Nat} (hs : s < n) (hi : i < n) : ∃ k, k < n ∧ (s + k) % n = i := by
  by_cases h : s ≤ i
  · refine ⟨i - s, by omega, ?_⟩
    rw [Nat.add_sub_cancel' h, Nat.mod_eq_of_lt hi]
  · refine ⟨i + n - s, by omega, ?_⟩
    rw [show s + (i + n - s) = i + n by omega, Nat.add_mod_right, Nat.mod_eq_of_lt hi]

theorem exists_firstStop {stop : σ → Bool} {slots : List σ} {s : Nat} (hs : s < slots.length)
    (h : ∃ e ∈ slots, stop e = true) : ∃ i, FirstStop stop slots s i := by
  classical
  obtain ⟨e, he, hstop⟩ := h
  obtain ⟨i, hi, hget⟩ := List.getElem_of_mem he
  obtain ⟨k, hk, hki⟩ := exists_offset hs hi
  have hex : ∃ k, ∃ e, slots[(s + k) % slots.length]? = some e ∧ stop e = true := by
    refine ⟨k, e, ?_, hstop⟩
    rw [hki, List.getElem?_eq_getElem hi, hget]
  refine ⟨_, Nat.find hex, ?_, rfl, Nat.find_spec hex, ?_⟩
  · refine lt_of_le_of_lt (Nat.find_min' hex ⟨e, ?_, hstop⟩) hk
    rw [hki, List.getElem?_eq_getElem hi, hget]
  · intro j hj e' he'
    cases hstop' : stop e' with
    | false => rfl
    | true => exact absurd ⟨e', he', hstop'⟩ (Nat.find_min hex hj)

/-- The loop stops at the first accepted slot. -/
theorem probe_eq_of_firstStop {next : Nat → Option Nat} {stop : σ → Bool} {slots : List σ}
    (hnext : GoesAround next slots.length) {s i : Nat} (hs : s < slots.length)
    (h : FirstStop stop slots s i) {fuel : Nat} (hfuel : slots.length ≤ fuel) :
    probe next stop slots fuel s = .done i := by
  obtain ⟨k, hk, rfl, ⟨e, he, hstop⟩, hbefore⟩ := h
  have hlt : k < fuel := lt_of_lt_of_le hk hfuel
  clear hfuel
  -- Induction on the number of slots that are passed.
  induction k generalizing s fuel with
  | zero =>
    obtain ⟨fuel, rfl⟩ : ∃ f, fuel = f + 1 := ⟨fuel - 1, by omega⟩
    have hhome : (s + 0) % slots.length = s := Nat.mod_eq_of_lt hs
    rw [hhome] at he ⊢
    simp only [probe, he, hstop, if_true]
  | succ k ih =>
    obtain ⟨fuel, rfl⟩ : ∃ f, fuel = f + 1 := ⟨fuel - 1, by omega⟩
    have hget : slots[s]? = some slots[s] := List.getElem?_eq_getElem hs
    have hpass : stop slots[s] = false := by
      refine hbefore 0 (by omega) _ ?_
      rw [Nat.add_zero, Nat.mod_eq_of_lt hs, hget]
    have hshift : ∀ j, ((s + 1) % slots.length + j) % slots.length =
        (s + (j + 1)) % slots.length := by
      intro j
      rw [Nat.mod_add_mod, Nat.add_assoc, Nat.add_comm 1 j]
    have hrest := @ih ((s + 1) % slots.length) (Nat.mod_lt _ (by omega)) fuel (by omega)
      (fun j hj e he => hbefore (j + 1) (by omega) e (by rw [← hshift]; exact he))
      (by rw [hshift]; exact he) (by omega)
    rw [hshift] at hrest
    simp only [probe, hget, hpass, hnext (by omega) s hs, Bool.false_eq_true, if_false, hrest]

/-- No vacant slot stands between the home position `h` and the slot `i`. -/
def Reaches (vacant : σ → Bool) (slots : List σ) (h i : Nat) : Prop :=
  ∃ k, k < slots.length ∧ i = (h + k) % slots.length ∧
    ∀ j, j < k → ∀ e, slots[(h + j) % slots.length]? = some e → vacant e = false

/-- A search that stops at every vacant slot reaches the slot it stops at. -/
theorem FirstStop.reaches {vacant stop : σ → Bool} {slots : List σ} {s i : Nat}
    (h : FirstStop stop slots s i) (hstop : ∀ e, vacant e = true → stop e = true) :
    Reaches vacant slots s i := by
  obtain ⟨k, hk, hi, -, hbefore⟩ := h
  refine ⟨k, hk, hi, fun j hj e he => ?_⟩
  have hpass := hbefore j hj e he
  cases hv : vacant e with
  | false => rfl
  | true => rw [hstop e hv] at hpass; cases hpass

/-- A search does not end at a vacant slot when an accepted, occupied slot is
reached from where it starts. -/
theorem FirstStop.not_vacant {vacant stop : σ → Bool} {slots : List σ} {s i i' : Nat} {e e' : σ}
    (h : FirstStop stop slots s i) (he : slots[i]? = some e) (hreach : Reaches vacant slots s i')
    (he' : slots[i']? = some e') (hstop : stop e' = true) (hocc : vacant e' = false) :
    vacant e = false := by
  obtain ⟨k, hk, rfl, -, hbefore⟩ := h
  obtain ⟨k', hk', rfl, hpath⟩ := hreach
  rcases lt_trichotomy k k' with hlt | rfl | hgt
  · exact hpath k hlt e he
  · rw [he] at he'
    cases he'
    exact hocc
  · rw [hbefore k' hgt e' he'] at hstop
    cases hstop

/-- Reaching a slot does not depend on slots that stay occupied. -/
theorem Reaches.set {vacant : σ → Bool} {slots : List σ} {h i p : Nat} {e : σ}
    (hr : Reaches vacant slots h i) (he : vacant e = false) :
    Reaches vacant (slots.set p e) h i := by
  obtain ⟨k, hk, hi, hpath⟩ := hr
  refine ⟨k, by simpa using hk, by simpa using hi, fun j hj e' he' => ?_⟩
  rw [List.length_set, List.getElem?_set] at he'
  split at he'
  · split at he'
    · cases he'
      exact he
    · cases he'
  · exact hpath j hj e' he'

end BootableRecovery.Probing
