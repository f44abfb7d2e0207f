import Mathlib.Order.Monotone.Basic
import BootableRecovery.Lib.Machine

/-!
# Loops whose turns depend on answers from outside

A turn of such a loop has a number, by which it finds the answers that it gets from
outside, and it ends the loop or gives the state of the next turn.

* `loop_rule`: what the turns preserve holds of what the loop ends with.
* `loop_spins_iff`: the loop ends with no number of turns if and only if every turn on
  its way goes on.
* `forall_goes_on_iff`: when the turns that are not idle decrease a measure, this means
  that from some turn on all are idle.

Nothing in this module mentions the programs that are verified.
-/

namespace BootableRecovery

variable {σ α : Type}

/-- At most `fuel` turns, from turn `k` on. -/
def loop (turn : Nat → σ → σ ⊕ α) : Nat → Nat → σ → Outcome α
  | 0, _, _ => .spin
  | fuel + 1, k, s =>
    match turn k s with
    | .inl s' => loop turn fuel (k + 1) s'
    | .inr a => .done a

variable {turn : Nat → σ → σ ⊕ α}

/-- An invariant of the turns, and what the last one makes of it. -/
theorem loop_rule {I : σ → Prop} {Q : α → Prop} (hgo : ∀ k s s', I s → turn k s = .inl s' → I s')
    (hend : ∀ k s a, I s → turn k s = .inr a → Q a) {fuel k : Nat} {s : σ} {a : α} (hs : I s)
    (h : loop turn fuel k s = .done a) : Q a := by
  induction fuel generalizing k s with
  | zero => cases h
  | succ fuel ih =>
    rw [loop] at h
    cases hturn : turn k s with
    | inl s' =>
      rw [hturn] at h
      exact ih (hgo k s s' hs hturn) h
    | inr b =>
      rw [hturn] at h
      exact Outcome.done.inj h ▸ hend k s b hs hturn

section Going

variable {state : Nat → σ} {go : Nat → Prop}

theorem loop_of_goes_on (hgo : ∀ k, go k → turn k (state k) = .inl (state (k + 1)))
    (h : ∀ k, go k) (fuel k : Nat) : loop turn fuel k (state k) = .spin := by
  induction fuel generalizing k with
  | zero => rfl
  | succ fuel ih =>
    rw [loop, hgo k (h k)]
    exact ih (k + 1)

theorem loop_of_ends {a : α} (hgo : ∀ k, go k → turn k (state k) = .inl (state (k + 1))) {n : Nat}
    (hbefore : ∀ k < n, go k) (hend : turn n (state n) = .inr a) {k : Nat} (hk : k ≤ n) :
    loop turn (n - k + 1) k (state k) = .done a := by
  obtain ⟨d, rfl⟩ : ∃ d, n = k + d := ⟨n - k, by omega⟩
  rw [Nat.add_sub_cancel_left]
  induction d generalizing k with
  | zero =>
    rw [Nat.add_zero] at hend
    rw [loop, hend]
  | succ d ih =>
    have hnext : k + (d + 1) = k + 1 + d := by omega
    rw [loop, hgo k (hbefore k (by omega))]
    simp only
    rw [hnext] at hbefore hend
    exact ih hbefore hend (by omega)

/-- The loop does not end if and only if no turn on its way ends it. -/
theorem loop_spins_iff (hgo : ∀ k, go k → turn k (state k) = .inl (state (k + 1)))
    (hend : ∀ k, ¬ go k → ∃ a, turn k (state k) = .inr a) :
    (∀ fuel, loop turn fuel 0 (state 0) = .spin) ↔ ∀ k, go k := by
  constructor
  · intro hspin
    by_contra hstop
    have hex : ∃ n, ¬ go n := not_forall.mp hstop
    classical
    obtain ⟨a, ha⟩ := hend _ (Nat.find_spec hex)
    have hbefore : ∀ k < Nat.find hex, go k := fun k hk => not_not.mp (Nat.find_min hex hk)
    have hdone := loop_of_ends hgo hbefore ha (Nat.zero_le _)
    rw [hspin] at hdone
    cases hdone
  · exact fun h fuel => loop_of_goes_on hgo h fuel 0

/-- A bounded measure can only decrease finitely often. -/
theorem forall_goes_on_iff {idle : Nat → Prop} {μ : Nat → Nat}
    (hidle : ∀ k, idle k → go k ∧ μ (k + 1) ≤ μ k)
    (hbusy : ∀ k, go k → ¬ idle k → μ (k + 1) < μ k) :
    (∀ k, go k) ↔ ∃ n, (∀ j, n ≤ j → idle j) ∧ ∀ k < n, go k := by
  constructor
  · intro hgo
    have hle : ∀ k, μ (k + 1) ≤ μ k := fun k => by
      by_cases hk : idle k
      · exact (hidle k hk).2
      · exact (hbusy k (hgo k) hk).le
    have hanti : Antitone μ := antitone_nat_of_succ_le hle
    -- induction on the measure that is left
    have hend : ∀ m k, μ k ≤ m → ∃ n, ∀ j, n ≤ j → idle j := by
      intro m
      induction m with
      | zero =>
        intro k hk
        refine ⟨k, fun j hj => ?_⟩
        by_contra hbusyj
        have hlt := hbusy j (hgo j) hbusyj
        have hzero := hanti hj
        omega
      | succ m ih =>
        intro k hk
        by_cases hall : ∀ j, k ≤ j → idle j
        · exact ⟨k, hall⟩
        · obtain ⟨j, hj, hbusyj⟩ : ∃ j, k ≤ j ∧ ¬ idle j := by simpa using hall
          have hlt := hbusy j (hgo j) hbusyj
          have hle := hanti hj
          exact ih (j + 1) (by omega)
    obtain ⟨n, hn⟩ := hend (μ 0) 0 le_rfl
    exact ⟨n, hn, fun k _ => hgo k⟩
  · rintro ⟨n, hidles, hbefore⟩ k
    rcases Nat.lt_or_ge k n with hlt | hge
    · exact hbefore k hlt
    · exact (hidle k (hidles k hge)).1

end Going

end BootableRecovery
