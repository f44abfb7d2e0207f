import BootableRecovery.Lib.CString
import Mathlib.Data.List.DropRight

/-!
# Pointers into a buffer

A parser that works in place walks over a buffer with pointers. A pointer is an offset,
which may lie before the buffer as long as nothing is read or written there.

* `peek`, `poke` and `stringAt`: an access outside the buffer is a fault.
* `skipWhile` steps forward over bytes of one kind, and `trimBack` steps back.
* On a buffer that is written as `pre ++ s ++ 0 :: post` they do what `List.takeWhile` and
  `List.rdropWhile` do on the string `s`.
* `strtokAt` is `strtok` with the pointer that it returns.

Nothing in this module mentions the programs that are verified.
-/

namespace BootableRecovery

/-- The byte at a pointer. -/
def peek (b : Bytes) (p : Int) : Outcome UInt8 :=
  match byteAt b p with
  | some c => .done c
  | none => .fault

/-- Write a byte. -/
def poke (b : Bytes) (p : Int) (c : UInt8) : Outcome Bytes :=
  if 0 ≤ p ∧ p < b.length then .done (b.set p.toNat c) else .fault

/-- The string at a pointer. -/
def stringAt (b : Bytes) (p : Int) : Outcome Bytes :=
  if 0 ≤ p ∧ 0 ∈ b.drop p.toNat then .done (cstr (b.drop p.toNat)) else .fault

/-- `strchr` for a byte that is not the terminator; `none` is `NULL`. -/
def strchr (b : Bytes) (p : Int) (c : UInt8) : Outcome (Option Int) := do
  let s ← stringAt b p
  .done (if c ∈ s then some (p + s.idxOf c) else none)

/-- `while (*p && pred(*p)) ++p;` -/
def skipWhile (pred : UInt8 → Bool) (b : Bytes) : Nat → Int → Outcome Int
  | 0, _ => .spin
  | fuel + 1, p => do
    let c ← peek b p
    if c ≠ 0 ∧ pred c then skipWhile pred b fuel (p + 1) else .done p

/-- `while (p > start && pred(*p)) --p;` -/
def trimBack (pred : UInt8 → Bool) (b : Bytes) (start : Int) : Nat → Int → Outcome Int
  | 0, _ => .spin
  | fuel + 1, p =>
    if p > start then do
      let c ← peek b p
      if pred c then trimBack pred b start fuel (p - 1) else .done p
    else .done p

variable {s : Bytes} (pred : UInt8 → Bool)

theorem peek_append (pre : Bytes) (c : UInt8) (post : Bytes) :
    peek (pre ++ c :: post) pre.length = .done c := by
  rw [peek, byteAt_ofNat, List.getElem?_append_right le_rfl, Nat.sub_self]
  rfl

theorem poke_append (pre : Bytes) (a c : UInt8) (post : Bytes) :
    poke (pre ++ a :: post) pre.length c = .done (pre ++ c :: post) := by
  have hlt : (pre.length : Int) < (pre ++ a :: post).length := by
    rw [List.length_append, List.length_cons]
    omega
  rw [poke, if_pos ⟨by omega, hlt⟩, Int.toNat_natCast, List.set_append_right _ _ le_rfl,
    Nat.sub_self]
  rfl

theorem stringAt_append (h : 0 ∉ s) (pre post : Bytes) :
    stringAt (pre ++ (s ++ 0 :: post)) pre.length = .done s := by
  rw [stringAt, Int.toNat_natCast, List.drop_left, if_pos ⟨by omega, by simp⟩,
    cstr_append_zero h]

theorem strchr_append (h : 0 ∉ s) (pre post : Bytes) (c : UInt8) :
    strchr (pre ++ (s ++ 0 :: post)) pre.length c =
      .done (if c ∈ s then some (pre.length + s.idxOf c : Nat) else none) := by
  rw [strchr, stringAt_append h, Outcome.done_bind]
  push_cast
  rfl

/-- Bytes of the kind are skipped up to another one or the terminator. -/
theorem skipWhile_append (h : 0 ∉ s) (post : Bytes) (fuel : Nat) :
    ∀ pre : Bytes, s.length < fuel →
      skipWhile pred (pre ++ (s ++ 0 :: post)) fuel pre.length =
        .done (pre.length + (s.takeWhile pred).length : Nat) := by
  induction s generalizing fuel with
  | nil =>
    intro pre hfuel
    obtain ⟨fuel, rfl⟩ : ∃ n, fuel = n + 1 := ⟨fuel - 1, by omega⟩
    rw [skipWhile, List.nil_append, peek_append, Outcome.done_bind]
    exact if_neg (by simp)
  | cons c s ih =>
    intro pre hfuel
    rw [List.length_cons] at hfuel
    obtain ⟨fuel, rfl⟩ : ∃ n, fuel = n + 1 := ⟨fuel - 1, by omega⟩
    obtain ⟨hc, hs⟩ : c ≠ 0 ∧ 0 ∉ s := by simpa [eq_comm] using h
    rw [skipWhile, List.cons_append, peek_append, Outcome.done_bind]
    by_cases hpred : pred c = true
    · have hnext := ih hs fuel (pre ++ [c]) (by omega)
      rw [List.append_assoc, List.length_append, List.length_singleton] at hnext
      rw [if_pos ⟨hc, hpred⟩, List.takeWhile_cons_of_pos hpred, List.length_cons]
      refine hnext.trans ?_
      rw [Nat.add_assoc, Nat.add_comm 1]
    · rw [if_neg (by simp [hpred]), List.takeWhile_cons_of_neg hpred]
      rfl

/-- Bytes of the kind at the end of a string are skipped backwards, up to a first byte that
is of another kind. -/
theorem trimBack_append (pre : Bytes) (fuel : Nat) : ∀ {s : Bytes} (post : Bytes),
    (∀ c ∈ s.head?, pred c = false) → s.length < fuel →
      trimBack pred (pre ++ (s ++ post)) pre.length fuel (pre.length + s.length - 1) =
        .done (pre.length + (s.rdropWhile pred).length - 1) := by
  induction fuel with
  | zero => exact fun post _ hfuel => absurd hfuel (Nat.not_lt_zero _)
  | succ fuel ih =>
    intro s post hhead hfuel
    rcases List.eq_nil_or_concat s with rfl | ⟨s, c, rfl⟩
    · rw [trimBack, if_neg (by simp), List.rdropWhile_nil]
    rw [List.concat_eq_append] at hhead hfuel ⊢
    rw [List.length_append, List.length_singleton] at hfuel
    have hlast : ((pre.length : Int) + (s ++ [c]).length - 1) = (pre ++ s).length := by
      rw [List.length_append, List.length_append, List.length_singleton]
      omega
    have hsplit : pre ++ (s ++ [c] ++ post) = (pre ++ s) ++ c :: post := by
      simp only [List.append_assoc, List.singleton_append]
    rw [trimBack, hlast, hsplit, peek_append, Outcome.done_bind, List.rdropWhile_concat]
    by_cases hnil : s = []
    · subst hnil
      have hno : pred c = false := hhead c rfl
      rw [if_neg (by simp), if_neg (by simp [hno])]
      simp
    have hlt : pre.length < (pre ++ s).length := by
      rw [List.length_append]
      have := List.length_pos_iff.mpr hnil
      omega
    rw [if_pos (by exact_mod_cast hlt)]
    by_cases hpred : pred c = true
    · have hstep : ((pre ++ s).length : Int) - 1 = pre.length + s.length - 1 := by
        rw [List.length_append]
        push_cast
        rfl
      have hhead' : ∀ a ∈ s.head?, pred a = false := by
        cases s with
        | nil => exact absurd rfl hnil
        | cons a s => exact hhead
      rw [if_pos hpred, if_pos hpred, hstep, List.append_assoc]
      exact ih (c :: post) hhead' (by omega)
    · rw [if_neg hpred, if_neg hpred, hlast]

/-! ## `strtok` -/

/-- `strtok` on the string at offset `pos`: the offset of the token, the buffer, and the
offset from which the next call goes on. -/
def strtokAt (delim b : Bytes) (pos : Nat) : Option (Nat × Bytes × Nat) :=
  (strtokBuf delim b pos).map fun (_, b', next) =>
    (pos + ((cstr (b.drop pos)).takeWhile (· ∈ delim)).length, b', next)

variable {delim : Bytes}

theorem cstr_drop_append (h : 0 ∉ s) (pre post : Bytes) :
    cstr ((pre ++ (s ++ 0 :: post)).drop pre.length) = s := by
  rw [List.drop_left, cstr_append_zero h]

/-- Only delimiters are left. -/
theorem strtokAt_none (hzero : 0 ∉ s) (h : ∀ c ∈ s, c ∈ delim) (pre post : Bytes) :
    strtokAt delim (pre ++ (s ++ 0 :: post)) pre.length = none := by
  have hnil : s.dropWhile (· ∈ delim) = [] := by
    rw [List.dropWhile_eq_nil_iff]
    simpa using h
  rw [strtokAt, strtokBuf, cstr_drop_append hzero]
  simp only
  rw [if_pos hnil]
  rfl

/-- The parts of a string at the start of which a token stands. -/
theorem token_split {skipped token rest : Bytes} (hskip : ∀ c ∈ skipped, c ∈ delim)
    (hne : token ≠ []) (htoken : ∀ c ∈ token, c ∉ delim) (hrest : ∀ c ∈ rest.head?, c ∈ delim) :
    (skipped ++ (token ++ rest)).takeWhile (· ∈ delim) = skipped ∧
      (skipped ++ (token ++ rest)).dropWhile (· ∈ delim) = token ++ rest ∧
      (token ++ rest).takeWhile (· ∉ delim) = token ∧
      (token ++ rest).dropWhile (· ∉ delim) = rest := by
  have hskip' : ∀ c ∈ skipped, decide (c ∈ delim) = true := by simpa using hskip
  have htoken' : ∀ c ∈ token, decide (c ∉ delim) = true := by simpa using htoken
  have hfirst : (token ++ rest).takeWhile (· ∈ delim) = [] ∧
      (token ++ rest).dropWhile (· ∈ delim) = token ++ rest := by
    cases token with
    | nil => exact absurd rfl hne
    | cons c token => simp [htoken c List.mem_cons_self]
  have hlast : rest.takeWhile (· ∉ delim) = [] ∧ rest.dropWhile (· ∉ delim) = rest := by
    cases rest with
    | nil => simp
    | cons c rest => simp [hrest c rfl]
  rw [List.takeWhile_append_of_pos hskip', List.dropWhile_append_of_pos hskip',
    List.takeWhile_append_of_pos htoken', List.dropWhile_append_of_pos htoken', hfirst.1, hfirst.2,
    hlast.1, hlast.2]
  simp

/-- A token with a delimiter behind it, which becomes the terminator. -/
theorem strtokAt_token {skipped token rest : Bytes} {a : UInt8}
    (hzero : 0 ∉ skipped ++ (token ++ a :: rest)) (hskip : ∀ c ∈ skipped, c ∈ delim)
    (hne : token ≠ []) (htoken : ∀ c ∈ token, c ∉ delim) (ha : a ∈ delim) (pre post : Bytes) :
    strtokAt delim (pre ++ (skipped ++ (token ++ a :: rest) ++ 0 :: post)) pre.length =
      some ((pre ++ skipped).length,
        (pre ++ skipped ++ (token ++ [0])) ++ (rest ++ 0 :: post),
        (pre ++ skipped ++ (token ++ [0])).length) := by
  obtain ⟨h₁, h₂, h₃, h₄⟩ := token_split hskip hne htoken
    (show ∀ c ∈ (a :: rest).head?, c ∈ delim from fun c hc => by cases hc; exact ha)
  have hne' : token ++ a :: rest ≠ [] := by simp
  have hsplit : pre ++ (skipped ++ (token ++ a :: rest) ++ 0 :: post) =
      (pre ++ skipped ++ token) ++ a :: (rest ++ 0 :: post) := by
    simp only [List.append_assoc, List.cons_append]
  have hset : (pre ++ (skipped ++ (token ++ a :: rest) ++ 0 :: post)).set
      (pre.length + (skipped.length + token.length)) 0 =
        (pre ++ skipped ++ (token ++ [0])) ++ (rest ++ 0 :: post) := by
    rw [hsplit, ← Nat.add_assoc, ← List.length_append, ← List.length_append,
      List.set_append_right _ _ le_rfl, Nat.sub_self]
    simp only [List.set_cons_zero, List.append_assoc, List.cons_append, List.nil_append]
  rw [strtokAt, strtokBuf, cstr_drop_append hzero]
  simp only [h₁, h₂, h₃, h₄, if_neg hne', List.cons_ne_nil, if_false, hset, Option.map_some,
    List.length_append, List.length_singleton, Nat.add_assoc]

/-- A token at the end of the string. -/
theorem strtokAt_last {skipped token : Bytes} (hzero : 0 ∉ skipped ++ token)
    (hskip : ∀ c ∈ skipped, c ∈ delim) (hne : token ≠ []) (htoken : ∀ c ∈ token, c ∉ delim)
    (pre post : Bytes) :
    strtokAt delim (pre ++ (skipped ++ token ++ 0 :: post)) pre.length =
      some ((pre ++ skipped).length, (pre ++ skipped ++ token) ++ 0 :: post,
        (pre ++ skipped ++ token).length) := by
  obtain ⟨h₁, h₂, h₃, h₄⟩ := token_split hskip hne htoken
    (show ∀ c ∈ ([] : Bytes).head?, c ∈ delim by simp)
  rw [List.append_nil] at h₁ h₂ h₃ h₄
  rw [strtokAt, strtokBuf, cstr_drop_append hzero]
  simp only [h₁, h₂, h₃, h₄, if_neg hne, if_true, Option.map_some, List.length_append,
    List.append_assoc, Nat.add_assoc]

end BootableRecovery
