import BootableRecovery.Lib.Machine

/-!
# Prefix codes given by a table

A total code for byte strings. The strings listed in a table have the code the
table gives them; every other string is written with an escape code. The codes
of a table are prefix free and do not start with the escape byte 0, so that a
code can be recognised at the start of any longer input.

* `decode_encode`: a code is read back, whatever follows it.
* `decode_take`: decoding looks at the code only, not at what follows it.
-/

namespace BootableRecovery

/-- A table of strings with their codes. -/
structure CodeTable where
  entries : List (Bytes × Bytes)
  marked : ∀ e ∈ entries, ∃ b rest, e.2 = b :: rest ∧ b ≠ 0
  prefixFree : ∀ e ∈ entries, ∀ e' ∈ entries, e.2 <+: e'.2 → e = e'

namespace CodeTable

/-- The escape code: every byte is announced by a 1, the end by a 0. -/
def escape : Bytes → Bytes
  | [] => [0]
  | b :: d => 1 :: b :: escape d

/-- Read an escape code: the string and the number of bytes read. -/
def unescape : Bytes → Option (Bytes × Nat)
  | 0 :: _ => some ([], 1)
  | 1 :: b :: r => (unescape r).map fun p => (b :: p.1, p.2 + 2)
  | _ => none

/-- The code of a string. -/
def encode (t : CodeTable) (d : Bytes) : Bytes :=
  match t.entries.find? fun e => e.1 == d with
  | some e => e.2
  | none => 0 :: escape d

/-- Read the code at the start of an input: the string and the length of the
code. -/
def decode (t : CodeTable) (input : Bytes) : Option (Bytes × Nat) :=
  match t.entries.find? fun e => e.2.isPrefixOf input with
  | some e => some (e.1, e.2.length)
  | none =>
    match input with
    | 0 :: r => (unescape r).map fun p => (p.1, p.2 + 1)
    | _ => none

theorem unescape_escape (d rest : Bytes) :
    unescape (escape d ++ rest) = some (d, (escape d).length) := by
  induction d with
  | nil => simp [escape, unescape]
  | cons b d ih => simp [escape, unescape, ih]

theorem unescape_take {input d : Bytes} {k : Nat} (h : unescape input = some (d, k)) :
    k ≤ input.length ∧ ∀ rest, unescape (input.take k ++ rest) = some (d, k) := by
  fun_induction unescape input generalizing d k with
  | case1 r =>
    cases h
    simp [unescape]
  | case2 b r ih =>
    obtain ⟨⟨d', k'⟩, hd, he⟩ := Option.map_eq_some_iff.mp h
    cases he
    obtain ⟨hle, hrest⟩ := ih hd
    refine ⟨by simp only [List.length_cons]; omega, fun rest => ?_⟩
    simp [unescape, hrest rest]
  | case3 => cases h

/-- The entry whose code starts an input is found first, because the codes are
prefix free. -/
theorem find_code (t : CodeTable) {e : Bytes × Bytes} (he : e ∈ t.entries) (rest : Bytes) :
    t.entries.find? (fun e' => e'.2.isPrefixOf (e.2 ++ rest)) = some e := by
  have huniq : ∀ e' ∈ t.entries, e'.2 <+: e.2 ++ rest → e' = e := by
    intro e' he' hpre
    rcases List.prefix_or_prefix_of_prefix hpre (List.prefix_append e.2 rest) with h | h
    · exact t.prefixFree e' he' e he h
    · exact (t.prefixFree e he e' he' h).symm
  cases hfind : t.entries.find? (fun e' => e'.2.isPrefixOf (e.2 ++ rest)) with
  | none =>
    have := List.find?_eq_none.mp hfind e he
    simp at this
  | some e' =>
    have hpre := List.find?_some hfind
    rw [huniq e' (List.mem_of_find?_eq_some hfind) (List.isPrefixOf_iff_prefix.mp hpre)]

/-- No table code starts an escaped string. -/
theorem find_escaped (t : CodeTable) (r : Bytes) :
    t.entries.find? (fun e => e.2.isPrefixOf (0 :: r)) = none := by
  rw [List.find?_eq_none]
  intro e he hpre
  obtain ⟨b, rest, hb, hne⟩ := t.marked e he
  rw [hb, List.isPrefixOf_iff_prefix] at hpre
  exact hne (List.cons_prefix_cons.mp hpre).1

theorem decode_encode (t : CodeTable) (d rest : Bytes) :
    t.decode (t.encode d ++ rest) = some (d, (t.encode d).length) := by
  unfold encode
  split
  · rename_i e hfind
    have hd : e.1 = d := by simpa using List.find?_some hfind
    simp only [decode, t.find_code (List.mem_of_find?_eq_some hfind), hd]
  · simp only [List.cons_append, decode, t.find_escaped, unescape_escape]
    rfl

theorem decode_take (t : CodeTable) {input d : Bytes} {k : Nat}
    (h : t.decode input = some (d, k)) :
    k ≤ input.length ∧ ∀ rest, t.decode (input.take k ++ rest) = some (d, k) := by
  unfold decode at h
  split at h
  · rename_i e hfind
    cases h
    have hpre : e.2 <+: input := by simpa using List.find?_some hfind
    have htake : input.take e.2.length = e.2 := List.prefix_iff_eq_take.mp hpre |>.symm
    refine ⟨hpre.length_le, fun rest => ?_⟩
    simp only [htake, decode, t.find_code (List.mem_of_find?_eq_some hfind)]
  · rename_i hnone
    split at h
    · rename_i r
      obtain ⟨⟨d', k'⟩, hd, he⟩ := Option.map_eq_some_iff.mp h
      cases he
      obtain ⟨hle, hrest⟩ := unescape_take hd
      refine ⟨by simp only [List.length_cons]; omega, fun rest => ?_⟩
      simp only [List.take_succ_cons, List.cons_append, decode, t.find_escaped, hrest rest]
      rfl
    · cases h

end CodeTable

end BootableRecovery
