import BootableRecovery.Applypatch.Storage
import BootableRecovery.Lib.Pointer

/-!
# SHA-1 digests as strings

`ParseSha1` of `applypatch.c` and `PrintSha1` of `install.c`, character by character and
with the arrays that they write.

* `ParseSha1_eq`: the loop computes `parseSha1`, which the model of `applypatch` uses.
* `ParseSha1_iff`: it accepts what its comment says, but for a digest with a colon behind it.
* `ParseSha1_PrintSha1`: a printed digest is read back.
-/

namespace BootableRecovery.Applypatch

/-! ## The functions -/

def SHA_DIGEST_SIZE : Nat := 20

/-- The loop of `ParseSha1` with `n` characters to go. The value is `ps`, or `none` for the
return value -1, and the array. -/
def parseSha1Loop (str : Bytes) : (n i ps pd : Nat) → Bytes → Outcome (Option Nat × Bytes)
  | 0, _, ps, _, digest => .done (some ps, digest)
  | n + 1, i, ps, pd, digest => do
    let c ← peek str ps
    match hexDigit c with
    | none => .done (none, digest)
    | some digit =>
      if i % 2 = 0 then do
        let digest ← poke digest pd (UInt8.ofNat (digit <<< 4))
        parseSha1Loop str n (i + 1) (ps + 1) pd digest
      else do
        let byte ← peek digest pd
        let digest ← poke digest pd (byte ||| UInt8.ofNat digit)
        parseSha1Loop str n (i + 1) (ps + 1) (pd + 1) digest

/-- `ParseSha1`: the return value, and the array `digest` behind it. -/
def ParseSha1 (str digest : Bytes) : Outcome (Int × Bytes) := do
  let r ← parseSha1Loop str (SHA_DIGEST_SIZE * 2) 0 0 0 digest
  match r with
  | (none, digest) => .done (-1, digest)
  | (some ps, digest) => do
    let c ← peek str ps
    .done (if c ≠ 0 then -1 else 0, digest)

def alphabet : Bytes := ascii "0123456789abcdef"

/-- The loop of `PrintSha1` with `n` bytes to go. -/
def printSha1Loop (digest : Bytes) : (n i : Nat) → Bytes → Outcome Bytes
  | 0, _, buffer => .done buffer
  | n + 1, i, buffer => do
    let byte ← peek digest i
    let hi ← peek alphabet ((byte >>> 4) &&& 0xf).toNat
    let buffer ← poke buffer (i * 2) hi
    let byte ← peek digest i
    let lo ← peek alphabet (byte &&& 0xf).toNat
    let buffer ← poke buffer (i * 2 + 1) lo
    printSha1Loop digest n (i + 1) buffer

/-- `PrintSha1`; `buffer` is the memory that it allocates. -/
def PrintSha1 (buffer digest : Bytes) : Outcome Bytes := do
  let buffer ← printSha1Loop digest SHA_DIGEST_SIZE 0 buffer
  poke buffer (SHA_DIGEST_SIZE * 2) 0

/-! ## What the comment says -/

/-- `c` is the hexadecimal digit of the value `v`, in either case. -/
def DigitOf (v : Nat) (c : UInt8) : Prop :=
  alphabet[v]? = some c ∨ (ascii "0123456789ABCDEF")[v]? = some c

/-- The bytes that digits stand for. -/
inductive Denotes : Bytes → Bytes → Prop
  | nil : Denotes [] []
  | byte {c c' b : UInt8} {digits digest : Bytes} {hi lo : Nat} (hhi : DigitOf hi c)
      (hlo : DigitOf lo c') (hb : b.toNat = 16 * hi + lo) (h : Denotes digits digest) :
      Denotes (c :: c' :: digits) (b :: digest)

/-- A digest, or a digest with a colon and anything behind it. -/
inductive Sha1String (digest : Bytes) : Bytes → Prop
  | alone {digits : Bytes} (h : Denotes digits digest) : Sha1String digest digits
  | colon {digits : Bytes} (h : Denotes digits digest) (anything : Bytes) :
      Sha1String digest (digits ++ 58 :: anything)

/-- What the comment says of the string `str`: the digest is accepted, and nothing else. -/
def ParsesAsSpecified (str : Bytes) : Prop :=
  ∀ rest digest : Bytes, digest.length = SHA_DIGEST_SIZE →
    ∃ r d, ParseSha1 (str ++ 0 :: rest) digest = .done (r, d) ∧ d.length = SHA_DIGEST_SIZE ∧
      ((r = 0 ∧ Sha1String d str) ∨
        (r = -1 ∧ ¬∃ d : Bytes, d.length = SHA_DIGEST_SIZE ∧ Sha1String d str))

/-- 40 digits and a colon, and anything behind it. -/
def ColonForm (str : Bytes) : Prop :=
  ∃ digits digest anything : Bytes, Denotes digits digest ∧ digest.length = SHA_DIGEST_SIZE ∧
    str = digits ++ 58 :: anything

/-! ## Digits -/

theorem digitOf_lt {v : Nat} {c : UInt8} (h : DigitOf v c) : v < 16 := by
  rcases h with h | h <;> exact (List.getElem?_eq_some_iff.mp h).1

theorem digitOf_iff {v : Nat} {c : UInt8} : DigitOf v c ↔
    ([48, 49, 50, 51, 52, 53, 54, 55, 56, 57, 97, 98, 99, 100, 101, 102] : Bytes)[v]? = some c ∨
      ([48, 49, 50, 51, 52, 53, 54, 55, 56, 57, 65, 66, 67, 68, 69, 70] : Bytes)[v]? = some c := by
  have hlower : alphabet = [48, 49, 50, 51, 52, 53, 54, 55, 56, 57, 97, 98, 99, 100, 101, 102] :=
    ascii_ofList _
  have hupper : ascii "0123456789ABCDEF" =
      [48, 49, 50, 51, 52, 53, 54, 55, 56, 57, 65, 66, 67, 68, 69, 70] := ascii_ofList _
  rw [DigitOf, hlower, hupper]

/-- A character at an offset from the first one of its kind. -/
theorem eq_ofNat_add {c : UInt8} {base : Nat} (h : base ≤ c.toNat) :
    c = UInt8.ofNat (base + (c.toNat - base)) := by
  rw [Nat.add_sub_cancel' h, UInt8.ofNat_toNat]

theorem hexDigit_sound {c : UInt8} {v : Nat} (h : hexDigit c = some v) : DigitOf v c := by
  rw [digitOf_iff]
  unfold hexDigit at h
  simp only [UInt8.le_iff_toNat_le] at h
  split_ifs at h with hdigit hlower hupper
  · obtain ⟨hlow, hhigh⟩ : 48 ≤ c.toNat ∧ c.toNat ≤ 57 := hdigit
    obtain rfl := Option.some.inj h
    rw [eq_ofNat_add hlow]
    have hlt : c.toNat - 48 < 10 := by omega
    generalize c.toNat - 48 = n at *
    left
    interval_cases n <;> rfl
  · obtain ⟨hlow, hhigh⟩ : 97 ≤ c.toNat ∧ c.toNat ≤ 102 := hlower
    obtain rfl := Option.some.inj h
    rw [eq_ofNat_add hlow]
    have hlt : c.toNat - 97 < 6 := by omega
    generalize c.toNat - 97 = n at *
    left
    interval_cases n <;> rfl
  · obtain ⟨hlow, hhigh⟩ : 65 ≤ c.toNat ∧ c.toNat ≤ 70 := hupper
    obtain rfl := Option.some.inj h
    rw [eq_ofNat_add hlow]
    have hlt : c.toNat - 65 < 6 := by omega
    generalize c.toNat - 65 = n at *
    right
    interval_cases n <;> rfl

theorem hexDigit_eq_some_iff {c : UInt8} {v : Nat} : hexDigit c = some v ↔ DigitOf v c := by
  refine ⟨hexDigit_sound, fun h => ?_⟩
  have hlt := digitOf_lt h
  rw [digitOf_iff] at h
  interval_cases v <;> rcases h with h | h <;> cases h <;> rfl

theorem Denotes.length {digits digest : Bytes} (h : Denotes digits digest) :
    digits.length = 2 * digest.length := by
  induction h with
  | nil => rfl
  | byte _ _ _ _ ih =>
    simp only [List.length_cons, ih]
    omega

theorem hexBytes_eq_some_iff {digits digest : Bytes} :
    hexBytes digits = some digest ↔ Denotes digits digest := by
  constructor
  · intro h
    induction digits using hexBytes.induct generalizing digest with
    | case1 =>
      cases h
      exact .nil
    | case2 c => cases h
    | case3 hi lo ps ih =>
      simp only [hexBytes, Option.bind_eq_bind, Option.bind_eq_some_iff, Option.some.injEq] at h
      obtain ⟨v, hv, w, hw, rest, hrest, rfl⟩ := h
      have hhi := hexDigit_eq_some_iff.mp hv
      have hlo := hexDigit_eq_some_iff.mp hw
      have hlt := digitOf_lt hhi
      have hlt' := digitOf_lt hlo
      refine .byte hhi hlo ?_ (ih hrest)
      rw [UInt8.toNat_ofNat', Nat.mod_eq_of_lt (by omega)]
  · intro h
    induction h with
    | nil => rfl
    | @byte c c' b _ _ hi lo hhi hlo hb _ ih =>
      have hbyte : UInt8.ofNat (16 * hi + lo) = b := by
        rw [← hb, UInt8.ofNat_toNat]
      simp only [hexBytes, hexDigit_eq_some_iff.mpr hhi, hexDigit_eq_some_iff.mpr hlo, ih,
        Option.bind_eq_bind, Option.bind_some, hbyte]

/-- The colon is no digit. -/
theorem hexDigit_colon : hexDigit 58 = none := by decide

theorem hexDigit_zero : hexDigit 0 = none := by decide

theorem nibbles_or {hi lo : Nat} (hlo : lo < 16) :
    (UInt8.ofNat (hi <<< 4) ||| UInt8.ofNat lo) = UInt8.ofNat (16 * hi + lo) := by
  rw [← UInt8.ofNat_or, ← Nat.shiftLeft_add_eq_or_of_lt hlo, Nat.shiftLeft_eq, Nat.mul_comm]

/-! ## The loop of `ParseSha1` -/

section Loop

/-- Two characters make a byte. -/
theorem parseSha1Loop_byte {pre post dpre dpost : Bytes} {c c' a : UInt8} {hi lo n i : Nat}
    (hhi : DigitOf hi c) (hlo : DigitOf lo c') (heven : i % 2 = 0) :
    parseSha1Loop (pre ++ c :: c' :: post) (n + 2) i pre.length dpre.length (dpre ++ a :: dpost) =
      parseSha1Loop (pre ++ c :: c' :: post) n (i + 2) (pre.length + 2) (dpre.length + 1)
        (dpre ++ UInt8.ofNat (16 * hi + lo) :: dpost) := by
  have hnext : peek (pre ++ c :: c' :: post) (pre.length + 1 : Nat) = .done c' := by
    have hpeek := peek_append (pre ++ [c]) c' post
    rwa [List.append_assoc, List.length_append] at hpeek
  have hodd : (i + 1) % 2 ≠ 0 := by omega
  rw [parseSha1Loop, peek_append, Outcome.done_bind, hexDigit_eq_some_iff.mpr hhi]
  dsimp only
  rw [if_pos heven, poke_append, Outcome.done_bind, parseSha1Loop, hnext, Outcome.done_bind,
    hexDigit_eq_some_iff.mpr hlo]
  dsimp only
  rw [if_neg hodd, peek_append, Outcome.done_bind, poke_append, Outcome.done_bind,
    nibbles_or (digitOf_lt hlo)]

/-- All the characters are digits. -/
theorem parseSha1Loop_denotes {digits digest : Bytes} (h : Denotes digits digest) :
    ∀ {pre post dpre dpost : Bytes} {i : Nat}, dpost.length = digest.length → i % 2 = 0 →
      parseSha1Loop (pre ++ (digits ++ post)) digits.length i pre.length dpre.length
          (dpre ++ dpost) =
        .done (some (pre.length + digits.length), dpre ++ digest) := by
  induction h with
  | nil =>
    intro pre post dpre dpost i hlen _
    rw [List.length_eq_zero_iff.mp hlen]
    rfl
  | @byte c c' b digits digest hi lo hhi hlo hb _ ih =>
    intro pre post dpre dpost i hlen heven
    obtain ⟨a, dpost, rfl⟩ := List.exists_cons_of_length_eq_add_one hlen
    have hbyte : UInt8.ofNat (16 * hi + lo) = b := by rw [← hb, UInt8.ofNat_toNat]
    have hrest := @ih (pre ++ [c, c']) post (dpre ++ [b]) dpost (i + 2) (by simpa using hlen) (by omega)
    simp only [List.append_assoc, List.cons_append, List.nil_append, List.length_append,
      List.length_cons, List.length_nil, Nat.zero_add] at hrest
    rw [List.cons_append, List.cons_append, List.length_cons, List.length_cons,
      parseSha1Loop_byte hhi hlo heven, hbyte, hrest]
    congr 3
    omega

theorem peek_of_getElem? {b : Bytes} {i : Nat} {c : UInt8} (h : b[i]? = some c) :
    peek b i = .done c := by
  rw [peek, byteAt_ofNat, h]

theorem peek_of_lt {b : Bytes} {i : Nat} (h : i < b.length) : peek b i = .done b[i] :=
  peek_of_getElem? (List.getElem?_eq_getElem h)

theorem poke_of_lt {b : Bytes} {i : Nat} (h : i < b.length) (c : UInt8) :
    poke b i c = .done (b.set i c) := by
  rw [poke, if_pos ⟨by omega, by omega⟩, Int.toNat_natCast]

/-- A character that is no digit ends the loop, wherever it stands. -/
theorem parseSha1Loop_stops {mem : Bytes} {k : Nat} {x : UInt8} (hx : mem[k]? = some x)
    (hnone : hexDigit x = none) (n : Nat) :
    ∀ {i : Nat} {digest : Bytes}, i + n = 2 * digest.length → i ≤ k → k < i + n →
      ∃ d, parseSha1Loop mem n i i (i / 2) digest = .done (none, d) ∧ d.length = digest.length := by
  induction n with
  | zero =>
    intro i digest _ hle hlt
    omega
  | succ n ih =>
    intro i digest hlen hle hlt
    have hin : i < mem.length := lt_of_le_of_lt hle (List.getElem?_eq_some_iff.mp hx).1
    have hpd : i / 2 < digest.length := by omega
    rw [parseSha1Loop, peek_of_lt hin, Outcome.done_bind]
    cases hdigit : hexDigit mem[i] with
    | none => exact ⟨digest, rfl, rfl⟩
    | some digit =>
      have hne : i ≠ k := by
        rintro rfl
        rw [List.getElem?_eq_getElem hin] at hx
        rw [Option.some.inj hx, hnone] at hdigit
        cases hdigit
      dsimp only
      split_ifs with heven
      · have hhalf : i / 2 = (i + 1) / 2 := by omega
        rw [poke_of_lt hpd, Outcome.done_bind, hhalf]
        obtain ⟨d, hrun, hd⟩ := @ih (i + 1) (digest.set ((i + 1) / 2) (UInt8.ofNat (digit <<< 4)))
          (by rw [List.length_set]; omega) (by omega) (by omega)
        exact ⟨d, hrun, hd.trans List.length_set⟩
      · have hhalf : i / 2 + 1 = (i + 1) / 2 := by omega
        rw [peek_of_lt hpd, Outcome.done_bind, poke_of_lt hpd, Outcome.done_bind, hhalf]
        obtain ⟨d, hrun, hd⟩ := @ih (i + 1)
          (digest.set (i / 2) (digest[i / 2] ||| UInt8.ofNat digit))
          (by rw [List.length_set]; omega) (by omega) (by omega)
        exact ⟨d, hrun, hd.trans List.length_set⟩

end Loop

/-! ## `ParseSha1` -/

section Parse

variable {str rest digest : Bytes}

/-- 40 digits: the character behind them decides. -/
theorem ParseSha1_digits {digits d : Bytes} (h : Denotes digits d)
    (hd : d.length = SHA_DIGEST_SIZE) (hlen : digest.length = SHA_DIGEST_SIZE) (c : UInt8)
    (post : Bytes) :
    ParseSha1 (digits ++ c :: post) digest = .done (if c ≠ 0 then -1 else 0, d) := by
  have hdigits : digits.length = SHA_DIGEST_SIZE * 2 := by
    rw [h.length, hd]
    omega
  have hloop := @parseSha1Loop_denotes _ _ h [] (c :: post) [] digest 0 (hlen.trans hd.symm) rfl
  simp only [List.nil_append, List.length_nil, Nat.zero_add] at hloop
  unfold ParseSha1
  rw [← hdigits, hloop, Outcome.done_bind]
  dsimp only
  rw [peek_append, Outcome.done_bind]

/-- Fewer than 40 digits are not accepted. -/
theorem ParseSha1_stops {mem : Bytes} {k : Nat} {x : UInt8} (hx : mem[k]? = some x)
    (hnone : hexDigit x = none) (hk : k < SHA_DIGEST_SIZE * 2)
    (hlen : digest.length = SHA_DIGEST_SIZE) :
    ∃ d, ParseSha1 mem digest = .done (-1, d) ∧ d.length = SHA_DIGEST_SIZE := by
  obtain ⟨d, hrun, hd⟩ := @parseSha1Loop_stops mem k x hx hnone (SHA_DIGEST_SIZE * 2) 0 digest
    (by omega) (Nat.zero_le k) (by omega)
  refine ⟨d, ?_, hd.trans hlen⟩
  unfold ParseSha1
  rw [hrun]
  rfl

/-- A string either begins with the digits of `n` bytes, or one of its first characters is no
digit. -/
theorem digits_or_stops (rest : Bytes) (n : Nat) : ∀ str : Bytes,
    (∃ digits d post : Bytes, Denotes digits d ∧ d.length = n ∧ str = digits ++ post) ∨
      ∃ k x, k < 2 * n ∧ (str ++ 0 :: rest)[k]? = some x ∧ hexDigit x = none := by
  induction n with
  | zero => exact fun str => .inl ⟨[], [], str, .nil, rfl, rfl⟩
  | succ n ih =>
    intro str
    match str with
    | [] => exact .inr ⟨0, 0, by omega, rfl, hexDigit_zero⟩
    | c :: str =>
      cases hhi : hexDigit c with
      | none => exact .inr ⟨0, c, by omega, rfl, hhi⟩
      | some hi =>
        match str with
        | [] => exact .inr ⟨1, 0, by omega, rfl, hexDigit_zero⟩
        | c' :: str =>
          cases hlo : hexDigit c' with
          | none => exact .inr ⟨1, c', by omega, rfl, hlo⟩
          | some lo =>
            have hdhi := hexDigit_eq_some_iff.mp hhi
            have hdlo := hexDigit_eq_some_iff.mp hlo
            have hlt := digitOf_lt hdhi
            have hlt' := digitOf_lt hdlo
            rcases ih str with ⟨digits, d, post, hden, hlen, rfl⟩ | ⟨k, x, hk, hx, hnone⟩
            · refine .inl ⟨c :: c' :: digits, UInt8.ofNat (16 * hi + lo) :: d, post,
                .byte hdhi hdlo ?_ hden, by rw [List.length_cons, hlen], rfl⟩
              rw [UInt8.toNat_ofNat', Nat.mod_eq_of_lt (by omega)]
            · exact .inr ⟨k + 2, x, by omega, hx, hnone⟩

/-- The bytes of a digest are determined by its digits. -/
theorem Denotes.unique {digits post digits' post' d d' : Bytes} (h : Denotes digits d)
    (h' : Denotes digits' d') (hlen : d.length = d'.length)
    (heq : digits ++ post = digits' ++ post') : digits = digits' ∧ d = d' ∧ post = post' := by
  obtain ⟨rfl, rfl⟩ := List.append_inj heq (by rw [h.length, h'.length, hlen])
  have hsome := (hexBytes_eq_some_iff.mpr h).symm.trans (hexBytes_eq_some_iff.mpr h')
  exact ⟨rfl, Option.some.inj hsome, rfl⟩

theorem Denotes.digit {digits d : Bytes} (h : Denotes digits d) :
    ∀ c ∈ digits, hexDigit c ≠ none := by
  induction h with
  | nil => exact fun c hc => absurd hc List.not_mem_nil
  | byte hhi hlo _ _ ih =>
    intro c hc
    rcases List.mem_cons.mp hc with rfl | hc
    · rw [hexDigit_eq_some_iff.mpr hhi]
      exact Option.some_ne_none _
    rcases List.mem_cons.mp hc with rfl | hc
    · rw [hexDigit_eq_some_iff.mpr hlo]
      exact Option.some_ne_none _
    · exact ih c hc

/-- The character that ends the loop is not among the digits of a digest. -/
theorem not_denotes_of_stops {digits post d : Bytes} {k : Nat} {x : UInt8}
    (hx : (digits ++ post)[k]? = some x) (hnone : hexDigit x = none)
    (hk : k < 2 * d.length) : ¬Denotes digits d := by
  intro h
  rw [List.getElem?_append_left (h.length ▸ hk)] at hx
  exact h.digit x (List.mem_of_getElem? hx) hnone

theorem parseSha1_eq_some_iff {d : Bytes} :
    parseSha1 str = some d ↔ Denotes str d ∧ d.length = SHA_DIGEST_SIZE := by
  unfold parseSha1 SHA_DIGEST_SIZE
  constructor
  · intro h
    split_ifs at h with hlen
    have hden := hexBytes_eq_some_iff.mp h
    have hlength := hden.length
    exact ⟨hden, by omega⟩
  · rintro ⟨hden, hd⟩
    rw [if_pos (by rw [hden.length, hd])]
    exact hexBytes_eq_some_iff.mpr hden

/-- What `ParseSha1` does with a string. -/
inductive ParseCase (rest digest str : Bytes) : Prop
  | digits {d : Bytes} (h : Denotes str d) (hd : d.length = SHA_DIGEST_SIZE)
      (hrun : ParseSha1 (str ++ 0 :: rest) digest = .done (0, d))
  | longer {s d post : Bytes} {c : UInt8} (h : Denotes s d) (hd : d.length = SHA_DIGEST_SIZE)
      (hstr : str = s ++ c :: post) (hrun : ParseSha1 (str ++ 0 :: rest) digest = .done (-1, d))
  | stops {d : Bytes} {k : Nat} {x : UInt8} (hk : k < 2 * SHA_DIGEST_SIZE)
      (hx : (str ++ 0 :: rest)[k]? = some x) (hnone : hexDigit x = none)
      (hd : d.length = SHA_DIGEST_SIZE)
      (hrun : ParseSha1 (str ++ 0 :: rest) digest = .done (-1, d))

theorem ParseSha1_cases (hzero : 0 ∉ str) (rest : Bytes)
    (hlen : digest.length = SHA_DIGEST_SIZE) : ParseCase rest digest str := by
  rcases digits_or_stops rest SHA_DIGEST_SIZE str with
    ⟨s, d, post, hden, hd, rfl⟩ | ⟨k, x, hk, hx, hnone⟩
  · cases post with
    | nil =>
      rw [List.append_nil]
      exact .digits hden hd (ParseSha1_digits hden hd hlen 0 rest)
    | cons c post =>
      have hc : c ≠ 0 := by
        rintro rfl
        exact hzero (by simp)
      refine .longer hden hd rfl ?_
      rw [List.append_assoc, List.cons_append, ParseSha1_digits hden hd hlen, if_pos hc]
  · obtain ⟨d, hrun, hd⟩ := ParseSha1_stops hx hnone (by omega) hlen
    exact .stops hk hx hnone hd hrun

/-- The loop computes `parseSha1`. -/
theorem ParseSha1_zero_iff (hzero : 0 ∉ str) (hlen : digest.length = SHA_DIGEST_SIZE) {d : Bytes} :
    ParseSha1 (str ++ 0 :: rest) digest = .done (0, d) ↔ parseSha1 str = some d := by
  rw [parseSha1_eq_some_iff]
  constructor
  · intro h
    cases ParseSha1_cases hzero rest hlen with
    | digits hden hd hrun =>
      cases h.symm.trans hrun
      exact ⟨hden, hd⟩
    | longer _ _ _ hrun => cases h.symm.trans hrun
    | stops _ _ _ _ hrun => cases h.symm.trans hrun
  · rintro ⟨hden, hd⟩
    exact ParseSha1_digits hden hd hlen 0 rest

end Parse

/-! ## `PrintSha1` -/

section Print

/-- The two characters of a byte are its digits. -/
theorem nibbles (b : UInt8) : ((b >>> 4) &&& 0xf).toNat < 16 ∧ (b &&& 0xf).toNat < 16 ∧
    b.toNat = 16 * ((b >>> 4) &&& 0xf).toNat + (b &&& 0xf).toNat := by
  have hlt := b.toNat_lt
  have hlow : (b &&& 0xf).toNat = b.toNat % 16 := Nat.and_two_pow_sub_one_eq_mod _ 4
  have hhigh : ((b >>> 4) &&& 0xf).toNat = b.toNat / 16 % 16 := by
    rw [UInt8.toNat_and, UInt8.toNat_shiftRight]
    exact (Nat.and_two_pow_sub_one_eq_mod _ 4).trans (by rw [Nat.shiftRight_eq_div_pow]; rfl)
  omega

theorem alphabet_digit {v : Nat} (h : v < 16) : ∃ c, peek alphabet v = .done c ∧ DigitOf v c := by
  have hlt : v < alphabet.length := h
  exact ⟨alphabet[v], peek_of_lt hlt, .inl (List.getElem?_eq_getElem hlt)⟩

/-- The loop writes digits of the bytes, and nothing behind them. -/
theorem printSha1Loop_denotes (ds : Bytes) :
    ∀ dpre bpre bpost : Bytes, bpre.length = 2 * dpre.length → 2 * ds.length ≤ bpost.length →
      ∃ digits, Denotes digits ds ∧
        printSha1Loop (dpre ++ ds) ds.length dpre.length (bpre ++ bpost) =
          .done (bpre ++ (digits ++ bpost.drop (2 * ds.length))) := by
  induction ds with
  | nil => exact fun _ _ _ _ _ => ⟨[], .nil, rfl⟩
  | cons b ds ih =>
    intro dpre bpre bpost hpre hpost
    obtain ⟨hhi, hlo, hb⟩ := nibbles b
    obtain ⟨c, hc, hdc⟩ := alphabet_digit hhi
    obtain ⟨c', hc', hdc'⟩ := alphabet_digit hlo
    match bpost, hpost with
    | x :: y :: bpost, hpost =>
      have hwrite : poke (bpre ++ x :: y :: bpost) (dpre.length * 2) c =
          .done (bpre ++ c :: y :: bpost) := by
        have hpoke := poke_append bpre x c (y :: bpost)
        rwa [hpre, Nat.cast_mul, mul_comm] at hpoke
      have hwrite' : poke (bpre ++ c :: y :: bpost) (dpre.length * 2 + 1) c' =
          .done (bpre ++ c :: c' :: bpost) := by
        have hpoke := poke_append (bpre ++ [c]) y c' bpost
        rw [List.append_assoc, List.append_assoc, List.length_append, hpre] at hpoke
        simpa [mul_comm] using hpoke
      obtain ⟨digits, hden, hrun⟩ := ih (dpre ++ [b]) (bpre ++ [c, c']) bpost
        (by simp only [List.length_append, hpre, List.length_cons, List.length_nil]; omega)
        (by simp only [List.length_cons] at hpost; omega)
      refine ⟨c :: c' :: digits, .byte hdc hdc' hb hden, ?_⟩
      simp only [List.append_assoc, List.cons_append, List.nil_append, List.length_append,
        List.length_cons, List.length_nil, Nat.zero_add] at hrun
      rw [List.length_cons, printSha1Loop, peek_append, Outcome.done_bind, hc, Outcome.done_bind,
        hwrite, Outcome.done_bind, Outcome.done_bind, hc', Outcome.done_bind, hwrite',
        Outcome.done_bind, hrun]
      rfl

/-- The string that is printed has the digits of the digest. -/
theorem PrintSha1_denotes {buffer digest : Bytes} (hlen : digest.length = SHA_DIGEST_SIZE)
    (hbuffer : buffer.length = SHA_DIGEST_SIZE * 2 + 1) :
    ∃ digits, Denotes digits digest ∧ PrintSha1 buffer digest = .done (digits ++ [0]) := by
  obtain ⟨digits, hden, hrun⟩ := printSha1Loop_denotes digest [] [] buffer rfl (by omega)
  obtain ⟨x, hx⟩ : ∃ x, buffer.drop (2 * digest.length) = [x] :=
    List.length_eq_one_iff.mp (by rw [List.length_drop]; omega)
  have hdigits : digits.length = SHA_DIGEST_SIZE * 2 := by rw [hden.length]; omega
  rw [List.nil_append, List.nil_append, List.nil_append, hx] at hrun
  refine ⟨digits, hden, ?_⟩
  have hend : poke (digits ++ [x]) ((SHA_DIGEST_SIZE : Int) * 2) 0 = .done (digits ++ [0]) := by
    have hpoke := poke_append digits x 0 []
    rwa [hdigits, Nat.cast_mul] at hpoke
  unfold PrintSha1
  rw [← hlen]
  show (printSha1Loop digest digest.length 0 buffer >>= _) = _
  rw [show printSha1Loop digest digest.length 0 buffer = _ from hrun, Outcome.done_bind, hlen]
  exact hend

end Print

/-! ## The codec -/

/-- What is not accepted is no digest, unless a colon stands behind it. -/
theorem parsesAsSpecified_iff {str : Bytes} (hzero : 0 ∉ str) :
    ParsesAsSpecified str ↔ ¬ColonForm str := by
  constructor
  · rintro h ⟨digits, d, anything, hden, hd, rfl⟩
    obtain ⟨r, d', hrun, -, ⟨hr, -⟩ | ⟨-, hnone⟩⟩ :=
      h [] (List.replicate SHA_DIGEST_SIZE 0) List.length_replicate
    · rw [List.append_assoc, List.cons_append,
        ParseSha1_digits hden hd List.length_replicate, if_pos (by decide), hr] at hrun
      cases hrun
    · exact hnone ⟨d, hd, .colon hden anything⟩
  · intro hcolon rest digest hlen
    cases ParseSha1_cases hzero rest hlen with
    | @digits d hden hd hrun => exact ⟨0, d, hrun, hd, .inl ⟨rfl, .alone hden⟩⟩
    | @longer s d post c hden hd hstr hrun =>
      refine ⟨-1, d, hrun, hd, .inr ⟨rfl, ?_⟩⟩
      rintro ⟨d', hd', halone | ⟨hden', anything⟩⟩
      · have hlength := congrArg List.length hstr
        rw [List.length_append, List.length_cons, halone.length, hden.length, hd, hd'] at hlength
        omega
      · exact hcolon ⟨_, d', anything, hden', hd', rfl⟩
    | @stops d k x hk hx hnone hd hrun =>
      refine ⟨-1, d, hrun, hd, .inr ⟨rfl, ?_⟩⟩
      rintro ⟨d', hd', halone | ⟨hden', anything⟩⟩
      · exact not_denotes_of_stops hx hnone (hd' ▸ hk) halone
      · rw [List.append_assoc] at hx
        exact not_denotes_of_stops hx hnone (hd' ▸ hk) hden'

/-- A printed digest is read back. -/
def ReadBack : Prop :=
  ∀ buffer digest d : Bytes, buffer.length = SHA_DIGEST_SIZE * 2 + 1 →
    digest.length = SHA_DIGEST_SIZE → d.length = SHA_DIGEST_SIZE →
      ∃ str, PrintSha1 buffer d = .done str ∧ ParseSha1 str digest = .done (0, d)

theorem readBack : ReadBack := by
  intro buffer digest d hbuffer hlen hd
  obtain ⟨digits, hden, hrun⟩ := PrintSha1_denotes hd hbuffer
  exact ⟨digits ++ [0], hrun, ParseSha1_digits hden hd hlen 0 []⟩

/-- A string is parsed as the comment says when it is not a digest with a colon behind it. A
printed digest is read back. -/
theorem sha1_codec_iff (str : Bytes) (hzero : 0 ∉ str) :
    (ParsesAsSpecified str ↔ ¬ColonForm str) ∧ ReadBack :=
  ⟨parsesAsSpecified_iff hzero, readBack⟩

/-- A digest alone. -/
theorem sha1_codec_zeros : (0 : UInt8) ∉ List.replicate 40 (48 : UInt8) ∧
    (ParsesAsSpecified (List.replicate 40 48) ↔ ¬ColonForm (List.replicate 40 48)) ∧ ReadBack :=
  ⟨by decide, sha1_codec_iff (List.replicate 40 48) (by decide)⟩

/-- A digest with a colon and a name behind it is not accepted. -/
theorem sha1_colon_rejected : ¬∀ str : Bytes, 0 ∉ str → ParsesAsSpecified str := by
  intro h
  have hstr := h (List.replicate 40 48 ++ ascii ":boot") (by decide)
  rw [parsesAsSpecified_iff (by decide)] at hstr
  refine hstr ⟨List.replicate 40 48, List.replicate 20 0, ascii "boot", ?_, rfl, rfl⟩
  exact hexBytes_eq_some_iff.mp (by decide)

end BootableRecovery.Applypatch
