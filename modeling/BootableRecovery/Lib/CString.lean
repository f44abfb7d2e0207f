import BootableRecovery.Lib.Machine

/-!
# C strings in buffers

The functions of the C library on zero-terminated strings that the programs
below use to encode and to decode lines of text.

* `cstr`: the string in a buffer, up to its first zero byte.
* `strlcpy`, `strlcat`: both store a string that is cut to fit; a sequence of
  them stores the concatenation (`strlcat_storeString`).
* `fgets`, `fgetsAll`: the lines of a stream, cut at the size of the buffer.
* `strtok`, `strtokAll`: the tokens of a string. `strtokBuf` is the same on the
  buffer that holds the string, where the byte behind a token is overwritten.

Nothing in this module mentions the programs that are verified.
-/

namespace BootableRecovery

/-- The bytes of a string literal. -/
def ascii (s : String) : Bytes := s.toList.map fun c => UInt8.ofNat c.toNat

/-- A literal is checked by its characters, without decoding the string. -/
theorem ascii_ofList (cs : List Char) :
    ascii (String.ofList cs) = cs.map fun c => UInt8.ofNat c.toNat := by
  rw [ascii, String.toList_ofList]

/-- The C string at the start of a buffer. -/
def cstr (b : Bytes) : Bytes := b.takeWhile (· ≠ 0)

theorem cstr_append_zero {s : Bytes} (h : 0 ∉ s) (tail : Bytes) : cstr (s ++ 0 :: tail) = s := by
  have hne : ∀ c ∈ s, (decide (c ≠ 0)) = true := by
    intro c hc
    simp only [ne_eq, decide_not, Bool.not_eq_true', decide_eq_false_iff_not]
    rintro rfl
    exact h hc
  unfold cstr
  rw [List.takeWhile_append_of_pos hne]
  simp

theorem zero_notMem_cstr (b : Bytes) : 0 ∉ cstr b := by
  intro h
  have := List.mem_takeWhile_imp h
  simp at this

theorem cstr_length_le (b : Bytes) : (cstr b).length ≤ b.length :=
  (List.takeWhile_prefix _).length_le

theorem cstr_of_zero_notMem {s : Bytes} (h : 0 ∉ s) : cstr s = s := by
  unfold cstr
  rw [List.takeWhile_eq_self_iff]
  intro c hc
  simp only [ne_eq, decide_not, Bool.not_eq_true', decide_eq_false_iff_not]
  rintro rfl
  exact h hc

/-! ## Storing a string -/

/-- Store a string in a buffer, cut so that the terminator fits. -/
def storeString (b s : Bytes) : Bytes :=
  s.take (b.length - 1) ++ 0 :: b.drop ((s.take (b.length - 1)).length + 1)

/-- `strlcpy(b, src, sizeof(b))`. -/
def strlcpy (b src : Bytes) : Bytes := storeString b src

/-- `strlcat(b, src, sizeof(b))`. Without a terminator in the buffer it does
nothing. -/
def strlcat (b src : Bytes) : Bytes :=
  if (cstr b).length = b.length then b
  else
    let s := src.take (b.length - 1 - (cstr b).length)
    cstr b ++ s ++ 0 :: b.drop ((cstr b).length + s.length + 1)

theorem storeString_length {b : Bytes} (hb : 0 < b.length) (s : Bytes) :
    (storeString b s).length = b.length := by
  unfold storeString
  simp only [List.length_append, List.length_cons, List.length_drop, List.length_take]
  omega

theorem cstr_storeString {s : Bytes} (h : 0 ∉ s) (b : Bytes) :
    cstr (storeString b s) = s.take (b.length - 1) :=
  cstr_append_zero (fun hmem => h (List.mem_of_mem_take hmem)) _

/-- Appending to a stored string stores the concatenation. -/
theorem strlcat_storeString {b s : Bytes} (hb : 0 < b.length) (h : 0 ∉ s) (src : Bytes) :
    strlcat (storeString b s) src = storeString b (s ++ src) := by
  have hlen := storeString_length hb s
  have hcut : (s.take (b.length - 1)).length ≤ b.length - 1 := by
    rw [List.length_take]
    omega
  have htake : s.take (b.length - 1) ++ src.take (b.length - 1 - (s.take (b.length - 1)).length) =
      (s ++ src).take (b.length - 1) := by
    rw [List.take_append, List.length_take]
    congr 2
    omega
  unfold strlcat
  rw [cstr_storeString h, hlen, if_neg (by omega)]
  simp only
  rw [htake, ← List.length_append, htake]
  conv_rhs => unfold storeString
  congr 2
  unfold storeString
  rw [← List.singleton_append, ← List.append_assoc, List.drop_append, List.drop_eq_nil_of_le,
    List.nil_append, List.drop_drop]
  · congr 1
    simp only [List.length_append, List.length_take, List.length_singleton]
    omega
  · simp only [List.length_append, List.length_take, List.length_singleton]
    omega

/-- Storing a string twice: only what lies behind it matters. -/
theorem storeString_congr {b b' s : Bytes} (hlen : b.length = b'.length)
    (hdrop : b.drop (s.take (b.length - 1)).length = b'.drop (s.take (b.length - 1)).length) :
    storeString b s = storeString b' s := by
  unfold storeString
  rw [← hlen, ← List.drop_drop, ← List.drop_drop, hdrop]

/-! ## Lines -/

/-- At most `n` bytes of a stream, not more than up to the end of the line, and
the rest of the stream. -/
def takeLine : Nat → Bytes → Bytes × Bytes
  | 0, s => ([], s)
  | _ + 1, [] => ([], [])
  | n + 1, c :: s => if c = 10 then ([c], s) else (c :: (takeLine n s).1, (takeLine n s).2)

/-- `fgets` with a buffer of `size` bytes: what is read (without the
terminator) and the rest of the stream; `none` at the end of it. -/
def fgets (size : Nat) (s : Bytes) : Option (Bytes × Bytes) :=
  if s = [] then none else some (takeLine (size - 1) s)

/-- All the lines that calls of `fgets` read, at most `fuel` of them. -/
def fgetsLoop (size : Nat) : Nat → Bytes → List Bytes
  | 0, _ => []
  | fuel + 1, s =>
    match fgets size s with
    | none => []
    | some (line, rest) => line :: fgetsLoop size fuel rest

/-- All the lines that calls of `fgets` read. Every call reads a byte, so the
number of bytes bounds the number of calls. -/
def fgetsAll (size : Nat) (s : Bytes) : List Bytes := fgetsLoop size s.length s

theorem takeLine_append (n : Nat) (s : Bytes) : (takeLine n s).1 ++ (takeLine n s).2 = s := by
  induction n generalizing s with
  | zero => rfl
  | succ n ih =>
    cases s with
    | nil => rfl
    | cons c s =>
      simp only [takeLine]
      split
      · rfl
      · rw [List.cons_append, ih]

theorem takeLine_length_le (n : Nat) (s : Bytes) : (takeLine n s).1.length ≤ n := by
  induction n generalizing s with
  | zero => exact le_rfl
  | succ n ih =>
    cases s with
    | nil => exact Nat.zero_le _
    | cons c s =>
      simp only [takeLine]
      split
      · exact Nat.succ_le_succ (Nat.zero_le _)
      · exact Nat.succ_le_succ (ih s)

/-- A line that fits is read up to its end. -/
theorem takeLine_line {n : Nat} {line : Bytes} (h : 10 ∉ line) (hn : line.length < n)
    (rest : Bytes) : takeLine n (line ++ 10 :: rest) = (line ++ [10], rest) := by
  induction line generalizing n with
  | nil =>
    obtain ⟨n, rfl⟩ : ∃ m, n = m + 1 := ⟨n - 1, by simp at hn; omega⟩
    simp [takeLine]
  | cons c line ih =>
    obtain ⟨n, rfl⟩ : ∃ m, n = m + 1 := ⟨n - 1, by simp at hn; omega⟩
    have hc : c ≠ 10 := fun hc => h (by simp [hc])
    have hline : 10 ∉ line := fun hmem => h (List.mem_cons_of_mem _ hmem)
    have hlt : line.length < n := by simpa using hn
    simp only [List.cons_append, takeLine, if_neg hc, ih hline hlt]

/-- A line that does not fit is cut. -/
theorem takeLine_long {n : Nat} {line : Bytes} (h : 10 ∉ line) (hn : n ≤ line.length)
    (rest : Bytes) : takeLine n (line ++ rest) = (line.take n, line.drop n ++ rest) := by
  induction line generalizing n with
  | nil =>
    obtain rfl : n = 0 := by simpa using hn
    rfl
  | cons c line ih =>
    cases n with
    | zero => rfl
    | succ n =>
      have hc : c ≠ 10 := fun hc => h (by simp [hc])
      have hline : 10 ∉ line := fun hmem => h (List.mem_cons_of_mem _ hmem)
      have hle : n ≤ line.length := by simpa using hn
      simp only [List.cons_append, takeLine, if_neg hc, ih hline hle, List.take_succ_cons,
        List.drop_succ_cons]

/-- A call of `fgets` reads something. -/
theorem takeLine_rest_length_lt {n : Nat} (hn : 0 < n) {s : Bytes} (hs : s ≠ []) :
    (takeLine n s).2.length < s.length := by
  cases n with
  | zero => omega
  | succ n =>
    cases s with
    | nil => exact absurd rfl hs
    | cons c s =>
      simp only [takeLine]
      split
      · simp
      · have := congrArg List.length (takeLine_append n s)
        simp only [List.length_append] at this
        simp only [List.length_cons]
        omega

/-- With enough fuel the number of calls does not depend on it. -/
theorem fgetsLoop_eq {size : Nat} (hsize : 1 < size) (fuel : Nat) : ∀ s : Bytes,
    s.length ≤ fuel → fgetsLoop size fuel s = fgetsAll size s := by
  have hgen : ∀ (fuel fuel' : Nat) (s : Bytes), s.length ≤ fuel → s.length ≤ fuel' →
      fgetsLoop size fuel s = fgetsLoop size fuel' s := by
    intro fuel
    induction fuel with
    | zero =>
      intro fuel' s hs hs'
      obtain rfl : s = [] := List.eq_nil_of_length_eq_zero (by omega)
      cases fuel' with
      | zero => rfl
      | succ fuel' => rfl
    | succ fuel ih =>
      intro fuel' s hs hs'
      by_cases hnil : s = []
      · subst hnil
        cases fuel' with
        | zero => rfl
        | succ fuel' => rfl
      · have hlt := takeLine_rest_length_lt (show 0 < size - 1 by omega) hnil
        cases fuel' with
        | zero => exact absurd (List.eq_nil_of_length_eq_zero (by omega)) hnil
        | succ fuel' =>
          simp only [fgetsLoop, fgets, if_neg hnil]
          rw [ih fuel' _ (by omega) (by omega)]
  intro s hs
  exact hgen fuel s.length s hs le_rfl

theorem fgetsAll_nil (size : Nat) : fgetsAll size [] = [] := rfl

theorem fgetsAll_of_ne {size : Nat} (hsize : 1 < size) {s : Bytes} (hs : s ≠ []) :
    fgetsAll size s = (takeLine (size - 1) s).1 :: fgetsAll size (takeLine (size - 1) s).2 := by
  have hlt := takeLine_rest_length_lt (show 0 < size - 1 by omega) hs
  obtain ⟨n, hn⟩ : ∃ n, s.length = n + 1 := ⟨s.length - 1, by omega⟩
  rw [fgetsAll, hn]
  simp only [fgetsLoop, fgets, if_neg hs]
  rw [fgetsLoop_eq hsize _ _ (by omega)]

/-- A line that is read fits in the buffer. -/
theorem length_of_mem_fgetsAll {size : Nat} {line s : Bytes} (h : line ∈ fgetsAll size s) :
    line.length ≤ size - 1 := by
  have hloop : ∀ (fuel : Nat) (s : Bytes), line ∈ fgetsLoop size fuel s →
      line.length ≤ size - 1 := by
    intro fuel
    induction fuel with
    | zero => exact fun s hmem => absurd hmem List.not_mem_nil
    | succ fuel ih =>
      intro s hmem
      simp only [fgetsLoop, fgets] at hmem
      split at hmem
      · exact absurd hmem List.not_mem_nil
      · rename_i heq
        split at heq
        · exact absurd heq (by simp)
        · obtain ⟨rfl, rfl⟩ := Prod.mk.inj (Option.some.inj heq)
          rcases List.mem_cons.mp hmem with rfl | hmem
          · exact takeLine_length_le _ _
          · exact ih _ hmem
  exact hloop _ _ h

/-- Lines that fit are read one by one. -/
theorem fgetsAll_flatten {size : Nat} {lines : List Bytes}
    (h : ∀ line ∈ lines, line.length < size ∧ ∃ body, 10 ∉ body ∧ line = body ++ [10]) :
    fgetsAll size lines.flatten = lines := by
  induction lines with
  | nil => rfl
  | cons line lines ih =>
    obtain ⟨hlt, body, hbody, rfl⟩ := h line (List.mem_cons_self ..)
    rw [List.length_append, List.length_singleton] at hlt
    have htake := takeLine_line hbody (show body.length < size - 1 by omega) lines.flatten
    rw [List.flatten_cons, List.append_assoc, List.singleton_append,
      fgetsAll_of_ne (by omega) (by simp), htake, ih fun l hl => h l (List.mem_cons_of_mem _ hl)]

/-- The calls read the whole stream. -/
theorem flatten_fgetsAll {size : Nat} (hsize : 1 < size) (s : Bytes) :
    (fgetsAll size s).flatten = s := by
  induction hn : s.length using Nat.strong_induction_on generalizing s with
  | _ n ih =>
    by_cases hs : s = []
    · rw [hs]
      rfl
    · have hlt := takeLine_rest_length_lt (show 0 < size - 1 by omega) hs
      rw [fgetsAll_of_ne hsize hs, List.flatten_cons, ih _ (hn ▸ hlt) _ rfl, takeLine_append]

/-- Where a call stops before the end of the stream. -/
theorem takeLine_stop {n : Nat} {s : Bytes} (h : (takeLine n s).2 ≠ []) :
    (takeLine n s).1.length = n ∨ ∃ body, (takeLine n s).1 = body ++ [10] := by
  induction n generalizing s with
  | zero => exact .inl rfl
  | succ n ih =>
    cases s with
    | nil => exact absurd rfl h
    | cons c s =>
      simp only [takeLine] at h ⊢
      split
      · rename_i hc
        exact .inr ⟨[], by rw [hc]; rfl⟩
      · rename_i hc
        rw [if_neg hc] at h
        rcases ih h with hlen | ⟨body, hbody⟩
        · exact .inl (congrArg Nat.succ hlen)
        · exact .inr ⟨c :: body, congrArg (c :: ·) hbody⟩

/-- A text without a newline before its end, which fits. -/
theorem takeLine_whole {n : Nat} {s : Bytes} (hlen : s.length ≤ n)
    (hend : ∀ a b, s = a ++ 10 :: b → b = []) : takeLine n s = (s, []) := by
  induction s generalizing n with
  | nil => cases n <;> rfl
  | cons c s ih =>
    cases n with
    | zero => simp at hlen
    | succ n =>
      have hrest := ih (Nat.le_of_succ_le_succ hlen) fun a b hab => hend (c :: a) b (congrArg _ hab)
      simp only [takeLine]
      split
      · rename_i hc
        rw [hend [] s (by rw [hc]; rfl)]
      · rw [hrest]

theorem fgetsAll_whole {size : Nat} {s : Bytes} (hs : s ≠ []) (hlt : s.length < size)
    (hend : ∀ a b, s = a ++ 10 :: b → b = []) : fgetsAll size s = [s] := by
  have hpos := List.length_pos_iff.mpr hs
  rw [fgetsAll_of_ne (by omega) hs, takeLine_whole (by omega) hend]
  rfl

/-- A call does not read over the end of a line. -/
theorem takeLine_append_line (n : Nat) (a rest : Bytes) :
    takeLine n (a ++ [10] ++ rest) =
      ((takeLine n (a ++ [10])).1, (takeLine n (a ++ [10])).2 ++ rest) := by
  induction n generalizing a with
  | zero => rfl
  | succ n ih =>
    cases a with
    | nil => rfl
    | cons c a =>
      simp only [List.cons_append, takeLine]
      split
      · rfl
      · rw [ih]

/-- What stands behind the end of a line is read apart from what stands in front of it. -/
theorem fgetsAll_append_line {size : Nat} (hsize : 1 < size) (a rest : Bytes) :
    fgetsAll size (a ++ [10] ++ rest) = fgetsAll size (a ++ [10]) ++ fgetsAll size rest := by
  induction hn : a.length using Nat.strong_induction_on generalizing a with
  | _ n ih =>
    have hne : a ++ [10] ≠ [] := by simp
    have hlt := takeLine_rest_length_lt (show 0 < size - 1 by omega) hne
    have hsplit := takeLine_append (size - 1) (a ++ [10])
    rw [fgetsAll_of_ne hsize (by simp), takeLine_append_line, fgetsAll_of_ne hsize hne,
      List.cons_append]
    generalize (takeLine (size - 1) (a ++ [10])).1 = line at *
    generalize (takeLine (size - 1) (a ++ [10])).2 = after at *
    rcases List.eq_nil_or_concat after with rfl | ⟨b, c, rfl⟩
    · rfl
    · -- What is left ends where the line ends.
      rw [List.concat_eq_append, ← List.append_assoc] at hsplit
      obtain ⟨-, hc⟩ := List.append_inj' hsplit rfl
      have hb : b.length < n := by simpa [hn] using hlt
      rw [List.concat_eq_append, hc]
      exact congrArg (line :: ·) (ih b.length hb b rfl)

/-- The first line that is read; it is cut or ends there when something is behind it. -/
theorem fgetsAll_cons {size : Nat} (hsize : 1 < size) {s : Bytes} (hs : s ≠ []) :
    ∃ line lines, fgetsAll size s = line :: lines ∧ s = line ++ lines.flatten ∧
      (lines ≠ [] → line.length = size - 1 ∨ ∃ body, line = body ++ [10]) := by
  refine ⟨_, _, fgetsAll_of_ne hsize hs, ?_, fun hlines => takeLine_stop fun hrest => ?_⟩
  · rw [flatten_fgetsAll hsize, takeLine_append]
  · rw [hrest] at hlines
    exact hlines rfl

theorem ne_nil_of_mem_fgetsAll {size : Nat} (hsize : 1 < size) {line s : Bytes}
    (h : line ∈ fgetsAll size s) : line ≠ [] := by
  induction hn : s.length using Nat.strong_induction_on generalizing s with
  | _ n ih =>
    by_cases hs : s = []
    · rw [hs] at h
      exact absurd h List.not_mem_nil
    · have hlt := takeLine_rest_length_lt (show 0 < size - 1 by omega) hs
      rw [fgetsAll_of_ne hsize hs] at h
      rcases List.mem_cons.mp h with rfl | h
      · intro hnil
        have hsplit := congrArg List.length (takeLine_append (size - 1) s)
        rw [hnil, List.nil_append] at hsplit
        omega
      · exact ih _ (hn ▸ hlt) h rfl

/-! ## Tokens -/

/-- `strtok` on a string: the delimiters at the start are skipped, the token
goes up to the next delimiter, and the rest of the string begins behind that. -/
def strtok (delim s : Bytes) : Option (Bytes × Bytes) :=
  let s := s.dropWhile (· ∈ delim)
  if s = [] then none
  else some (s.takeWhile (· ∉ delim), (s.dropWhile (· ∉ delim)).drop 1)

/-- The first `n` tokens of a string. -/
def strtokAll (delim : Bytes) : Nat → Bytes → List Bytes
  | 0, _ => []
  | n + 1, s =>
    match strtok delim s with
    | none => []
    | some (token, rest) => token :: strtokAll delim n rest

/-- `strtok` on the string at offset `pos` of a buffer: the delimiter behind the
token becomes a terminator. The result has the token, the buffer, and the offset
from which the next call goes on. -/
def strtokBuf (delim b : Bytes) (pos : Nat) : Option (Bytes × Bytes × Nat) :=
  let s := cstr (b.drop pos)
  let skip := (s.takeWhile (· ∈ delim)).length
  let s := s.dropWhile (· ∈ delim)
  if s = [] then none
  else
    let token := s.takeWhile (· ∉ delim)
    let stop := pos + skip + token.length
    if s.dropWhile (· ∉ delim) = [] then some (token, b, stop)
    else some (token, b.set stop 0, stop + 1)

/-- At most `n` calls of `strtok` on a buffer: the tokens and the buffer. -/
def strtokBufAll (delim : Bytes) : Nat → Bytes → Nat → List Bytes × Bytes
  | 0, b, _ => ([], b)
  | n + 1, b, pos =>
    match strtokBuf delim b pos with
    | none => ([], b)
    | some (token, b', pos') =>
      (token :: (strtokBufAll delim n b' pos').1, (strtokBufAll delim n b' pos').2)

variable {delim s : Bytes}

/-- A token that is followed by a delimiter. -/
theorem strtok_token {t : Bytes} (hne : t ≠ []) (ht : ∀ c ∈ t, c ∉ delim) {d : UInt8}
    (hd : d ∈ delim) (rest : Bytes) : strtok delim (t ++ d :: rest) = some (t, rest) := by
  have hall : ∀ c ∈ t, (decide (c ∉ delim)) = true := fun c hc => by simpa using ht c hc
  have hskip : (t ++ d :: rest).dropWhile (· ∈ delim) = t ++ d :: rest := by
    cases t with
    | nil => exact absurd rfl hne
    | cons c t => simp [ht c (List.mem_cons_self ..)]
  unfold strtok
  simp only [hskip]
  rw [if_neg (by simp), List.takeWhile_append_of_pos hall, List.dropWhile_append_of_pos hall]
  simp [hd]

/-- A token at the end of the string. -/
theorem strtok_last {t : Bytes} (hne : t ≠ []) (ht : ∀ c ∈ t, c ∉ delim) :
    strtok delim t = some (t, []) := by
  have hall : ∀ c ∈ t, (decide (c ∉ delim)) = true := fun c hc => by simpa using ht c hc
  have hskip : t.dropWhile (· ∈ delim) = t := by
    cases t with
    | nil => exact absurd rfl hne
    | cons c t => simp [ht c (List.mem_cons_self ..)]
  unfold strtok
  simp only [hskip]
  rw [if_neg hne, List.takeWhile_eq_self_iff.mpr hall, List.dropWhile_eq_nil_iff.mpr hall]
  rfl

/-- What a token is made of. -/
theorem strtok_spec {token rest : Bytes} (h : strtok delim s = some (token, rest)) :
    token ≠ [] ∧ (∀ c ∈ token, c ∉ delim) ∧
      (∃ skipped, s = skipped ++ token ∧ rest = [] ∨
        ∃ d ∈ delim, s = skipped ++ token ++ d :: rest) := by
  unfold strtok at h
  simp only at h
  split at h
  · cases h
  · rename_i hne
    simp only [Option.some.injEq, Prod.mk.injEq] at h
    obtain ⟨rfl, rfl⟩ := h
    have hsplit := (List.takeWhile_append_dropWhile (p := (· ∈ delim)) (l := s)).symm
    generalize hs' : s.dropWhile (· ∈ delim) = s' at hne hsplit ⊢
    have hsplit' := (List.takeWhile_append_dropWhile (p := (· ∉ delim)) (l := s')).symm
    refine ⟨?_, fun c hc => by simpa using List.mem_takeWhile_imp hc, ?_⟩
    · -- The first byte behind the skipped ones is not a delimiter.
      cases s' with
      | nil => exact absurd rfl hne
      | cons c s' =>
        have hhead := List.head?_dropWhile_not (fun c => decide (c ∈ delim)) s
        rw [hs'] at hhead
        simp only [List.head?_cons] at hhead
        simp [show c ∉ delim by simpa using hhead]
    · refine ⟨s.takeWhile (· ∈ delim), ?_⟩
      cases hrest : s'.dropWhile (· ∉ delim) with
      | nil =>
        rw [hrest, List.append_nil] at hsplit'
        exact .inl ⟨by rw [← hsplit']; exact hsplit, rfl⟩
      | cons d rest =>
        refine .inr ⟨d, ?_, ?_⟩
        · have hhead := List.head?_dropWhile_not (fun c => decide (c ∉ delim)) s'
          rw [hrest] at hhead
          simpa using hhead
        · rw [hrest] at hsplit'
          rw [List.drop_one, List.tail_cons, List.append_assoc, ← hsplit']
          exact hsplit

theorem strtok_rest_length_lt {token rest : Bytes} (h : strtok delim s = some (token, rest)) :
    rest.length + token.length ≤ s.length ∧ 0 < token.length := by
  obtain ⟨hne, -, skipped, ⟨hs, hrest⟩ | ⟨d, -, hs⟩⟩ := strtok_spec h
  · refine ⟨?_, List.length_pos_iff.mpr hne⟩
    rw [hs, hrest, List.length_append, List.length_nil]
    omega
  · refine ⟨?_, List.length_pos_iff.mpr hne⟩
    rw [hs]
    simp only [List.length_append, List.length_cons]
    omega

/-- The tokens of a string are not empty, have no delimiter in them, and consist
of bytes of the string. -/
theorem mem_strtokAll {n : Nat} {token : Bytes} (h : token ∈ strtokAll delim n s) :
    token ≠ [] ∧ (∀ c ∈ token, c ∉ delim) ∧ ∀ c ∈ token, c ∈ s := by
  induction n generalizing s with
  | zero => cases h
  | succ n ih =>
    simp only [strtokAll] at h
    split at h
    · cases h
    · rename_i t rest hstep
      obtain ⟨hne, hdelim, skipped, hs⟩ := strtok_spec hstep
      rcases List.mem_cons.mp h with rfl | h
      · refine ⟨hne, hdelim, fun c hc => ?_⟩
        rcases hs with ⟨hs, -⟩ | ⟨d, -, hs⟩ <;> (rw [hs]; simp [hc])
      · obtain ⟨hne', hdelim', hmem⟩ := ih h
        refine ⟨hne', hdelim', fun c hc => ?_⟩
        rcases hs with ⟨-, rfl⟩ | ⟨d, -, hs⟩
        · cases hmem c hc
        · rw [hs]
          simp [hmem c hc]

theorem strtokAll_length_le (delim s : Bytes) (n : Nat) : (strtokAll delim n s).length ≤ n := by
  induction n generalizing s with
  | zero => exact le_rfl
  | succ n ih =>
    simp only [strtokAll]
    split
    · exact Nat.zero_le _
    · exact Nat.succ_le_succ (ih _)

/-- Tokens, each with a delimiter behind it, are not longer than the string, up
to the delimiter of the last one. -/
theorem strtokAll_total_length_le (delim s : Bytes) (n : Nat) :
    ((strtokAll delim n s).map (·.length + 1)).sum ≤ s.length + 1 := by
  induction n generalizing s with
  | zero => exact Nat.zero_le _
  | succ n ih =>
    simp only [strtokAll]
    split
    · exact Nat.zero_le _
    · rename_i t rest hstep
      obtain ⟨-, -, skipped, ⟨hs, hrest⟩ | ⟨d, -, hs⟩⟩ := strtok_spec hstep
      · have hnil : strtokAll delim n rest = [] := by
          cases n with
          | zero => rfl
          | succ n => simp [hrest, strtokAll, strtok]
        rw [hnil, hs]
        simp
      · have hrest := ih rest
        simp only [List.map_cons, List.sum_cons, hs, List.length_append, List.length_cons]
        omega

/-- Tokens that are each followed by the delimiter are found again. -/
theorem strtokAll_encoded {tokens : List Bytes} {d : UInt8} (hd : d ∈ delim)
    (h : ∀ t ∈ tokens, t ≠ [] ∧ ∀ c ∈ t, c ∉ delim) {n : Nat} (hn : tokens.length ≤ n) :
    strtokAll delim n (tokens.flatMap (· ++ [d])) = tokens := by
  induction tokens generalizing n with
  | nil =>
    cases n with
    | zero => rfl
    | succ n => rfl
  | cons t tokens ih =>
    obtain ⟨n, rfl⟩ : ∃ m, n = m + 1 := ⟨n - 1, by simp at hn; omega⟩
    obtain ⟨hne, ht⟩ := h t (List.mem_cons_self ..)
    have hstep : strtok delim ((t :: tokens).flatMap (· ++ [d])) =
        some (t, tokens.flatMap (· ++ [d])) := by
      rw [List.flatMap_cons, List.append_assoc]
      exact strtok_token hne ht hd _
    simp only [strtokAll, hstep]
    rw [ih (fun t' ht' => h t' (List.mem_cons_of_mem _ ht')) (by simpa using hn)]

/-- The same without the delimiter behind the last token. -/
theorem strtokAll_encoded_last {tokens : List Bytes} {t : Bytes} {d : UInt8} (hd : d ∈ delim)
    (h : ∀ t' ∈ tokens ++ [t], t' ≠ [] ∧ ∀ c ∈ t', c ∉ delim) {n : Nat}
    (hn : tokens.length < n) :
    strtokAll delim n (tokens.flatMap (· ++ [d]) ++ t) = tokens ++ [t] := by
  induction tokens generalizing n with
  | nil =>
    obtain ⟨n, rfl⟩ : ∃ m, n = m + 1 := ⟨n - 1, by simp at hn; omega⟩
    obtain ⟨hne, ht⟩ := h t (List.mem_cons_self ..)
    simp only [strtokAll, List.flatMap_nil, List.nil_append, strtok_last hne ht]
    cases n with
    | zero => rfl
    | succ n => rfl
  | cons t' tokens ih =>
    obtain ⟨n, rfl⟩ : ∃ m, n = m + 1 := ⟨n - 1, by simp at hn; omega⟩
    obtain ⟨hne, ht⟩ := h t' (List.mem_cons_self ..)
    have hstep : strtok delim ((t' :: tokens).flatMap (· ++ [d]) ++ t) =
        some (t', tokens.flatMap (· ++ [d]) ++ t) := by
      rw [List.flatMap_cons, List.append_assoc, List.append_assoc]
      exact strtok_token hne ht hd _
    simp only [strtokAll, hstep]
    rw [ih (fun t'' ht'' => h t'' (List.mem_cons_of_mem _ ht'')) (by simpa using hn)]
    rfl

theorem intercalate_concat (d : UInt8) (tokens : List Bytes) (t : Bytes) :
    [d].intercalate (tokens ++ [t]) = tokens.flatMap (· ++ [d]) ++ t := by
  induction tokens with
  | nil => simp [List.intercalate]
  | cons t' tokens ih =>
    have hstep : [d].intercalate (t' :: (tokens ++ [t])) =
        t' ++ [d] ++ [d].intercalate (tokens ++ [t]) := by
      cases tokens with
      | nil => simp [List.intercalate]
      | cons t'' tokens => simp [List.intercalate]
    rw [List.cons_append, hstep, ih, List.flatMap_cons, List.append_assoc, List.append_assoc,
      List.append_assoc]

/-- The tokens of a string that is made of them. -/
theorem strtokAll_intercalate {tokens : List Bytes} {d : UInt8}
    (h : ∀ t ∈ tokens, t ≠ [] ∧ d ∉ t) {n : Nat} (hn : tokens.length ≤ n) :
    strtokAll [d] n ([d].intercalate tokens) = tokens := by
  rcases List.eq_nil_or_concat tokens with rfl | ⟨init, t, rfl⟩
  · cases n with
    | zero => rfl
    | succ n => rfl
  · rw [List.concat_eq_append] at h hn ⊢
    rw [intercalate_concat]
    refine strtokAll_encoded_last List.mem_cons_self (fun t' ht' => ?_) (by simpa using hn)
    obtain ⟨hne, hd⟩ := h t' ht'
    refine ⟨hne, fun c hc hmem => hd ?_⟩
    rwa [← List.mem_singleton.mp hmem]

/-- A string that is made of tokens has one delimiter less. -/
theorem count_intercalate {tokens : List Bytes} {d : UInt8} (h : ∀ t ∈ tokens, d ∉ t) :
    ([d].intercalate tokens).count d = tokens.length - 1 := by
  rcases List.eq_nil_or_concat tokens with rfl | ⟨init, t, rfl⟩
  · rfl
  · rw [List.concat_eq_append] at h ⊢
    have hinit : (init.flatMap (· ++ [d])).count d = init.length := by
      rw [List.count_flatMap]
      have hone : ∀ t' ∈ init, (List.count d ∘ fun x => x ++ [d]) t' = 1 := fun t' ht' => by
        have ht := List.count_eq_zero.mpr (h t' (List.mem_append_left _ ht'))
        simp [ht]
      rw [List.map_congr_left hone]
      simp
    rw [intercalate_concat, List.count_append, hinit,
      List.count_eq_zero.mpr (h t (List.mem_append_right _ List.mem_cons_self))]
    simp

/-- Tokens that are not empty leave room for one each. -/
theorem length_le_intercalate {tokens : List Bytes} {d : UInt8} (h : ∀ t ∈ tokens, t ≠ []) :
    tokens.length ≤ ([d].intercalate tokens).length := by
  rcases List.eq_nil_or_concat tokens with rfl | ⟨init, t, rfl⟩
  · exact le_rfl
  · rw [List.concat_eq_append] at h ⊢
    have ht := List.length_pos_of_ne_nil (h t (List.mem_append_right _ List.mem_cons_self))
    have hinit : init.length ≤ (init.flatMap (· ++ [d])).length := by
      rw [List.length_flatMap]
      refine le_trans (by simp) (List.sum_le_sum (f := fun _ => 1) fun t' _ => ?_)
      simp
    rw [intercalate_concat, List.length_append, List.length_append, List.length_singleton]
    omega

/-! ### Tokens in a buffer -/

/-- The string of a buffer is followed by its terminator or by the end of the
buffer. -/
theorem cstr_append_rest (b : Bytes) :
    ∃ rest, b = cstr b ++ rest ∧ ∀ s : Bytes, 0 ∉ s → cstr (s ++ rest) = s := by
  refine ⟨b.dropWhile (· ≠ 0), List.takeWhile_append_dropWhile.symm, fun s hs => ?_⟩
  cases hrest : b.dropWhile (· ≠ 0) with
  | nil => rw [List.append_nil, cstr_of_zero_notMem hs]
  | cons c rest =>
    have hhead := List.head?_dropWhile_not (fun c : UInt8 => decide (c ≠ 0)) b
    rw [hrest] at hhead
    obtain rfl : c = 0 := by simpa using hhead
    exact cstr_append_zero hs rest

theorem strtokBuf_none {b : Bytes} {pos : Nat} (h : strtokBuf delim b pos = none) :
    strtok delim (cstr (b.drop pos)) = none := by
  unfold strtokBuf at h
  unfold strtok
  simp only at h ⊢
  split at h
  · rename_i hnil
    rw [if_pos hnil]
  · split at h <;> cases h

/-- A call of `strtok` on a buffer finds the token of the string, leaves the
rest of the string for the next call, and changes nothing from the end of the
string on. -/
theorem strtokBuf_some {b b' token : Bytes} {pos pos' : Nat}
    (h : strtokBuf delim b pos = some (token, b', pos')) :
    strtok delim (cstr (b.drop pos)) = some (token, cstr (b'.drop pos')) ∧
      b'.length = b.length ∧
      pos' + (cstr (b'.drop pos')).length = pos + (cstr (b.drop pos)).length ∧
      b'.drop (pos + (cstr (b.drop pos)).length) = b.drop (pos + (cstr (b.drop pos)).length) := by
  obtain ⟨rest, hb, hrest⟩ := cstr_append_rest (b.drop pos)
  have hzero := zero_notMem_cstr (b.drop pos)
  unfold strtokBuf at h
  unfold strtok
  simp only at h ⊢
  generalize cstr (b.drop pos) = s at *
  have hsplit := List.takeWhile_append_dropWhile (p := (· ∈ delim)) (l := s)
  generalize s.takeWhile (· ∈ delim) = skipped at *
  generalize s.dropWhile (· ∈ delim) = s' at *
  have hsplit' := List.takeWhile_append_dropWhile (p := (· ∉ delim)) (l := s')
  generalize s'.takeWhile (· ∉ delim) = tok at *
  split at h
  · cases h
  · rename_i hne
    rw [if_neg hne]
    split at h
    · rename_i hend
      simp only [Option.some.injEq, Prod.mk.injEq] at h
      obtain ⟨rfl, rfl, rfl⟩ := h
      rw [hend, List.append_nil] at hsplit'
      have hdrop : b.drop (pos + skipped.length + tok.length) = rest := by
        rw [Nat.add_assoc, ← List.drop_drop, hb, ← hsplit, ← hsplit', List.append_assoc,
          ← List.length_append, ← List.append_assoc, List.drop_left]
      have hcstr : cstr (b.drop (pos + skipped.length + tok.length)) = [] := by
        rw [hdrop]
        simpa using hrest [] (by simp)
      refine ⟨by rw [hend, hcstr]; rfl, rfl, ?_, rfl⟩
      rw [hcstr, ← hsplit, ← hsplit', List.length_append, List.length_nil]
      omega
    · rename_i hend
      simp only [Option.some.injEq, Prod.mk.injEq] at h
      obtain ⟨rfl, rfl, rfl⟩ := h
      generalize s'.dropWhile (· ∉ delim) = after at *
      cases after with
      | nil => exact absurd rfl hend
      | cons d after =>
        have hs : s = skipped ++ tok ++ d :: after := by rw [← hsplit, ← hsplit', List.append_assoc]
        have hlen : s.length = skipped.length + tok.length + after.length + 1 := by
          rw [hs]
          simp only [List.length_append, List.length_cons]
          omega
        have hset : ∀ n, pos + skipped.length + tok.length < n →
            (b.set (pos + skipped.length + tok.length) 0).drop n = b.drop n := by
          intro n hn
          rw [List.drop_set_of_lt hn]
        have hdrop : b.drop (pos + skipped.length + tok.length + 1) = after ++ rest := by
          rw [show pos + skipped.length + tok.length + 1 =
            pos + (skipped ++ tok ++ [d]).length by
              simp only [List.length_append, List.length_singleton]; omega,
            ← List.drop_drop, hb, hs,
            show skipped ++ tok ++ d :: after ++ rest =
              (skipped ++ tok ++ [d]) ++ (after ++ rest) by simp, List.drop_left]
        have hafter : 0 ∉ after := fun hmem => hzero (by rw [hs]; simp [hmem])
        have hcstr : cstr ((b.set (pos + skipped.length + tok.length) 0).drop
            (pos + skipped.length + tok.length + 1)) = after := by
          rw [hset _ (Nat.lt_succ_self _), hdrop, hrest after hafter]
        refine ⟨by rw [hcstr]; rfl, List.length_set, ?_, hset _ (by omega)⟩
        rw [hcstr]
        omega

/-- The calls of `strtok` on a buffer find the tokens of its string. Behind the
string the buffer stays as it is. -/
theorem strtokBufAll_spec (n : Nat) : ∀ (b : Bytes) (pos : Nat),
    (strtokBufAll delim n b pos).1 = strtokAll delim n (cstr (b.drop pos)) ∧
      (strtokBufAll delim n b pos).2.length = b.length ∧
      (strtokBufAll delim n b pos).2.drop (pos + (cstr (b.drop pos)).length) =
        b.drop (pos + (cstr (b.drop pos)).length) := by
  induction n with
  | zero =>
    intro b pos
    exact ⟨rfl, rfl, rfl⟩
  | succ n ih =>
    intro b pos
    cases hstep : strtokBuf delim b pos with
    | none =>
      simp [strtokBufAll, strtokAll, hstep, strtokBuf_none hstep]
    | some r =>
      obtain ⟨token, b', pos'⟩ := r
      obtain ⟨htok, hlen, hend, hdrop⟩ := strtokBuf_some hstep
      obtain ⟨htokens, hlen', hdrop'⟩ := ih b' pos'
      simp only [strtokBufAll, strtokAll, hstep, htok]
      refine ⟨by rw [htokens], by rw [hlen', hlen], ?_⟩
      rw [← hend, hdrop', hend, hdrop]

end BootableRecovery
