import BootableRecovery.Edify.Compare
import BootableRecovery.Lib.Pointer

/-!
# `updater/install.c`: `file_getprop`

`FileGetPropFn` reads a file of properties into a buffer, cuts it into lines with `strtok`,
and trims the key and the value of a line in place. The pointers are offsets into the
buffer; `key_end` and `val_end` stand before the key and the value when these are empty.

Main results:
* `propLine_spec`: what one line gives, with every access inside the buffer.
* `file_getprop_iff`: for which files the result is the one that is specified.
* `file_getprop_empty`: for an empty file `strtok` returns `NULL`, and that is read.
-/

namespace BootableRecovery.Updater
open Edify

/-! ## The code -/

/-- A file as the calls of the C library show it: which of them succeed, what is in it, and
the text for the error. -/
structure PropFile where
  stat : Bool
  malloc : Bool
  fopen : Bool
  fread : Bool
  content : Bytes
  strerror : Bytes

def MAX_FILE_GETPROP_SIZE : Nat := 65536

/-- What one line gives: go on with the next one, an error, or the value. -/
inductive PropLine where
  | next
  | malformed (line : Bytes)
  | found (value : Bytes)
  deriving DecidableEq, Repr

/-- Trim whitespace between key and `=`. -/
def trimKey (b : Bytes) (line equal : Int) : Outcome Bytes := do
  let key_end ← trimBack isSpace b line (b.length + 1) (equal - 1)
  poke b (key_end + 1) 0

/-- The value behind `=`, with whitespace trimmed at both ends. -/
def propValue (b : Bytes) (equal : Int) : Outcome (Bytes × Bytes) := do
  let val_start ← skipWhile isSpace b (b.length + 1) (equal + 1)
  let val ← stringAt b val_start
  let val_end ← trimBack isSpace b val_start (b.length + 1) (val_start + val.length - 1)
  let b ← poke b (val_end + 1) 0
  let result ← stringAt b val_start
  .done (result, b)

/-- The body of the loop, for a line without white space in front. -/
def propBody (key b : Bytes) (line : Int) : Outcome (PropLine × Bytes) := do
  let c ← peek b line
  if c = 0 ∨ c = 35 then .done (.next, b)
  else
    let equal ← strchr b line 61
    match equal with
    | none => do
      let text ← stringAt b line
      .done (.malformed text, b)
    | some equal => do
      let b ← trimKey b line equal
      let text ← stringAt b line
      if text ≠ key then .done (.next, b)
      else
        let (result, b) ← propValue b equal
        .done (.found result, b)

/-- The body of the loop: skip whitespace at start of line, then look at it. -/
def propLine (key b : Bytes) (line : Int) : Outcome (PropLine × Bytes) := do
  let line ← skipWhile isSpace b (b.length + 1) line
  propBody key b line

/-- The loop over the lines; `next` is where `strtok` goes on. The result is the value, or
the line for the error. -/
def propLoop (key : Bytes) : Nat → Bytes → Nat → Nat → Outcome (Except Bytes Bytes)
  | 0, _, _, _ => .spin
  | fuel + 1, b, line, next => do
    let (r, b) ← propLine key b line
    match r with
    | .malformed text => .done (.error text)
    | .found value => .done (.ok value)
    | .next =>
      match strtokAt [10] b next with
      | none => .done (.ok [])
      | some (line, b, next) => propLoop key fuel b line next

/-- The search in the buffer. The first line is read whether or not there is one. -/
def findProp (key b : Bytes) : Outcome (Except Bytes Bytes) :=
  match strtokAt [10] b 0 with
  | none => .fault
  | some (line, b', next) => propLoop key (b.length + 1) b' line next

section Function

variable {F C : Type} (call : Fn F → Function F C) (fs : Bytes → PropFile)

def ErrorAbort (state : State C) (text : Bytes) : Option Value × State C :=
  (none, { state with errmsg := some (text.take 4095) })

/-- The end of the function. -/
def propResult (name filename : Bytes) (state : State C) :
    Except Bytes Bytes → Option Value × State C
  | .ok value => (some (StringValue value), state)
  | .error line => ErrorAbort state (name ++ ascii ": malformed line \"" ++ line ++ ascii "\": " ++
      filename ++ ascii " not a prop file?")

/-- `FileGetPropFn` behind `ReadArgs`. -/
def fileGetProp (name : Bytes) (state : State C) (filename key : Bytes) :
    Outcome (Option Value × State C) :=
  let f := fs filename
  let size := f.content.length
  if !f.stat then
    .done (ErrorAbort state (name ++ ascii ": failed to stat \"" ++ filename ++ ascii "\": " ++
      f.strerror))
  else if size > MAX_FILE_GETPROP_SIZE then
    .done (ErrorAbort state (filename ++ ascii " too large for " ++ name ++ ascii " (max " ++
      printNat 10 MAX_FILE_GETPROP_SIZE ++ ascii ")"))
  else if !f.malloc then
    .done (ErrorAbort state (name ++ ascii ": failed to alloc " ++ printNat 10 (size + 1) ++
      ascii " bytes"))
  else if !f.fopen then
    .done (ErrorAbort state (name ++ ascii ": failed to open " ++ filename ++ ascii ": " ++
      f.strerror))
  else if !f.fread then
    .done (ErrorAbort state (name ++ ascii ": failed to read " ++ printNat 10 (size + 1) ++
      ascii " bytes from " ++ filename))
  else do
    let r ← findProp key (f.content ++ [0])
    .done (propResult name filename state r)

/-- `FileGetPropFn` reads two arguments, whether or not there are two. -/
def FileGetPropFn (name : Bytes) (state : State C) (argv : List (Expr F)) :
    Outcome (Option Value × State C) :=
  match argv with
  | e₁ :: e₂ :: _ =>
    match ReadArgs call state [e₁, e₂] with
    | (some [filename, key], state) => fileGetProp fs name state filename key
    | (_, state) => .done (none, state)
  | _ => .fault

end Function

/-! ## What is specified -/

/-- What a line says of a key: nothing when it is blank or a comment or has another key, else
an error without `=`, and else the value. -/
def classify (key line : Bytes) : PropLine :=
  match line.dropWhile isSpace with
  | [] => .next
  | c :: l =>
    if c = 35 then .next
    else if 61 ∉ c :: l then .malformed (c :: l)
    else if ((c :: l).takeWhile (· ≠ 61)).rdropWhile isSpace ≠ key then .next
    else .found (((((c :: l).dropWhile (· ≠ 61)).drop 1).dropWhile isSpace).rdropWhile isSpace)

/-- The first line that says something of the key decides; else the value is empty. -/
def lookup (key : Bytes) : List Bytes → Except Bytes Bytes
  | [] => .ok []
  | line :: lines =>
    match classify key line with
    | .next => lookup key lines
    | .malformed text => .error text
    | .found value => .ok value

/-! ## One line -/

section Line

variable {pre post k v l : Bytes}

/-- A list before another byte is a byte before a list of the same length. -/
theorem exists_cons_append (s : Bytes) (a : UInt8) (rest : Bytes) :
    ∃ c s', s ++ a :: rest = c :: (s' ++ rest) ∧ s'.length = s.length := by
  cases s with
  | nil => exact ⟨a, [], rfl, rfl⟩
  | cons c s => exact ⟨c, s ++ [a], by simp, by simp⟩

/-- Behind the trimmed key stands a terminator. -/
theorem trimKey_spec (hhead : ∀ c ∈ k.head?, isSpace c = false) (pre v post : Bytes) :
    ∃ rest : Bytes, rest.length + (k.rdropWhile isSpace).length = k.length ∧
      trimKey (pre ++ (k ++ 61 :: (v ++ post))) pre.length (pre.length + k.length : Nat) =
        .done (pre ++ (k.rdropWhile isSpace ++ 0 :: (rest ++ (v ++ post)))) := by
  have hsplit : k.rdropWhile isSpace ++ k.rtakeWhile isSpace = k :=
    List.rdropWhile_append_rtakeWhile
  have hlen := congrArg List.length hsplit
  rw [List.length_append] at hlen
  obtain ⟨c, rest, hrest, hrestlen⟩ :=
    exists_cons_append (k.rtakeWhile isSpace) 61 (v ++ post)
  refine ⟨rest, by omega, ?_⟩
  have hback := trimBack_append isSpace pre
    ((pre ++ (k ++ 61 :: (v ++ post))).length + 1) (61 :: (v ++ post)) hhead
    (by simp only [List.length_append]; omega)
  have hpos : ((pre.length + k.length : Nat) : Int) - 1 = pre.length + k.length - 1 := by
    push_cast
    rfl
  have hend : (pre.length : Int) + (k.rdropWhile isSpace).length - 1 + 1 =
      (pre ++ k.rdropWhile isSpace).length := by
    rw [List.length_append]
    push_cast
    omega
  have hbuf : pre ++ (k ++ 61 :: (v ++ post)) =
      (pre ++ k.rdropWhile isSpace) ++ c :: (rest ++ (v ++ post)) := by
    conv_lhs => rw [← hsplit]
    rw [List.append_assoc, hrest, List.append_assoc]
  rw [trimKey, hpos, hback, Outcome.done_bind, hend, hbuf, poke_append, List.append_assoc]

/-- The value is what stands behind `=`, trimmed at both ends. -/
theorem propValue_spec (hzero : 0 ∉ v) (pre : Bytes) (a : UInt8) (post : Bytes) :
    ∃ b', propValue (pre ++ a :: (v ++ 0 :: post)) pre.length =
      .done ((v.dropWhile isSpace).rdropWhile isSpace, b') := by
  have hfront := List.takeWhile_append_dropWhile (p := isSpace) (l := v)
  have hhead := List.head?_dropWhile_not isSpace v
  generalize hw : v.takeWhile isSpace = w at *
  generalize v.dropWhile isSpace = u at *
  have huzero : 0 ∉ u := fun h => hzero (by rw [← hfront]; exact List.mem_append_right _ h)
  have hback : u.rdropWhile isSpace ++ u.rtakeWhile isSpace = u :=
    List.rdropWhile_append_rtakeWhile
  have hlen := congrArg List.length hback
  rw [List.length_append] at hlen
  have hvalzero : 0 ∉ u.rdropWhile isSpace := fun h => huzero (by
    rw [← hback]
    exact List.mem_append_left _ h)
  obtain ⟨c, rest, hrest, -⟩ := exists_cons_append (u.rtakeWhile isSpace) 0 post
  have hbuf₁ : pre ++ a :: (v ++ 0 :: post) = (pre ++ [a]) ++ (v ++ 0 :: post) := by simp
  have hbuf₂ : pre ++ a :: (v ++ 0 :: post) = (pre ++ [a] ++ w) ++ (u ++ 0 :: post) := by
    rw [← hfront]
    simp only [List.append_assoc, List.cons_append, List.nil_append]
  have hbuf₃ : pre ++ a :: (v ++ 0 :: post) =
      (pre ++ [a] ++ w ++ u.rdropWhile isSpace) ++ c :: (rest ++ post) := by
    rw [hbuf₂, List.append_assoc (pre ++ [a] ++ w), ← hrest, ← List.append_assoc (u.rdropWhile _),
      hback]
  have hstart : (pre.length : Int) + 1 = (pre ++ [a]).length := by simp
  have hval : (pre ++ [a]).length + w.length = (pre ++ [a] ++ w).length :=
    List.length_append.symm
  have hskip := skipWhile_append isSpace hzero post
    ((pre ++ a :: (v ++ 0 :: post)).length + 1) (pre ++ [a])
    (by simp only [List.length_append, List.length_cons]; omega)
  rw [hw, hval, ← hbuf₁] at hskip
  have htrim := trimBack_append isSpace (pre ++ [a] ++ w)
    ((pre ++ a :: (v ++ 0 :: post)).length + 1) (s := u) (0 :: post)
    (fun d hd => by rw [hd] at hhead; simpa using hhead)
    (by rw [hbuf₂]; simp only [List.length_append, List.length_cons]; omega)
  rw [← hbuf₂] at htrim
  have hend : ((pre ++ [a] ++ w).length : Int) + (u.rdropWhile isSpace).length - 1 + 1 =
      (pre ++ [a] ++ w ++ u.rdropWhile isSpace).length := by
    have hall : (pre ++ [a] ++ w ++ u.rdropWhile isSpace).length =
        (pre ++ [a] ++ w).length + (u.rdropWhile isSpace).length := List.length_append
    omega
  have hstring : stringAt (pre ++ a :: (v ++ 0 :: post)) (pre ++ [a] ++ w).length = .done u := by
    rw [hbuf₂]
    exact stringAt_append huzero _ _
  have hpoke : poke (pre ++ a :: (v ++ 0 :: post))
      (pre ++ [a] ++ w ++ u.rdropWhile isSpace).length 0 =
        .done ((pre ++ [a] ++ w) ++ (u.rdropWhile isSpace ++ 0 :: (rest ++ post))) := by
    rw [hbuf₃, poke_append, List.append_assoc (pre ++ [a] ++ w)]
  refine ⟨(pre ++ [a] ++ w) ++ (u.rdropWhile isSpace ++ 0 :: (rest ++ post)), ?_⟩
  rw [propValue, hstart, hskip, Outcome.done_bind, hstring, Outcome.done_bind, htrim,
    Outcome.done_bind, hend, hpoke, Outcome.done_bind, stringAt_append hvalzero, Outcome.done_bind]

/-- A line is looked at behind the white space in front. -/
theorem classify_dropWhile (key l : Bytes) : classify key (l.dropWhile isSpace) = classify key l := by
  unfold classify
  rw [List.dropWhile_idempotent]

/-- A line with `=` that is no comment. -/
theorem classify_equal {key : Bytes} {c : UInt8} (hl : c :: l = k ++ 61 :: v) (hk : 61 ∉ k)
    (hspace : isSpace c = false) (hcomment : c ≠ 35) :
    classify key (c :: l) = if k.rdropWhile isSpace ≠ key then .next
      else .found ((v.dropWhile isSpace).rdropWhile isSpace) := by
  have hkey : ∀ a ∈ k, decide (a ≠ 61) = true := by
    intro a ha
    rw [decide_eq_true_eq]
    rintro rfl
    exact hk ha
  have hmem : 61 ∈ c :: l := by
    rw [hl]
    exact List.mem_append_right _ List.mem_cons_self
  have htake : (c :: l).takeWhile (· ≠ 61) = k := by
    rw [hl, List.takeWhile_append_of_pos hkey]
    simp
  have hdrop : (c :: l).dropWhile (· ≠ 61) = 61 :: v := by
    rw [hl, List.dropWhile_append_of_pos hkey]
    simp
  unfold classify
  rw [List.dropWhile_cons_of_neg (by simp [hspace])]
  simp only
  rw [if_neg hcomment, if_neg (not_not_intro hmem), htake, hdrop, List.drop_one, List.tail_cons]

/-- The body of the loop on a line without white space in front. -/
theorem propBody_spec (hzero : 0 ∉ l) (hhead : ∀ c ∈ l.head?, isSpace c = false) (key pre post : Bytes) :
    ∃ b', propBody key (pre ++ (l ++ 0 :: post)) pre.length = .done (classify key l, b') ∧
      (classify key l = .next → ∃ l' : Bytes, l'.length = l.length ∧ b' = pre ++ (l' ++ 0 :: post)) := by
  cases l with
  | nil =>
    refine ⟨_, ?_, fun _ => ⟨[], rfl, rfl⟩⟩
    rw [propBody, List.nil_append, peek_append, Outcome.done_bind]
    rfl
  | cons c l =>
    have hspace := hhead c rfl
    obtain ⟨hc, -⟩ : c ≠ 0 ∧ 0 ∉ l := by simpa [eq_comm] using hzero
    have hpeek : peek (pre ++ (c :: l ++ 0 :: post)) pre.length = .done c := peek_append _ _ _
    rw [propBody, hpeek, Outcome.done_bind]
    by_cases hcomment : c = 35
    · have hnext : classify key (c :: l) = .next := by
        unfold classify
        rw [List.dropWhile_cons_of_neg (by simp [hspace])]
        exact if_pos hcomment
      rw [if_pos (.inr hcomment), hnext]
      exact ⟨_, rfl, fun _ => ⟨_, rfl, rfl⟩⟩
    rw [if_neg (by simp [hc, hcomment]), strchr_append hzero, Outcome.done_bind]
    by_cases hmem : 61 ∈ c :: l
    swap
    · have hmal : classify key (c :: l) = .malformed (c :: l) := by
        unfold classify
        rw [List.dropWhile_cons_of_neg (by simp [hspace])]
        exact (if_neg hcomment).trans (if_pos hmem)
      rw [if_neg hmem, hmal]
      simp only
      rw [stringAt_append hzero, Outcome.done_bind]
      exact ⟨_, rfl, nofun⟩
    obtain ⟨k, v, hl, hk⟩ := List.eq_append_cons_of_mem hmem
    have hidx : (c :: l).idxOf 61 = k.length := by
      rw [hl, List.idxOf_append, if_neg hk, List.idxOf_cons_self, Nat.zero_add]
    have hkhead : ∀ a ∈ k.head?, isSpace a = false := by
      cases k with
      | nil => nofun
      | cons a k =>
        obtain ⟨rfl, -⟩ := List.cons.inj hl
        exact hhead
    have hvzero : 0 ∉ v := fun h => hzero (by
      rw [hl]
      exact List.mem_append_right _ (List.mem_cons_of_mem _ h))
    have hkzero : 0 ∉ k.rdropWhile isSpace := fun h => hzero (by
      rw [hl]
      exact List.mem_append_left _ ((List.rdropWhile_prefix isSpace k).subset h))
    rw [if_pos hmem, classify_equal hl hk hspace hcomment, hidx]
    simp only
    obtain ⟨rest, hrest, htrim⟩ := trimKey_spec hkhead pre v (0 :: post)
    have hbuf : pre ++ (c :: l ++ 0 :: post) = pre ++ (k ++ 61 :: (v ++ 0 :: post)) := by
      rw [hl, List.append_assoc, List.cons_append]
    rw [hbuf, htrim, Outcome.done_bind, stringAt_append hkzero, Outcome.done_bind]
    by_cases hkey : k.rdropWhile isSpace ≠ key
    · rw [if_pos hkey, if_pos hkey]
      refine ⟨_, rfl, fun _ => ⟨k.rdropWhile isSpace ++ 0 :: (rest ++ v), ?_, ?_⟩⟩
      · rw [hl]
        simp only [List.length_append, List.length_cons]
        omega
      · simp only [List.append_assoc, List.cons_append]
    · rw [if_neg hkey, if_neg hkey]
      obtain ⟨a, front, hfront, hfrontlen⟩ : ∃ (a : UInt8) (front : Bytes),
          k.rdropWhile isSpace ++ 0 :: rest = front ++ [a] ∧ front.length = k.length := by
        have hne : k.rdropWhile isSpace ++ 0 :: rest ≠ [] := by simp
        refine ⟨_, _, (List.dropLast_append_getLast hne).symm, ?_⟩
        rw [List.length_dropLast, List.length_append, List.length_cons]
        omega
      obtain ⟨b', hvalue⟩ := propValue_spec hvzero (pre ++ front) a post
      have hbuf' : pre ++ (k.rdropWhile isSpace ++ 0 :: (rest ++ (v ++ 0 :: post))) =
          (pre ++ front) ++ a :: (v ++ 0 :: post) := by
        have happend := congrArg (· ++ (v ++ 0 :: post)) hfront
        simp only [List.append_assoc, List.cons_append, List.nil_append] at happend ⊢
        rw [happend]
      have hpos : pre.length + k.length = (pre ++ front).length := by
        rw [List.length_append, hfrontlen]
      rw [hbuf', hpos, hvalue, Outcome.done_bind]
      exact ⟨b', rfl, nofun⟩

/-- One line gives what is specified, and only its own bytes are changed before the loop
goes on. -/
theorem propLine_spec (hzero : 0 ∉ l) (key pre post : Bytes) :
    ∃ b', propLine key (pre ++ (l ++ 0 :: post)) pre.length = .done (classify key l, b') ∧
      (classify key l = .next → ∃ l' : Bytes, l'.length = l.length ∧ b' = pre ++ (l' ++ 0 :: post)) := by
  have hfront := List.takeWhile_append_dropWhile (p := isSpace) (l := l)
  have hhead := List.head?_dropWhile_not isSpace l
  have hskip := skipWhile_append isSpace hzero post
    ((pre ++ (l ++ 0 :: post)).length + 1) pre (by simp only [List.length_append]; omega)
  rw [propLine, hskip, Outcome.done_bind, ← classify_dropWhile key l]
  generalize l.takeWhile isSpace = w at *
  generalize l.dropWhile isSpace = u at *
  have huzero : 0 ∉ u := fun h => hzero (by rw [← hfront]; exact List.mem_append_right _ h)
  have hbuf : pre ++ (l ++ 0 :: post) = (pre ++ w) ++ (u ++ 0 :: post) := by
    rw [← hfront]
    simp only [List.append_assoc]
  have hpos : pre.length + w.length = (pre ++ w).length := List.length_append.symm
  obtain ⟨b', hbody, hnext⟩ := propBody_spec huzero
    (fun c hc => by rw [hc] at hhead; simpa using hhead) key (pre ++ w) post
  rw [hbuf, hpos]
  refine ⟨b', hbody, fun h => ?_⟩
  obtain ⟨u', hlen, rfl⟩ := hnext h
  refine ⟨w ++ u', ?_, ?_⟩
  · rw [← hfront, List.length_append, List.length_append, hlen]
  · simp only [List.append_assoc]

end Line

/-! ## All lines -/

/-- The newlines in front, the next line, and what follows. -/
theorem next_line (s : Bytes) : (∀ c ∈ s, c = 10) ∨
    ∃ ws t rest : Bytes, s = ws ++ (t ++ rest) ∧ (∀ c ∈ ws, c = 10) ∧ t ≠ [] ∧ 10 ∉ t ∧
      (rest = [] ∨ ∃ rest', rest = 10 :: rest') := by
  by_cases hall : ∀ c ∈ s, c = 10
  · exact .inl hall
  refine .inr ⟨s.takeWhile (· == 10), (s.dropWhile (· == 10)).takeWhile (· != 10),
    (s.dropWhile (· == 10)).dropWhile (· != 10), ?_, ?_, ?_, ?_, ?_⟩
  · rw [List.takeWhile_append_dropWhile, List.takeWhile_append_dropWhile]
  · exact fun c hc => by simpa using List.mem_takeWhile_imp hc
  · cases hrest : s.dropWhile (· == 10) with
    | nil => exact absurd (fun c hc => by simpa using List.dropWhile_eq_nil_iff.mp hrest c hc) hall
    | cons c l =>
      have hc := List.head?_dropWhile_not (· == (10 : UInt8)) s
      rw [hrest] at hc
      rw [List.takeWhile_cons_of_pos (by simpa using hc)]
      exact List.cons_ne_nil _ _
  · exact fun hmem => by simpa using List.mem_takeWhile_imp hmem
  · cases hrest : (s.dropWhile (· == 10)).dropWhile (· != 10) with
    | nil => exact .inl rfl
    | cons c l =>
      have hc := List.head?_dropWhile_not (· != (10 : UInt8)) (s.dropWhile (· == 10))
      rw [hrest] at hc
      exact .inr ⟨l, by rw [show c = 10 by simpa using hc]⟩

theorem lookup_newlines (key s : Bytes) {ws : Bytes} (h : ∀ c ∈ ws, c = 10) :
    lookup key ((ws ++ s).splitOn 10) = lookup key (s.splitOn 10) := by
  induction ws with
  | nil => rfl
  | cons c ws ih =>
    obtain ⟨rfl, hws⟩ := List.forall_mem_cons.mp h
    have hsplit : ([] ++ 10 :: (ws ++ s)).splitOn 10 = [] :: (ws ++ s).splitOn 10 :=
      List.splitOn_append_cons_self_of_not_mem List.not_mem_nil _
    rw [List.cons_append, ← List.nil_append (10 :: (ws ++ s)), hsplit]
    exact ih hws

/-- The loop from a call of `strtok` on looks up the key in the lines that are left. -/
theorem propLoop_spec (key : Bytes) (fuel : Nat) : ∀ (pre post : Bytes) {s : Bytes}, 0 ∉ s →
    s.length < fuel →
    (match strtokAt [10] (pre ++ (s ++ 0 :: post)) pre.length with
      | none => Outcome.done (Except.ok [])
      | some (line, b, next) => propLoop key fuel b line next) =
        .done (lookup key (s.splitOn 10)) := by
  induction fuel with
  | zero => exact fun pre post s _ hfuel => absurd hfuel (Nat.not_lt_zero _)
  | succ fuel ih =>
    intro pre post s hzero hfuel
    rcases next_line s with hall | ⟨ws, t, rest, rfl, hws, hne, ht, hrest⟩
    · have hnone : strtokAt [10] (pre ++ (s ++ 0 :: post)) pre.length = none :=
        strtokAt_none hzero (by simpa using hall) pre post
      have hlookup := lookup_newlines key [] hall
      rw [List.append_nil] at hlookup
      rw [hnone, hlookup]
      rfl
    have hws' : ∀ c ∈ ws, c ∈ [(10 : UInt8)] := by simpa using hws
    have ht' : ∀ c ∈ t, c ∉ [(10 : UInt8)] := fun c hc hmem => by
      rw [List.mem_singleton.mp hmem] at hc
      exact ht hc
    have htzero : 0 ∉ t := fun h => hzero (by simp [h])
    rw [lookup_newlines key _ hws]
    have htlen := List.length_pos_iff.mpr hne
    simp only [List.length_append] at hfuel
    rcases hrest with rfl | ⟨rest, rfl⟩
    · rw [List.append_nil] at hzero ⊢
      rw [strtokAt_last hzero hws' hne ht', List.splitOn_eq_singleton ht]
      simp only
      obtain ⟨b', hline, hnext⟩ := propLine_spec htzero key (pre ++ ws) post
      rw [propLoop, List.append_assoc (pre ++ ws), hline, Outcome.done_bind, lookup]
      cases hclass : classify key t with
      | malformed text => rfl
      | found value => rfl
      | next =>
        obtain ⟨t', hlen, rfl⟩ := hnext hclass
        have hend := ih (pre ++ ws ++ t') post (s := []) List.not_mem_nil
          (by simp only [List.length_nil]; omega)
        have hpos : (pre ++ ws ++ t').length = (pre ++ ws ++ t).length := by
          simp only [List.length_append, hlen]
        rw [hpos, List.nil_append, List.append_assoc (pre ++ ws)] at hend
        exact hend
    · have hrestzero : 0 ∉ rest := fun h => hzero (by simp [h])
      rw [strtokAt_token hzero hws' hne ht' List.mem_cons_self,
        List.splitOn_append_cons_self_of_not_mem ht]
      simp only
      obtain ⟨b', hline, hnext⟩ := propLine_spec htzero key (pre ++ ws) (rest ++ 0 :: post)
      have hbuf : pre ++ ws ++ (t ++ [0]) ++ (rest ++ 0 :: post) =
          (pre ++ ws) ++ (t ++ 0 :: (rest ++ 0 :: post)) := by
        simp only [List.append_assoc, List.cons_append, List.nil_append]
      rw [propLoop, hbuf, hline, Outcome.done_bind, lookup]
      cases hclass : classify key t with
      | malformed text => rfl
      | found value => rfl
      | next =>
        obtain ⟨t', hlen, rfl⟩ := hnext hclass
        have hend := ih (pre ++ ws ++ (t' ++ [0])) post hrestzero (by
          rw [List.length_cons] at hfuel
          omega)
        have hpos : (pre ++ ws ++ (t' ++ [0])).length = (pre ++ ws ++ (t ++ [0])).length := by
          simp only [List.length_append, hlen]
        have hbuf' : pre ++ ws ++ (t' ++ [0]) ++ (rest ++ 0 :: post) =
            (pre ++ ws) ++ (t' ++ 0 :: (rest ++ 0 :: post)) := by
          simp only [List.append_assoc, List.cons_append, List.nil_append]
        rw [hpos, hbuf'] at hend
        exact hend

/-- In a buffer with a line the result is the one of `lookup`. -/
theorem findProp_spec {f : Bytes} (hzero : 0 ∉ f) (hline : ∃ c ∈ f, c ≠ 10) (key : Bytes) :
    findProp key (f ++ [0]) = .done (lookup key (f.splitOn 10)) := by
  have hloop := propLoop_spec key ((f ++ [0]).length + 1) [] [] hzero (by
    rw [List.length_append, List.length_singleton]
    omega)
  rw [List.nil_append, List.length_nil] at hloop
  rw [findProp, ← hloop]
  cases hstep : strtokAt [10] (f ++ [0]) 0 with
  | some r => rfl
  | none =>
    exfalso
    rcases next_line f with hall | ⟨ws, t, rest, rfl, hws, hne, ht, hrest⟩
    · obtain ⟨c, hc, hno⟩ := hline
      exact hno (hall c hc)
    have hws' : ∀ c ∈ ws, c ∈ [(10 : UInt8)] := by simpa using hws
    have ht' : ∀ c ∈ t, c ∉ [(10 : UInt8)] := fun c hc hmem => by
      rw [List.mem_singleton.mp hmem] at hc
      exact ht hc
    rcases hrest with rfl | ⟨rest, rfl⟩
    · rw [List.append_nil] at hzero hstep
      have hsome := strtokAt_last hzero hws' hne ht' [] []
      rw [List.nil_append, List.length_nil, hstep] at hsome
      cases hsome
    · have hsome := strtokAt_token hzero hws' hne ht' List.mem_cons_self [] []
      rw [List.nil_append, List.length_nil, hstep] at hsome
      cases hsome

/-- Without a line a null pointer is read. -/
theorem findProp_newlines {f : Bytes} (hzero : 0 ∉ f) (hall : ∀ c ∈ f, c = 10) (key : Bytes) :
    findProp key (f ++ [0]) = .fault := by
  have hnone : strtokAt [10] ([] ++ (f ++ 0 :: [])) ([] : Bytes).length = none :=
    strtokAt_none hzero (by simpa using hall) [] []
  rw [List.nil_append, List.length_nil] at hnone
  rw [findProp, hnone]

/-! ## The function -/

/-- A file that can be read. -/
def readable (f : Bytes) : PropFile := ⟨true, true, true, true, f, []⟩

section Result

variable {F C : Type} {call : Fn F → Function F C} {fs : Bytes → PropFile} {e₁ e₂ : Expr F}
  {state state' : State C} {filename key f : Bytes}

/-- For a file that can be read the result is that of the search. -/
theorem fileGetPropFn_eq (hargs : ReadArgs call state [e₁, e₂] = (some [filename, key], state'))
    (hfile : fs filename = readable f) (hsize : f.length ≤ MAX_FILE_GETPROP_SIZE) (name : Bytes) :
    FileGetPropFn call fs name state [e₁, e₂] =
      (findProp key (f ++ [0]) >>= fun r => .done (propResult name filename state' r)) := by
  have hfits : ¬ f.length > MAX_FILE_GETPROP_SIZE := by omega
  simp only [FileGetPropFn, hargs, fileGetProp, hfile, readable, Bool.not_true, Bool.false_eq_true,
    if_false, hfits]

/-- The result is the one that is specified exactly when the file has a byte other than a
newline. -/
theorem file_getprop_iff (hargs : ReadArgs call state [e₁, e₂] = (some [filename, key], state'))
    (hfile : fs filename = readable f) (hsize : f.length ≤ 65536) (hzero : 0 ∉ f) (name : Bytes) :
    FileGetPropFn call fs name state [e₁, e₂] =
      .done (propResult name filename state' (lookup key (f.splitOn 10))) ↔ ∃ c ∈ f, c ≠ 10 := by
  rw [fileGetPropFn_eq hargs hfile hsize]
  by_cases hline : ∃ c ∈ f, c ≠ 10
  · rw [findProp_spec hzero hline, Outcome.done_bind]
    exact iff_of_true rfl hline
  · have hall : ∀ c ∈ f, c = 10 := by simpa using hline
    rw [findProp_newlines hzero hall, Outcome.fault_bind]
    exact iff_of_false nofun hline

end Result

/-- A file of one property, read by two literals. -/
theorem file_getprop_iff_literals :
    (FileGetPropFn literalCall (fun _ => readable (ascii "a = b \n")) (ascii "file_getprop") ⟨(), none⟩
      [literalExpr (ascii "f"), literalExpr (ascii "a")] =
        .done (propResult (ascii "file_getprop") (ascii "f") ⟨(), none⟩
          (lookup (ascii "a") ((ascii "a = b \n").splitOn 10))) ↔ ∃ c ∈ ascii "a = b \n", c ≠ 10) ∧
      lookup (ascii "a") ((ascii "a = b \n").splitOn 10) = .ok (ascii "b") := by
  have hargs : ReadArgs literalCall ⟨(), none⟩ [literalExpr (ascii "f"), literalExpr (ascii "a")] =
      (some [ascii "f", ascii "a"], ⟨(), none⟩) := rfl
  exact ⟨file_getprop_iff hargs (by rfl) (by decide) (by decide) (ascii "file_getprop"), by rfl⟩

/-- An empty file has no line, and none is expected to define the key. -/
theorem file_getprop_empty :
    FileGetPropFn literalCall (fun _ => readable []) (ascii "file_getprop") ⟨(), none⟩
      [literalExpr (ascii "f"), literalExpr (ascii "a")] = .fault ∧
    propResult (ascii "file_getprop") (ascii "f") (⟨(), none⟩ : State Unit)
      (lookup (ascii "a") ([].splitOn 10)) = (some (StringValue []), ⟨(), none⟩) := by
  exact ⟨by rfl, by rfl⟩

end BootableRecovery.Updater
