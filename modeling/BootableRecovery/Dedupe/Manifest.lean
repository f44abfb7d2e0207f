import BootableRecovery.Lib.Numeral

/-!
# `dedupe.c`: the manifest

A manifest has a line for each file, directory and link below the directory that
was stored. Its fields end in tabs. `tokenize` copies a field into a buffer and
does not know the size of it; here the size is a parameter, and a field that
does not fit is a fault, as is a field that has no end.

Main results:
* `tokenize_field`: a field that fits is read.
* `tokenize_long`: a field that does not fit is a fault.
* `dec_to_oct_printed`: the mode is printed in octal, read as a decimal number,
  and still comes back.
-/

namespace BootableRecovery.Dedupe

def PATH_MAX : Nat := 4096

def DEDUPE_VERSION : Int := 2

/-! ## The input tree -/

/-- What `lstat` tells about a file. The user and group -1 do not exist. -/
structure Stat where
  st_mode : Nat
  st_uid : Nat
  st_gid : Nat
  st_atime : Nat
  st_mtime : Nat
  st_ctime : Nat
  st_size : Nat
  uid_lt : st_uid < 2 ^ 32 - 1
  gid_lt : st_gid < 2 ^ 32 - 1
  atime_lt : st_atime < 2 ^ 64
  mtime_lt : st_mtime < 2 ^ 64
  ctime_lt : st_ctime < 2 ^ 64

/-- A file, with the names of the entries of a directory in the order of
`readdir`. The type is a part of `st_mode` in C. -/
inductive Node where
  | file (st : Stat) (content : Bytes)
  | dir (st : Stat) (entries : List (Bytes × Node))
  | link (st : Stat) (target : Bytes)
  | special (st : Stat)

def Node.stat : Node → Stat
  | .file st _ => st
  | .dir st _ => st
  | .link st _ => st
  | .special st => st

/-! ## Blob names -/

/-- The result of SHA-256. -/
def Digest := { sum : Bytes // sum.length = 32 }

/-- The character of a digit for `%02x`. -/
def hexChar (d : Nat) : UInt8 := if d < 10 then UInt8.ofNat (48 + d) else UInt8.ofNat (87 + d)

/-- `psum`: the digest in hexadecimal. -/
def hex (sum : Bytes) : Bytes :=
  sum.flatMap fun b => [hexChar (b.toNat / 16), hexChar (b.toNat % 16)]

/-- The name of a blob. The digest is copied, the fourth character is overwritten
with a slash and the string ends there, and the digest without its first three
characters is appended. -/
def key (psum : Bytes) : Bytes := (psum.set 3 47).take 4 ++ psum.drop 3

/-- The temporary name of a blob while it is copied. -/
def tmpName (out_blob : Bytes) : Bytes := out_blob ++ ascii ".tmp"

/-! ## Printing -/

/-- `S_IRWXU | S_IRWXG | S_IRWXO | S_ISUID | S_ISGID`. -/
def MODE_MASK : Nat := 0o6777

def tab : UInt8 := 9

/-- `print_stat`. The user and the group are printed with `%d`. -/
def print_stat (type : UInt8) (st : Stat) (f : Bytes) : Bytes :=
  [type, tab] ++ printNat 8 (st.st_mode &&& MODE_MASK) ++ [tab] ++
    printInt (wrap32 st.st_uid) ++ [tab] ++ printInt (wrap32 st.st_gid) ++ [tab] ++
    printNat 10 st.st_atime ++ [tab] ++ printNat 10 st.st_mtime ++ [tab] ++
    printNat 10 st.st_ctime ++ [tab] ++ f ++ [tab]

/-- The first line of a manifest. -/
def header : Bytes := ascii "dedupe" ++ [tab] ++ printInt DEDUPE_VERSION ++ [10]

/-- What `store_file` adds to the line. -/
def fileFields (out_key : Bytes) (size : Int) : Bytes :=
  out_key ++ [tab] ++ printInt size ++ [tab, 10]

/-- What `store_link` adds to the line. -/
def linkFields (target : Bytes) : Bytes := target ++ [tab, 10]

/-! ## Reading -/

/-- `tokenize` into a buffer of `size` bytes: the token and the rest of the line.
A line without the separator makes it return `NULL`, which the callers use. -/
def tokenize (sep : UInt8) : Nat → Bytes → Outcome (Bytes × Bytes)
  | _, [] => .fault
  | 0, _ :: _ => .fault
  | size + 1, c :: line =>
    if c = sep then .done ([], line)
    else if c = 0 then .fault
    else do
      let (out, rest) ← tokenize sep size line
      .done (c :: out, rest)

/-- The fields that all the lines begin with. -/
structure Head where
  type : Bytes
  mode : Bytes
  uid : Bytes
  gid : Bytes
  times : List Bytes
  filename : Bytes
  deriving DecidableEq, Repr

/-- The access, modification and change times, which version 1 does not have. -/
def tokenizeTimes (version : Int) (line : Bytes) : Outcome (List Bytes × Bytes) :=
  if 2 ≤ version then do
    let (at', line) ← tokenize tab 32 line
    let (mt, line) ← tokenize tab 32 line
    let (ct, line) ← tokenize tab 32 line
    .done ([at', mt, ct], line)
  else .done ([], line)

/-- The calls of `tokenize` that `x` and `gc` begin a line with. -/
def tokenizeHead (version : Int) (line : Bytes) : Outcome (Head × Bytes) := do
  let (type, line) ← tokenize tab 4 line
  let (mode, line) ← tokenize tab 8 line
  let (uid, line) ← tokenize tab 32 line
  let (gid, line) ← tokenize tab 32 line
  let (times, line) ← tokenizeTimes version line
  let (filename, line) ← tokenize tab PATH_MAX line
  .done (⟨type, mode, uid, gid, times, filename⟩, line)

/-- The two fields of a file: the name of its blob and its size. -/
def tokenizeFile (line : Bytes) : Outcome (Bytes × Bytes) := do
  let (sha256, line) ← tokenize tab 128 line
  let (sizeStr, _) ← tokenize tab 32 line
  .done (sha256, sizeStr)

/-- The loop of `dec_to_oct`; every turn divides `dec`, so `fuel` can be `dec`. -/
def dec_to_octLoop : Nat → Int → Int → Int → Int
  | 0, _, ret, _ => ret
  | fuel + 1, dec, ret, mult =>
    if dec = 0 then ret
    else dec_to_octLoop fuel (dec.tdiv 10) (ret + dec.tmod 10 * mult) (mult * 8)

def dec_to_oct (dec : Int) : Int := dec_to_octLoop dec.natAbs dec 0 1

/-- `sscanf(line, "dedupe\t%d", &version)`: any number of spaces, also none, can
stand for the tab. -/
def scanVersion (line : Bytes) : Option Int :=
  if ascii "dedupe" <+: line then
    let number := (line.drop 6).dropWhile isSpace
    let digits := if number.head? = some 45 ∨ number.head? = some 43 then number.drop 1 else number
    if (digits.head?.map isDigit).getD false then some (atoi number) else none
  else none

/-- The version of a manifest and what is left to read of it. Without a version
line the reader goes back to the start. An empty manifest leaves the line buffer
as it was, which has not been written before. -/
def readVersion (text : Bytes) : Outcome (Int × Bytes) :=
  match fgets PATH_MAX text with
  | none => .fault
  | some (line, rest) =>
    match scanVersion (cstr line) with
    | some version => .done (version, rest)
    | none => .done (1, text)

/-! ## Fields -/

/-- A field that fits into the buffer is read up to its separator. -/
theorem tokenize_field {sep : UInt8} {field : Bytes} (hsep : sep ∉ field) (hzero : 0 ∉ field)
    {size : Nat} (hfit : field.length < size) (rest : Bytes) :
    tokenize sep size (field ++ sep :: rest) = .done (field, rest) := by
  induction field generalizing size with
  | nil =>
    obtain ⟨size, rfl⟩ : ∃ n, size = n + 1 := ⟨size - 1, by simp at hfit; omega⟩
    simp [tokenize]
  | cons c field ih =>
    obtain ⟨size, rfl⟩ : ∃ n, size = n + 1 := ⟨size - 1, by simp at hfit; omega⟩
    have hc : c ≠ sep := fun h => hsep (by simp [h])
    have hc0 : c ≠ 0 := fun h => hzero (by simp [h])
    have hlt : field.length < size := by simpa using hfit
    have hrest := ih (fun h => hsep (List.mem_cons_of_mem _ h))
      (fun h => hzero (List.mem_cons_of_mem _ h)) hlt
    simp only [List.cons_append, tokenize, if_neg hc, if_neg hc0, hrest, Outcome.done_bind]

/-- A field that does not fit is written over the end of the buffer. -/
theorem tokenize_long {sep : UInt8} {field : Bytes} (hsep : sep ∉ field) {size : Nat}
    (hlong : size ≤ field.length) (rest : Bytes) :
    tokenize sep size (field ++ sep :: rest) = .fault := by
  induction field generalizing size with
  | nil =>
    obtain rfl : size = 0 := by simpa using hlong
    rfl
  | cons c field ih =>
    cases size with
    | zero => rfl
    | succ size =>
      have hc : c ≠ sep := fun h => hsep (by simp [h])
      have hle : size ≤ field.length := by simpa using hlong
      have hrest := ih (fun h => hsep (List.mem_cons_of_mem _ h)) hle
      simp only [List.cons_append, tokenize, if_neg hc, hrest, Outcome.fault_bind, ite_self]

/-! ## Modes -/

/-- The digits of a number in base 8, read as decimal ones. -/
def asDecimal (mode : Nat) : Nat := Nat.ofDigits 10 (Nat.digits 8 mode)

theorem le_asDecimal (mode : Nat) : mode ≤ asDecimal mode :=
  calc mode = Nat.ofDigits 8 (Nat.digits 8 mode) := (Nat.ofDigits_digits 8 mode).symm
    _ ≤ asDecimal mode := Nat.ofDigits_monotone _ (by omega)

theorem asDecimal_of_pos {mode : Nat} (h : 0 < mode) :
    asDecimal mode = mode % 8 + 10 * asDecimal (mode / 8) := by
  unfold asDecimal
  rw [Nat.digits_def' (by omega) h, Nat.ofDigits_cons]

theorem dec_to_octLoop_asDecimal (mode : Nat) : ∀ {fuel : Nat}, asDecimal mode ≤ fuel →
    ∀ ret mult : Int, dec_to_octLoop fuel (asDecimal mode) ret mult = ret + mult * mode := by
  induction mode using Nat.strong_induction_on with
  | _ mode ih =>
    intro fuel hfuel ret mult
    rcases Nat.eq_zero_or_pos mode with rfl | hpos
    · have hzero : asDecimal 0 = 0 := by simp [asDecimal]
      cases fuel with
      | zero => simp [dec_to_octLoop]
      | succ fuel => simp [dec_to_octLoop, hzero]
    · have hle := le_asDecimal mode
      have heq := asDecimal_of_pos hpos
      have hlt : mode % 8 < 8 := Nat.mod_lt _ (by omega)
      obtain ⟨fuel, rfl⟩ : ∃ n, fuel = n + 1 := ⟨fuel - 1, by omega⟩
      have hdiv : ((asDecimal mode : Nat) : Int).tdiv 10 = (asDecimal (mode / 8) : Nat) := by
        rw [Int.tdiv_eq_ediv_of_nonneg (by omega)]
        omega
      have hmod : ((asDecimal mode : Nat) : Int).tmod 10 = (mode % 8 : Nat) := by
        rw [Int.tmod_eq_emod_of_nonneg (by omega)]
        omega
      rw [dec_to_octLoop, if_neg (by omega), hdiv, hmod, ih (mode / 8) (by omega) (by omega)]
      have hsplit : (mode : Int) = (mode % 8 : Nat) + 8 * (mode / 8 : Nat) := by omega
      conv_rhs => rw [hsplit]
      ring

/-- The mode that is printed in octal and read as a decimal number. -/
theorem dec_to_oct_printed (mode : Nat) {rest : Bytes}
    (hrest : ∀ c ∈ rest.head?, isDigit c = false) :
    dec_to_oct (atoi (printNat 8 mode ++ rest)) = mode := by
  rw [atoi_printNat (by omega) (by omega) rest hrest]
  have hloop := dec_to_octLoop_asDecimal mode le_rfl 0 1
  unfold dec_to_oct
  rw [Int.natAbs_natCast]
  unfold asDecimal at hloop
  rw [hloop]
  ring

end BootableRecovery.Dedupe
