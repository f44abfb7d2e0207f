import BootableRecovery.Lib.BinarySearch
import BootableRecovery.Minzip.Hash

/-!
# `minzip/Zip.c`: the index of a zip archive

`parseZipArchive` locates the end-of-central-directory record by a backward
scan, walks the central directory, inserts every record into an array that is
kept sorted by file name, and enters the array into the hash table that
`mzFindZipEntry` searches.

The target has 32-bit pointers, `long` and `size_t`. A mapping is a byte string
at an address; pointers into it are addresses, and pointer arithmetic wraps at
`2 ^ 32`. A read outside the mapping is a `fault`.

Main results:
* `findEocd_spec`: the scan stops at the last occurrence of the signature that
  leaves room for a record.
* `insertEntry_spec`: inserting keeps the array sorted and does not overtake
  the first record of any name.
* `zipIndex_correct`: the array is the sorted central directory, and a lookup
  finds the first record of the directory with the name.
-/

namespace BootableRecovery.Minzip

/-! ## The mapping -/

/-- `MemMapping`: the bytes of a file, mapped somewhere in the address space. -/
structure MemMapping where
  addr : Nat
  bytes : Bytes
  addr_pos : 0 < addr
  fits : addr + bytes.length ≤ 2 ^ 32

def MemMapping.length (m : MemMapping) : Nat := m.bytes.length

/-- The address one past the mapping, `pMap->addr + pMap->length`. -/
def MemMapping.endAddr (m : MemMapping) : Nat := toU32 (m.addr + m.length)

/-- Read `n` bytes at the address `ptr`. -/
def MemMapping.read (m : MemMapping) (ptr n : Nat) : Outcome Bytes :=
  load m.bytes ((ptr : Int) - m.addr) n

/-- Get 2 little-endian bytes. -/
def get2LE (m : MemMapping) (ptr : Nat) : Outcome Nat := do
  let b ← m.read ptr 2
  .done (leNat b)

/-- Get 4 little-endian bytes. -/
def get4LE (m : MemMapping) (ptr : Nat) : Outcome Nat := do
  let b ← m.read ptr 4
  .done (leNat b)

/-! ## Offset and length constants -/

def CENSIG : Nat := 0x02014b50
def CENHDR : Nat := 46
def CENVEM : Nat := 4
def CENHOW : Nat := 10
def CENTIM : Nat := 12
def CENCRC : Nat := 16
def CENSIZ : Nat := 20
def CENLEN : Nat := 24
def CENNAM : Nat := 28
def CENEXT : Nat := 30
def CENCOM : Nat := 32
def CENATX : Nat := 38
def CENOFF : Nat := 42
def ENDSIG : Nat := 0x06054b50
def ENDHDR : Nat := 22
def ENDSUB : Nat := 8
def ENDOFF : Nat := 16
def LOCSIG : Nat := 0x04034b50
def LOCHDR : Nat := 30
def LOCNAM : Nat := 26
def LOCEXT : Nat := 28
def CENVEM_UNIX : Nat := 3 * 2 ^ 8
def PATH_MAX : Nat := 4096

/-! ## Entries -/

/-- `ZipEntry`. `fileName` is a pointer into the mapping. -/
structure ZipEntry where
  fileNameLen : Nat
  fileName : Nat
  offset : Int
  compLen : Int
  uncompLen : Int
  compression : Nat
  modTime : Int
  crc32 : Int
  versionMadeBy : Nat
  externalFileAttributes : Int
  deriving DecidableEq, Repr

/-- The bytes of the file name, which `validFilename` has read. -/
def ZipEntry.name (m : MemMapping) (e : ZipEntry) : Bytes :=
  slice m.bytes (e.fileName - m.addr) e.fileNameLen

/-- `memcmp` of two strings of the same length. -/
def memcmp : Bytes → Bytes → Int
  | a :: as, b :: bs => if a = b then memcmp as bs else (a.toNat : Int) - b.toNat
  | _, _ => 0

/-- `strncmp`. -/
def strncmp : Bytes → Bytes → Nat → Int
  | a :: as, b :: bs, n + 1 =>
    if a ≠ b then (a.toNat : Int) - b.toNat else if a = 0 then 0 else strncmp as bs n
  | _, _, _ => 0

/-- The part of a buffer that is its C string. -/
def cString (s : Bytes) : Bytes := s.takeWhile (· ≠ 0)

/-- Compare two entries by name; a `mzHashTableLookup` callback. -/
def hashcmpZipEntry (m : MemMapping) (entry1 entry2 : ZipEntry) : Int :=
  if entry1.fileNameLen ≠ entry2.fileNameLen then (entry1.fileNameLen : Int) - entry2.fileNameLen
  else memcmp (entry1.name m) (entry2.name m)

/-- Find an entry by name; a `mzHashTableLookup` callback. -/
def hashcmpZipName (m : MemMapping) (entry : ZipEntry) (name : Bytes) : Int :=
  let nameLen := (cString name).length
  if entry.fileNameLen ≠ nameLen then (entry.fileNameLen : Int) - nameLen
  else memcmp (entry.name m) (cString name)

/-- The hash code for a file name. -/
def computeHash (name : Bytes) : UInt32 := name.foldl (fun hash c => hash * 31 + c.toUInt32) 2

/-- The loop of `validFilename`: all `n` characters are printable ASCII. -/
def validChars (m : MemMapping) : Nat → Nat → Outcome Bool
  | 0, _ => .done true
  | n + 1, ptr => do
    let c ← m.read ptr 1
    if leNat c < 32 ∨ 127 ≤ leNat c then .done false
    else validChars m n (toU32 (ptr + 1))

/-- The name is not too long, and all characters are printable ASCII. -/
def validFilename (m : MemMapping) (fileName fileNameLen : Nat) : Outcome Bool :=
  if PATH_MAX ≤ fileNameLen then .done false else validChars m fileNameLen fileName

/-! ## The central directory -/

/-- The variables of the loop that are read first from a central directory
record. -/
structure CenHeader where
  localHdrOffset : Nat
  fileNameLen : Nat
  extraLen : Nat
  commentLen : Nat
  fileName : Nat

/-- The first half of the loop body: the record is inside the mapping, has the
signature and a valid file name. `none` is where the walk bails out. Pointers
are compared as in the source, after arithmetic in 32 bits. -/
def readHeader (m : MemMapping) (ptr : Nat) : Outcome (Option CenHeader) := do
  if toU32 (ptr + CENHDR) > m.endAddr then .done none
  else if (← get4LE m ptr) ≠ CENSIG then .done none
  else
    let localHdrOffset ← get4LE m (toU32 (ptr + CENOFF))
    let fileNameLen ← get2LE m (toU32 (ptr + CENNAM))
    let extraLen ← get2LE m (toU32 (ptr + CENEXT))
    let commentLen ← get2LE m (toU32 (ptr + CENCOM))
    let fileName := toU32 (ptr + CENHDR)
    if toU32 (fileName + fileNameLen) > m.endAddr then .done none
    else if !(← validFilename m fileName fileNameLen) then .done none
    else .done (some ⟨localHdrOffset, fileNameLen, extraLen, commentLen, fileName⟩)

/-- The second half of the loop body: the fields of the entry and the checks of
the local header and of the data's place in the file. -/
def readFields (m : MemMapping) (ptr : Nat) (h : CenHeader) : Outcome (Option ZipEntry) := do
  let compLen ← get4LE m (toU32 (ptr + CENSIZ))
  let uncompLen ← get4LE m (toU32 (ptr + CENLEN))
  let compression ← get2LE m (toU32 (ptr + CENHOW))
  let modTime ← get4LE m (toU32 (ptr + CENTIM))
  let crc32 ← get4LE m (toU32 (ptr + CENCRC))
  let versionMadeBy ← get2LE m (toU32 (ptr + CENVEM))
  if versionMadeBy &&& 0xff00 ≠ 0 ∧ versionMadeBy &&& 0xff00 ≠ CENVEM_UNIX then .done none
  else
    let externalFileAttributes ← get4LE m (toU32 (ptr + CENATX))
    -- `safe_add` of the address and the offset refuses an overflow.
    if 2 ^ 32 ≤ m.addr + h.localHdrOffset then .done none
    else
      let localHdr := m.addr + h.localHdrOffset
      if toU32 (localHdr + LOCHDR) > m.endAddr then .done none
      else if (← get4LE m localHdr) ≠ LOCSIG then .done none
      else
        let nameLen ← get2LE m (toU32 (localHdr + LOCNAM))
        let extLen ← get2LE m (toU32 (localHdr + LOCEXT))
        let offset := wrap32 (toU32 (h.localHdrOffset + LOCHDR + nameLen + extLen))
        -- `safe_add` of two `long`s refuses an overflow.
        if offset + wrap32 compLen < -2 ^ 31 ∨ 2 ^ 31 ≤ offset + wrap32 compLen then .done none
        else if toU32 (offset + wrap32 compLen) > m.length then .done none
        else
          .done (some ⟨h.fileNameLen, h.fileName, offset, wrap32 compLen, wrap32 uncompLen,
            compression, wrap32 modTime, wrap32 crc32, versionMadeBy,
            wrap32 externalFileAttributes⟩)

/-- One central directory record at `ptr`: the entry and the address of the
next record. -/
def readEntry (m : MemMapping) (ptr : Nat) : Outcome (Option (ZipEntry × Nat)) := do
  let some h ← readHeader m ptr | .done none
  let some e ← readFields m ptr h | .done none
  .done (some (e, toU32 (ptr + CENHDR + h.fileNameLen + h.extraLen + h.commentLen)))

/-- The comparison of an entry with a new name in the binary search. -/
def compareName (a b : Bytes) : Int :=
  let diff := strncmp a b (min a.length b.length)
  if diff = 0 then (a.length : Int) - b.length else diff

/-- Put a new entry into the sorted array: a binary search for its place and a
`memmove` to make room. -/
def insertEntry (m : MemMapping) (pEntries : List ZipEntry) (e : ZipEntry) :
    Outcome (List ZipEntry) :=
  if 0 < pEntries.length then do
    let high ← bsearch (fun x => compareName (x.name m) (e.name m)) pEntries pEntries.length 0
      ((pEntries.length : Int) - 1)
    let target := toU32 (high + 1)
    if target ≤ pEntries.length then
      .done (pEntries.take target ++ e :: pEntries.drop target)
    else .fault
  else .done [e]

/-- The walk over the `n` records that are left, the next one at `ptr`. -/
def walkDirectory (m : MemMapping) : Nat → Nat → List ZipEntry → Outcome (Option (List ZipEntry))
  | 0, _, pEntries => .done (some pEntries)
  | n + 1, ptr, pEntries => do
    let some (e, next) ← readEntry m ptr | .done none
    let pEntries' ← insertEntry m pEntries e
    walkDirectory m n next pEntries'

/-! ## The archive -/

/-- `ZipArchive`. The table holds pointers to entries, as indices into
`pEntries`. -/
structure ZipArchive where
  numEntries : Nat
  pEntries : List ZipEntry
  pHash : HashTable Nat
  map : MemMapping

/-- The entry that a pointer of the table points to. -/
def entryAt (pEntries : List ZipEntry) (i : Nat) : ZipEntry :=
  pEntries.getD i ⟨0, 0, 0, 0, 0, 0, 0, 0, 0, 0⟩

/-- Enter the entry `pEntries[i]`; one with the same name that is there already
stays. -/
def addEntryToHashTable (m : MemMapping) (pEntries : List ZipEntry) (pHash : HashTable Nat)
    (i : Nat) : Outcome (HashTable Nat) := do
  let entry := entryAt pEntries i
  let itemHash := computeHash (entry.name m)
  let (pHash', _) ← mzHashTableLookup pHash itemHash
    (fun d => hashcmpZipEntry m (entryAt pEntries d) entry) (some i)
  .done pHash'

/-- Enter the `n` entries from index `i` on. -/
def addEntries (m : MemMapping) (pEntries : List ZipEntry) :
    Nat → Nat → HashTable Nat → Outcome (HashTable Nat)
  | 0, _, pHash => .done pHash
  | n + 1, i, pHash => do
    let pHash' ← addEntryToHashTable m pEntries pHash i
    addEntries m pEntries n (i + 1) pHash'

/-- The backward scan for the end-of-central-directory record. -/
def eocdLoop (m : MemMapping) : Nat → Nat → Outcome (Option Nat)
  | 0, _ => .spin
  | fuel + 1, ptr =>
    if m.addr ≤ ptr then do
      if leNat (← m.read ptr 1) = ENDSIG &&& 0xff then
        if (← get4LE m ptr) = ENDSIG then .done (some ptr)
        else eocdLoop m fuel (toU32 ((ptr : Int) - 1))
      else eocdLoop m fuel (toU32 ((ptr : Int) - 1))
    else .done none

/-- Find the EOCD: its address, if there is one. -/
def findEocd (m : MemMapping) : Outcome (Option Nat) :=
  eocdLoop m (m.length + 1) (toU32 ((m.addr : Int) + m.length - ENDHDR))

/-- The two items of the EOCD block: the number of entries and the offset of
the central directory. -/
def eocdFields (m : MemMapping) (ptr : Nat) : Outcome (Nat × Nat) := do
  let numEntries ← get2LE m (toU32 (ptr + ENDSUB))
  let cdOffset ← get4LE m (toU32 (ptr + ENDOFF))
  .done (numEntries, cdOffset)

/-- Parse the contents of a zip archive; `none` is the return value false. -/
def parseZipArchive (m : MemMapping) : Outcome (Option ZipArchive) := do
  let val ← get4LE m m.addr
  if val = ENDSIG then .done none
  else if val ≠ LOCSIG then .done none
  else
    let some ptr ← findEocd m | .done none
    let (numEntries, cdOffset) ← eocdFields m ptr
    if numEntries = 0 ∨ m.length ≤ cdOffset then .done none
    else
      let pHash ← mzHashTableCreate (UInt32.ofNat (mzHashSize numEntries))
      let some pEntries ← walkDirectory m numEntries (toU32 (m.addr + cdOffset)) [] | .done none
      let pHash' ← addEntries m pEntries numEntries 0 pHash
      .done (some ⟨numEntries, pEntries, pHash', m⟩)

/-- Find a matching entry: the pointer to it, as an index into `pEntries`, or
`none` for `NULL`. -/
def mzFindZipEntry (a : ZipArchive) (entryName : Bytes) : Outcome (Option Nat) := do
  let itemHash := computeHash (cString entryName)
  let (_, found) ← mzHashTableLookup a.pHash itemHash
    (fun d => hashcmpZipName a.map (entryAt a.pEntries d) entryName) none
  .done found

/-! ## The scan for the end-of-central-directory record -/

/-- The signature stands at offset `i` of the mapping. -/
def sigAt (m : MemMapping) (i : Nat) : Prop := leNat (slice m.bytes i 4) = ENDSIG

theorem read_addr_add {m : MemMapping} {i n : Nat} (h : i + n ≤ m.bytes.length) :
    m.read (m.addr + i) n = .done (slice m.bytes i n) := by
  unfold MemMapping.read
  have hidx : ((m.addr + i : Nat) : Int) - m.addr = i := by omega
  rw [hidx, load_ofNat h]

/-- The first byte of the signature. -/
theorem sigAt_first {m : MemMapping} {i : Nat} (h : i + 4 ≤ m.bytes.length) (hsig : sigAt m i) :
    leNat (slice m.bytes i 1) = ENDSIG &&& 0xff := by
  have hsplit := slice_append_slice m.bytes i 1 3
  have hone := slice_length_of_le (show i + 1 ≤ m.bytes.length by omega)
  have hlt := leNat_lt (slice m.bytes i 1)
  rw [sigAt, ← hsplit, leNat_append, hone] at hsig
  rw [hone] at hlt
  rw [show ENDSIG &&& 0xff = 0x50 from rfl]
  simp only [ENDSIG] at hsig
  omega

/-- The scan, started at `i`, stops at the last occurrence at or before `i`. -/
theorem eocdLoop_spec {m : MemMapping} {off : Nat} (hsig : sigAt m off) (fuel : Nat) :
    ∀ i : Nat, off ≤ i → i + 4 ≤ m.bytes.length → (∀ j, off < j → j ≤ i → ¬ sigAt m j) →
      i - off < fuel → eocdLoop m fuel (m.addr + i) = .done (some (m.addr + off)) := by
  induction fuel with
  | zero =>
    intro i _ _ _ hfuel
    omega
  | succ fuel ih =>
    intro i hle hlen hnone hfuel
    have hget : get4LE m (m.addr + i) = .done (leNat (slice m.bytes i 4)) := by
      rw [get4LE, read_addr_add hlen, Outcome.done_bind]
    rw [eocdLoop, if_pos (by omega), read_addr_add (by omega), Outcome.done_bind, hget,
      Outcome.done_bind]
    rcases Nat.eq_or_lt_of_le hle with rfl | hlt
    · have hfull : leNat (slice m.bytes off 4) = ENDSIG := hsig
      rw [if_pos (sigAt_first hlen hsig), if_pos hfull]
    · have hno : ¬ leNat (slice m.bytes i 4) = ENDSIG := hnone i hlt le_rfl
      have hprev : toU32 (((m.addr + i : Nat) : Int) - 1) = m.addr + (i - 1) := by
        have hfits := m.fits
        have hcast : ((m.addr + i : Nat) : Int) - 1 = (m.addr + (i - 1) : Nat) := by omega
        rw [hcast]
        exact toU32_of_range (by omega)
      have hrest := ih (i - 1) (by omega) (by omega) (fun j hj hji => hnone j hj (by omega))
        (by omega)
      rw [if_neg hno, hprev, hrest, ite_self]

/-- The scan stops at the last occurrence of the signature that leaves room for
a record behind it. -/
theorem findEocd_spec {m : MemMapping} {off : Nat} (hroom : off + ENDHDR ≤ m.length)
    (hsig : sigAt m off) (hlast : ∀ j, off < j → j + ENDHDR ≤ m.length → ¬ sigAt m j) :
    findEocd m = .done (some (m.addr + off)) := by
  simp only [ENDHDR, MemMapping.length] at hroom hlast
  have hfits := m.fits
  have hstart : toU32 ((m.addr : Int) + m.length - ENDHDR) =
      m.addr + (m.bytes.length - 22) := by
    have hcast : (m.addr : Int) + m.length - ENDHDR = (m.addr + (m.bytes.length - 22) : Nat) := by
      simp only [MemMapping.length, ENDHDR]
      omega
    rw [hcast]
    exact toU32_of_range (by omega)
  rw [findEocd, hstart]
  refine eocdLoop_spec hsig (m.length + 1) (m.bytes.length - 22) (by omega) (by omega) ?_ ?_
  · intro j hj hle
    exact hlast j hj (by omega)
  · simp only [MemMapping.length]
    omega

/-! ## Names -/

/-- A name as a string of numbers, which are ordered lexicographically. -/
def nameKey (n : Bytes) : List Nat := n.map UInt8.toNat

theorem nameKey_injective : Function.Injective nameKey :=
  List.map_injective_iff.mpr fun _ _ h => UInt8.toNat_inj.mp h

theorem compareName_nil_left (b : Bytes) : compareName [] b = -(b.length : Int) := by
  simp [compareName, strncmp]

theorem compareName_nil_right (a : Bytes) : compareName a [] = a.length := by
  simp [compareName, strncmp]

theorem compareName_cons {a b : UInt8} (as bs : Bytes) (ha : a ≠ 0) :
    compareName (a :: as) (b :: bs) =
      if a = b then compareName as bs else (a.toNat : Int) - b.toNat := by
  by_cases hab : a = b
  · subst hab
    simp [compareName, strncmp, ha, Nat.succ_min_succ]
  · have hne : (a.toNat : Int) - b.toNat ≠ 0 := by
      intro h
      exact hab (UInt8.toNat_inj.mp (by omega))
    simp [compareName, strncmp, hab, hne, Nat.succ_min_succ]

/-- On names without NUL the comparison of the binary search is the
lexicographic order. -/
theorem compareName_key (a : Bytes) : ∀ b : Bytes, (∀ c ∈ a, c ≠ 0) →
    (compareName a b < 0 ↔ nameKey a < nameKey b) ∧ (compareName a b = 0 ↔ a = b) := by
  induction a with
  | nil =>
    intro b _
    rw [compareName_nil_left]
    cases b with
    | nil => simp [nameKey]
    | cons y ys =>
      constructor
      · simp [nameKey]
        omega
      · simp
        omega
  | cons x xs ih =>
    intro b hx
    cases b with
    | nil =>
      rw [compareName_nil_right]
      constructor
      · simp [nameKey]
        omega
      · simp
        omega
    | cons y ys =>
      rw [compareName_cons xs ys (hx x (List.mem_cons_self ..))]
      obtain ⟨ihlt, iheq⟩ := ih ys fun c hc => hx c (List.mem_cons_of_mem _ hc)
      by_cases hxy : x = y
      · subst hxy
        rw [if_pos rfl, ihlt, iheq]
        simp [nameKey]
      · have hne : x.toNat ≠ y.toNat := fun h => hxy (UInt8.toNat_inj.mp h)
        rw [if_neg hxy]
        constructor
        · simp only [nameKey, List.map_cons, List.cons_lt_cons_iff]
          omega
        · simp only [List.cons.injEq, hxy, false_and, iff_false]
          omega

theorem compareName_nonpos {a b : Bytes} (ha : ∀ c ∈ a, c ≠ 0) :
    compareName a b ≤ 0 ↔ nameKey a ≤ nameKey b := by
  obtain ⟨hlt, heq⟩ := compareName_key a b ha
  rw [le_iff_lt_or_eq, le_iff_lt_or_eq, hlt, heq, nameKey_injective.eq_iff]

/-- Smaller names compare smaller with every third name. -/
theorem compareName_sign {a b : Bytes} (k : Bytes) (ha : ∀ c ∈ a, c ≠ 0) (hb : ∀ c ∈ b, c ≠ 0)
    (h : compareName a b ≤ 0) : (compareName a k).sign ≤ (compareName b k).sign := by
  have hab := (compareName_nonpos ha).mp h
  obtain ⟨halt, -⟩ := compareName_key a k ha
  obtain ⟨hblt, hbeq⟩ := compareName_key b k hb
  rcases lt_trichotomy (compareName b k) 0 with hneg | hzero | hpos
  · have hak : compareName a k < 0 := halt.mpr (lt_of_le_of_lt hab (hblt.mp hneg))
    rw [Int.sign_eq_neg_one_of_neg hneg, Int.sign_eq_neg_one_of_neg hak]
  · have hbk := hbeq.mp hzero
    subst hbk
    rw [hzero, Int.sign_zero]
    exact Int.sign_nonpos_iff.mpr h
  · rw [Int.sign_eq_one_of_pos hpos]
    rcases Int.sign_trichotomy (compareName a k) with hs | hs | hs <;> rw [hs] <;> decide

theorem memcmp_eq_zero {a b : Bytes} (h : a.length = b.length) : memcmp a b = 0 ↔ a = b := by
  induction a generalizing b with
  | nil =>
    cases b with
    | nil => simp [memcmp]
    | cons y ys => cases h
  | cons x xs ih =>
    cases b with
    | nil => cases h
    | cons y ys =>
      rw [memcmp]
      by_cases hxy : x = y
      · subst hxy
        rw [if_pos rfl, ih (by simpa using h)]
        simp
      · have hne : x.toNat ≠ y.toNat := fun h => hxy (UInt8.toNat_inj.mp h)
        rw [if_neg hxy]
        simp only [List.cons.injEq, hxy, false_and, iff_false]
        omega

/-! ## The array -/

/-- An entry with a name that is in the mapping and has no NUL. -/
structure ZipEntry.Named (m : MemMapping) (e : ZipEntry) : Prop where
  length_eq : (e.name m).length = e.fileNameLen
  ne_zero : ∀ c ∈ e.name m, c ≠ 0

/-- A read that succeeds is inside the mapping. -/
theorem MemMapping.read_done {m : MemMapping} {ptr n : Nat} {b : Bytes}
    (h : m.read ptr n = .done b) :
    m.addr ≤ ptr ∧ ptr + n ≤ m.addr + m.length ∧ b = slice m.bytes (ptr - m.addr) n := by
  unfold MemMapping.read load at h
  split at h
  · rename_i hin
    cases h
    rw [MemMapping.length]
    refine ⟨by omega, by omega, ?_⟩
    congr 1
    omega
  · cases h

/-- The characters that `validFilename` accepts are inside the mapping, and
none is NUL. -/
theorem validChars_spec {m : MemMapping} (n : Nat) : ∀ ptr : Nat, 0 < n →
    validChars m n ptr = .done true →
    m.addr ≤ ptr ∧ ptr + n ≤ m.addr + m.length ∧
      ∀ c ∈ slice m.bytes (ptr - m.addr) n, c ≠ 0 := by
  induction n with
  | zero =>
    intro ptr hn _
    cases hn
  | succ n ih =>
    intro ptr _ h
    rw [validChars, Outcome.bind_eq_done] at h
    obtain ⟨b, hread, h⟩ := h
    obtain ⟨hlow, hhigh, rfl⟩ := MemMapping.read_done hread
    split at h
    · cases h
    · rename_i hchar
      have hfits := m.fits
      simp only [MemMapping.length] at hhigh ⊢
      have hlt : ptr - m.addr < m.bytes.length := by omega
      have hone : slice m.bytes (ptr - m.addr) 1 = [m.bytes[ptr - m.addr]] := by
        rw [slice, List.drop_eq_getElem_cons hlt]
        rfl
      have hne : m.bytes[ptr - m.addr] ≠ 0 := by
        intro hzero
        rw [hone, hzero] at hchar
        exact hchar (.inl (by decide))
      have hcons : slice m.bytes (ptr - m.addr) (n + 1) =
          m.bytes[ptr - m.addr] :: slice m.bytes (ptr + 1 - m.addr) n := by
        rw [Nat.add_comm n 1, ← slice_append_slice, hone,
          show ptr - m.addr + 1 = ptr + 1 - m.addr by omega]
        rfl
      rcases Nat.eq_zero_or_pos n with rfl | hn
      · refine ⟨hlow, by omega, ?_⟩
        intro c hc
        rw [hone, List.mem_singleton] at hc
        rw [hc]
        exact hne
      · -- The next character is inside the mapping, so the pointer does not wrap.
        obtain ⟨hlow', hhigh', hrest⟩ := ih _ hn h
        have hptr : toU32 ((ptr : Int) + 1) = ptr + 1 := by
          by_cases hlast : ptr + 1 < 2 ^ 32
          · exact_mod_cast toU32_of_range hlast
          · have hwrap : toU32 ((ptr : Int) + 1) = 0 := by
              have hval : (ptr : Int) + 1 = 2 ^ 32 := by omega
              rw [hval]
              decide +kernel
            rw [hwrap] at hlow'
            have := m.addr_pos
            omega
        rw [hptr] at hlow' hhigh' hrest
        simp only [MemMapping.length] at hhigh'
        refine ⟨hlow, by omega, ?_⟩
        intro c hc
        rw [hcons, List.mem_cons] at hc
        rcases hc with rfl | hc
        · exact hne
        · exact hrest c hc

theorem readHeader_valid {m : MemMapping} {ptr : Nat} {hd : CenHeader}
    (h : readHeader m ptr = .done (some hd)) :
    validFilename m hd.fileName hd.fileNameLen = .done true := by
  unfold readHeader at h
  split at h
  · cases h
  · obtain ⟨sig, -, h⟩ := Outcome.bind_eq_done.mp h
    split at h
    · cases h
    · obtain ⟨localHdrOffset, -, h⟩ := Outcome.bind_eq_done.mp h
      obtain ⟨fileNameLen, -, h⟩ := Outcome.bind_eq_done.mp h
      obtain ⟨extraLen, -, h⟩ := Outcome.bind_eq_done.mp h
      obtain ⟨commentLen, -, h⟩ := Outcome.bind_eq_done.mp h
      simp only at h
      split at h
      · cases h
      · obtain ⟨valid, hvalid, h⟩ := Outcome.bind_eq_done.mp h
        cases valid with
        | false => cases h
        | true =>
          cases h
          exact hvalid

/-- What the second half of the loop body has read and checked when it accepts a record. -/
structure FieldsOf (m : MemMapping) (ptr : Nat) (hd : CenHeader) (e : ZipEntry) : Prop where
  fileName : e.fileName = hd.fileName
  fileNameLen : e.fileNameLen = hd.fileNameLen
  localHdr : m.addr + hd.localHdrOffset < 2 ^ 32
  compLen : ∃ n, get4LE m (toU32 (ptr + CENSIZ)) = .done n ∧ e.compLen = wrap32 n
  uncompLen : ∃ n, get4LE m (toU32 (ptr + CENLEN)) = .done n ∧ e.uncompLen = wrap32 n
  offset : ∃ nameLen extLen,
    get2LE m (toU32 ((m.addr + hd.localHdrOffset : Nat) + LOCNAM)) = .done nameLen ∧
    get2LE m (toU32 ((m.addr + hd.localHdrOffset : Nat) + LOCEXT)) = .done extLen ∧
    e.offset = wrap32 (toU32 (hd.localHdrOffset + LOCHDR + nameLen + extLen))
  no_overflow : -2 ^ 31 ≤ e.offset + e.compLen ∧ e.offset + e.compLen < 2 ^ 31
  end_le : toU32 (e.offset + e.compLen) ≤ m.length

theorem readFields_spec {m : MemMapping} {ptr : Nat} {hd : CenHeader} {e : ZipEntry}
    (h : readFields m ptr hd = .done (some e)) : FieldsOf m ptr hd e := by
  unfold readFields at h
  obtain ⟨compLen, hcomp, h⟩ := Outcome.bind_eq_done.mp h
  obtain ⟨uncompLen, huncomp, h⟩ := Outcome.bind_eq_done.mp h
  obtain ⟨compression, -, h⟩ := Outcome.bind_eq_done.mp h
  obtain ⟨modTime, -, h⟩ := Outcome.bind_eq_done.mp h
  obtain ⟨crc32, -, h⟩ := Outcome.bind_eq_done.mp h
  obtain ⟨versionMadeBy, -, h⟩ := Outcome.bind_eq_done.mp h
  split at h
  · cases h
  obtain ⟨attributes, -, h⟩ := Outcome.bind_eq_done.mp h
  split at h
  · cases h
  rename_i hadd
  simp only at h
  split at h
  · cases h
  obtain ⟨sig, -, h⟩ := Outcome.bind_eq_done.mp h
  split at h
  · cases h
  obtain ⟨nameLen, hname, h⟩ := Outcome.bind_eq_done.mp h
  obtain ⟨extLen, hext, h⟩ := Outcome.bind_eq_done.mp h
  split at h
  · cases h
  rename_i hsum
  split at h
  · cases h
  rename_i hend
  cases h
  exact ⟨rfl, rfl, by omega, ⟨compLen, hcomp, rfl⟩, ⟨uncompLen, huncomp, rfl⟩,
    ⟨nameLen, extLen, hname, hext, rfl⟩,
    ⟨Int.not_lt.mp (not_or.mp hsum).1, Int.not_le.mp (not_or.mp hsum).2⟩, Nat.le_of_not_lt hend⟩

/-- The fields that are read into a `long`. -/
structure ZipEntry.InRange (e : ZipEntry) : Prop where
  offset : -2 ^ 31 ≤ e.offset ∧ e.offset < 2 ^ 31
  compLen : -2 ^ 31 ≤ e.compLen ∧ e.compLen < 2 ^ 31
  uncompLen : -2 ^ 31 ≤ e.uncompLen ∧ e.uncompLen < 2 ^ 31

theorem readEntry_named {m : MemMapping} {ptr next : Nat} {e : ZipEntry}
    (h : readEntry m ptr = .done (some (e, next))) : e.Named m := by
  unfold readEntry at h
  obtain ⟨hd, hhead, h⟩ := Outcome.bind_eq_done.mp h
  cases hd with
  | none => cases h
  | some hd =>
    obtain ⟨e', hfields, h⟩ := Outcome.bind_eq_done.mp h
    cases e' with
    | none => cases h
    | some e' =>
      cases h
      have hspec := readFields_spec hfields
      have hname := hspec.fileName
      have hlen := hspec.fileNameLen
      have hvalid := readHeader_valid hhead
      unfold validFilename at hvalid
      split at hvalid
      · cases hvalid
      · rcases Nat.eq_zero_or_pos hd.fileNameLen with hzero | hpos
        · have hempty : e.name m = [] := by rw [ZipEntry.name, hlen, hzero, slice_zero]
          constructor
          · rw [hempty, hlen, hzero]
            rfl
          · rw [hempty]
            intro c hc
            cases hc
        · obtain ⟨hlow, hhigh, hne⟩ := validChars_spec hd.fileNameLen hd.fileName hpos hvalid
          rw [MemMapping.length] at hhigh
          constructor
          · rw [ZipEntry.name, hname, hlen]
            exact slice_length_of_le (by omega)
          · rw [ZipEntry.name, hname, hlen]
            exact hne

theorem readEntry_short {m : MemMapping} {ptr next : Nat} {e : ZipEntry}
    (h : readEntry m ptr = .done (some (e, next))) : e.fileNameLen < PATH_MAX := by
  unfold readEntry at h
  obtain ⟨hd, hhead, h⟩ := Outcome.bind_eq_done.mp h
  cases hd with
  | none => cases h
  | some hd =>
    obtain ⟨e', hfields, h⟩ := Outcome.bind_eq_done.mp h
    cases e' with
    | none => cases h
    | some e' =>
      cases h
      have hvalid := readHeader_valid hhead
      unfold validFilename at hvalid
      split at hvalid
      · cases hvalid
      · rename_i hshort
        rw [(readFields_spec hfields).fileNameLen]
        exact Nat.lt_of_not_le hshort

theorem readEntry_inRange {m : MemMapping} {ptr next : Nat} {e : ZipEntry}
    (h : readEntry m ptr = .done (some (e, next))) : e.InRange := by
  unfold readEntry at h
  obtain ⟨hd, -, h⟩ := Outcome.bind_eq_done.mp h
  cases hd with
  | none => cases h
  | some hd =>
    obtain ⟨e', hfields, h⟩ := Outcome.bind_eq_done.mp h
    cases e' with
    | none => cases h
    | some e' =>
      cases h
      have hspec := readFields_spec hfields
      obtain ⟨compLen, -, hcomp⟩ := hspec.compLen
      obtain ⟨uncompLen, -, huncomp⟩ := hspec.uncompLen
      obtain ⟨nameLen, extLen, -, -, hoffset⟩ := hspec.offset
      refine ⟨?_, ?_, ?_⟩
      · rw [hoffset]
        exact wrap32_range _
      · rw [hcomp]
        exact wrap32_range _
      · rw [huncomp]
        exact wrap32_range _

/-- The array is sorted by name, in the order of the binary search. -/
def SortedByName (m : MemMapping) (l : List ZipEntry) : Prop :=
  l.Pairwise fun x y => compareName (x.name m) (y.name m) ≤ 0

/-- The first entry of a list with a name. -/
def firstNamed (m : MemMapping) (n : Bytes) (l : List ZipEntry) : Option ZipEntry :=
  l.find? fun x => x.name m = n

theorem firstNamed_append (m : MemMapping) (n : Bytes) (l l' : List ZipEntry) :
    firstNamed m n (l ++ l') = (firstNamed m n l).or (firstNamed m n l') :=
  List.find?_append

theorem firstNamed_cons_ne {m : MemMapping} {n : Bytes} {e : ZipEntry} (h : e.name m ≠ n)
    (l : List ZipEntry) : firstNamed m n (e :: l) = firstNamed m n l :=
  List.find?_cons_of_neg (by simpa using h)

/-- Inserting an entry at a place that divides the array keeps it sorted. -/
theorem sorted_insert {m : MemMapping} {l : List ZipEntry} {e : ZipEntry} {target : Nat}
    (hsorted : SortedByName m l) (hnamed : ∀ x ∈ l, x.Named m) (he : e.Named m)
    (hdiv : Divides (fun x => compareName (x.name m) (e.name m)) l target) :
    SortedByName m (l.take target ++ e :: l.drop target) := by
  have hsplit : l.take target ++ l.drop target = l := List.take_append_drop target l
  rw [SortedByName, ← hsplit, List.pairwise_append] at hsorted
  obtain ⟨hpre, hpost, hcross⟩ := hsorted
  refine List.pairwise_append.mpr ⟨hpre, List.pairwise_cons.mpr ⟨?_, hpost⟩, ?_⟩
  · intro x hx
    have hafter := hdiv.after x hx
    have hxn := (hnamed x (List.mem_of_mem_drop hx)).ne_zero
    rw [compareName_nonpos he.ne_zero]
    by_contra hlt
    have hneg := (compareName_key (x.name m) (e.name m) hxn).1.mpr (not_le.mp hlt)
    omega
  · intro x hx y hy
    rcases List.mem_cons.mp hy with rfl | hy
    · exact hdiv.before x hx
    · exact hcross x hx y hy

/-- An entry that is inserted where the array divides comes after an entry with
the same name, if there is one. -/
theorem firstNamed_insert {m : MemMapping} {l : List ZipEntry} {e : ZipEntry} {target : Nat}
    (hnamed : ∀ x ∈ l, x.Named m)
    (hdiv : Divides (fun x => compareName (x.name m) (e.name m)) l target) (n : Bytes) :
    firstNamed m n (l.take target ++ e :: l.drop target) = firstNamed m n (l ++ [e]) := by
  have hsplit : firstNamed m n l =
      (firstNamed m n (l.take target)).or (firstNamed m n (l.drop target)) := by
    rw [← firstNamed_append, List.take_append_drop]
  rw [firstNamed_append, firstNamed_append, hsplit]
  by_cases hn : e.name m = n
  · subst hn
    have hself : ∀ l', firstNamed m (e.name m) (e :: l') = some e :=
      fun l' => List.find?_cons_of_pos (by simp)
    rcases hdiv.equal with ⟨x, hx, hzero⟩ | hnone
    · have hxe := (compareName_key _ _ (hnamed x (List.mem_of_mem_take hx)).ne_zero).2.mp hzero
      obtain ⟨y, hy⟩ : ∃ y, firstNamed m (e.name m) (l.take target) = some y := by
        rw [← Option.isSome_iff_exists, firstNamed, List.find?_isSome]
        exact ⟨x, hx, by simpa using hxe⟩
      rw [hy]
      rfl
    · have hmiss : ∀ l' : List ZipEntry, (∀ x ∈ l', x ∈ l) → firstNamed m (e.name m) l' = none := by
        intro l' hsub
        rw [firstNamed, List.find?_eq_none]
        intro x hx hxe
        have hxl := hsub x hx
        exact hnone x hxl ((compareName_key _ _ (hnamed x hxl).ne_zero).2.mpr (by simpa using hxe))
      rw [hmiss _ fun x hx => List.mem_of_mem_take hx, hmiss _ fun x hx => List.mem_of_mem_drop hx,
        hself, hself]
      rfl
  · rw [firstNamed_cons_ne hn, firstNamed_cons_ne hn]
    simp [firstNamed]

/-- Inserting into a sorted array. -/
theorem insertEntry_spec {m : MemMapping} {l : List ZipEntry} {e : ZipEntry}
    (hsorted : SortedByName m l) (hnamed : ∀ x ∈ l, x.Named m) (he : e.Named m)
    (hlen : l.length < 2 ^ 32) :
    ∃ l', insertEntry m l e = .done l' ∧ l'.Perm (l ++ [e]) ∧ SortedByName m l' ∧
      ∀ n, firstNamed m n l' = firstNamed m n (l ++ [e]) := by
  unfold insertEntry
  by_cases hpos : 0 < l.length
  · have hsign : SignSorted (fun x => compareName (x.name m) (e.name m)) l :=
      hsorted.imp_of_mem fun hx hy hxy =>
        compareName_sign (e.name m) (hnamed _ hx).ne_zero (hnamed _ hy).ne_zero hxy
    obtain ⟨target, hsearch, hdiv⟩ := bsearch_spec hsign
    have htarget : toU32 ((target : Int) - 1 + 1) = target := by
      rw [sub_add_cancel]
      exact toU32_of_range (lt_of_le_of_lt hdiv.le hlen)
    refine ⟨l.take target ++ e :: l.drop target, ?_, ?_, sorted_insert hsorted hnamed he hdiv,
      firstNamed_insert hnamed hdiv⟩
    · rw [if_pos hpos, hsearch, Outcome.done_bind]
      simp only [htarget]
      rw [if_pos hdiv.le]
    · refine List.perm_middle.trans ?_
      rw [List.take_append_drop]
      exact (List.perm_append_singleton e l).symm
  · have hnil : l = [] := List.eq_nil_of_length_eq_zero (by omega)
    subst hnil
    exact ⟨[e], rfl, List.Perm.refl _, List.pairwise_singleton _ _, fun _ => rfl⟩

/-! ## The central directory and the array -/

/-- The records of the central directory, in their order in the file: the walk
without the array. -/
def directoryRecords (m : MemMapping) : Nat → Nat → Outcome (Option (List ZipEntry))
  | 0, _ => .done (some [])
  | n + 1, ptr => do
    let some (e, next) ← readEntry m ptr | .done none
    let some rest ← directoryRecords m n next | .done none
    .done (some (e :: rest))

/-- The array holds the records that were read, sorted, with the first record
of every name still first. -/
structure Indexes (m : MemMapping) (pEntries records : List ZipEntry) : Prop where
  perm : pEntries.Perm records
  sorted : SortedByName m pEntries
  named : ∀ x ∈ pEntries, x.Named m
  first : ∀ n, firstNamed m n pEntries = firstNamed m n records

theorem indexes_insert {m : MemMapping} {l records l' : List ZipEntry} {e : ZipEntry}
    (hidx : Indexes m l records) (he : e.Named m) (hperm : l'.Perm (l ++ [e]))
    (hsorted : SortedByName m l') (hfirst : ∀ n, firstNamed m n l' = firstNamed m n (l ++ [e])) :
    Indexes m l' (records ++ [e]) := by
  refine ⟨hperm.trans (hidx.perm.append_right _), hsorted, ?_, ?_⟩
  · intro x hx
    rcases List.mem_append.mp (hperm.mem_iff.mp hx) with hx | hx
    · exact hidx.named x hx
    · rw [List.mem_singleton.mp hx]
      exact he
  · intro n
    rw [hfirst, firstNamed_append, firstNamed_append, hidx.first]

theorem walkDirectory_spec {m : MemMapping} (n : Nat) : ∀ (ptr : Nat)
    (pEntries records pEntries' : List ZipEntry), Indexes m pEntries records →
    pEntries.length + n < 2 ^ 32 → walkDirectory m n ptr pEntries = .done (some pEntries') →
    ∃ rest, directoryRecords m n ptr = .done (some rest) ∧ rest.length = n ∧
      Indexes m pEntries' (records ++ rest) := by
  induction n with
  | zero =>
    intro ptr pEntries records pEntries' hidx _ h
    cases h
    exact ⟨[], rfl, rfl, by rwa [List.append_nil]⟩
  | succ n ih =>
    intro ptr pEntries records pEntries' hidx hlen h
    rw [walkDirectory, Outcome.bind_eq_done] at h
    obtain ⟨r, hread, h⟩ := h
    cases r with
    | none => cases h
    | some p =>
      obtain ⟨e, next⟩ := p
      have he := readEntry_named hread
      obtain ⟨l', hins, hperm, hsorted, hfirst⟩ :=
        insertEntry_spec hidx.sorted hidx.named he (by omega)
      simp only [hins, Outcome.done_bind] at h
      have hidx' := indexes_insert hidx he hperm hsorted hfirst
      obtain ⟨rest, hrest, hcount, hfinal⟩ := ih next l' (records ++ [e]) pEntries' hidx'
        (by rw [hperm.length_eq]; simp; omega) h
      refine ⟨e :: rest, ?_, by rw [List.length_cons, hcount], ?_⟩
      · rw [directoryRecords, hread]
        simp only [Outcome.done_bind, hrest]
      · rwa [List.append_assoc] at hfinal

/-! ## The hash table of the archive -/

section Table

variable {m : MemMapping} {pEntries : List ZipEntry}

/-- The hash value of a pointer into the array. -/
def entryHash (m : MemMapping) (pEntries : List ZipEntry) (i : Nat) : UInt32 :=
  computeHash ((entryAt pEntries i).name m)

theorem hashcmpZipEntry_eq_zero {e₁ e₂ : ZipEntry} (h₁ : e₁.Named m) (h₂ : e₂.Named m) :
    hashcmpZipEntry m e₁ e₂ = 0 ↔ e₁.name m = e₂.name m := by
  unfold hashcmpZipEntry
  by_cases hlen : e₁.fileNameLen = e₂.fileNameLen
  · rw [if_neg (not_not.mpr hlen), memcmp_eq_zero]
    rw [h₁.length_eq, h₂.length_eq, hlen]
  · rw [if_pos hlen]
    constructor
    · intro hzero
      exact absurd (by omega) hlen
    · intro hname
      have := congrArg List.length hname
      rw [h₁.length_eq, h₂.length_eq] at this
      exact absurd this hlen

theorem hashcmpZipName_eq_zero {e : ZipEntry} (h : e.Named m) (name : Bytes) :
    hashcmpZipName m e name = 0 ↔ e.name m = cString name := by
  unfold hashcmpZipName
  simp only
  by_cases hlen : e.fileNameLen = (cString name).length
  · rw [if_neg (not_not.mpr hlen), memcmp_eq_zero]
    rw [h.length_eq, hlen]
  · rw [if_pos hlen]
    constructor
    · intro hzero
      exact absurd (by omega) hlen
    · intro hname
      have := congrArg List.length hname
      rw [h.length_eq] at this
      exact absurd this hlen

theorem entryAt_mem {i : Nat} (h : i < pEntries.length) : entryAt pEntries i ∈ pEntries := by
  rw [entryAt, List.getD_eq_getElem?_getD, List.getElem?_eq_getElem h]
  exact List.getElem_mem h

/-- The table after the first `i` entries: it points, for every name among
them, to the first entry with it. -/
structure TableOf (m : MemMapping) (pEntries : List ZipEntry) (i : Nat) (t : HashTable Nat) :
    Prop where
  inv : t.Inv (entryHash m pEntries)
  small : t.tableSize ≤ 2 ^ 18
  live : t.numEntries ≤ i
  dead : t.numDeadEntries = 0
  below : ∀ d ∈ t.items, d < i
  first : ∀ d ∈ t.items, ∀ j, j < d →
    (entryAt pEntries j).name m ≠ (entryAt pEntries d).name m
  covers : ∀ j, j < i → ∃ d ∈ t.items, (entryAt pEntries d).name m = (entryAt pEntries j).name m

theorem addEntryToHashTable_spec (hnamed : ∀ x ∈ pEntries, x.Named m)
    (hcount : pEntries.length < 2 ^ 16) {i : Nat} (hi : i < pEntries.length) {t : HashTable Nat}
    (h : TableOf m pEntries i t) :
    ∃ t', addEntryToHashTable m pEntries t i = .done t' ∧ TableOf m pEntries (i + 1) t' := by
  have hcmp : ∀ d ∈ t.items,
      (hashcmpZipEntry m (entryAt pEntries d) (entryAt pEntries i) = 0 ↔
        (entryAt pEntries d).name m = (entryAt pEntries i).name m) := fun d hd =>
    hashcmpZipEntry_eq_zero (hnamed _ (entryAt_mem (lt_trans (h.below d hd) hi)))
      (hnamed _ (entryAt_mem hi))
  have hfits : t.Fits := by
    have := h.small
    simp only [HashTable.Fits, LOAD_DENOM]
    omega
  rcases lookup_spec h.inv (entryHash m pEntries i)
    (fun d => hashcmpZipEntry m (entryAt pEntries d) (entryAt pEntries i))
    (fun d hd hzero => by rw [entryHash, (hcmp d hd).mp hzero, entryHash]) (some i)
    (by rintro x ⟨⟩; exact ⟨rfl, hfits⟩) with ⟨d, hd, hzero, hrun⟩ | ⟨hnone, -, hadd⟩
  · refine ⟨t, ?_, h.inv, h.small, by have := h.live; omega, h.dead,
      fun d hd => by have := h.below d hd; omega, h.first, ?_⟩
    · unfold addEntryToHashTable
      rw [entryHash] at hrun
      simp only [hrun, Outcome.done_bind]
    · intro j hj
      rcases Nat.lt_succ_iff_lt_or_eq.mp hj with hj | rfl
      · exact h.covers j hj
      · exact ⟨d, hd, (hcmp d hd).mp hzero⟩
  · obtain ⟨t', hrun, hinv, hitems, hdead, hgrow⟩ := hadd i rfl
    have hlen := hitems.length_eq
    rw [List.length_cons, ← h.inv.live, ← hinv.live] at hlen
    have hlive := h.live
    have hdead₀ := h.dead
    have hsmall := h.small
    have hmem : ∀ d, d ∈ t'.items ↔ d = i ∨ d ∈ t.items := fun d => by
      rw [hitems.mem_iff, List.mem_cons]
    refine ⟨t', ?_, hinv, ?_, by omega, by omega, ?_, ?_, ?_⟩
    · unfold addEntryToHashTable
      rw [entryHash] at hrun
      simp only [hrun, Outcome.done_bind]
    · simp only [LOAD_NUMER, LOAD_DENOM] at hgrow
      omega
    · intro d hd
      rcases (hmem d).mp hd with rfl | hd
      · omega
      · have := h.below d hd
        omega
    · intro d hd j hj
      rcases (hmem d).mp hd with rfl | hd
      · -- An earlier entry with this name would have been found.
        intro hname
        obtain ⟨d', hd', hname'⟩ := h.covers j hj
        exact hnone d' hd' ((hcmp d' hd').mpr (hname'.trans hname))
      · exact h.first d hd j hj
    · intro j hj
      rcases Nat.lt_succ_iff_lt_or_eq.mp hj with hj | rfl
      · obtain ⟨d, hd, hname⟩ := h.covers j hj
        exact ⟨d, (hmem d).mpr (.inr hd), hname⟩
      · exact ⟨j, (hmem j).mpr (.inl rfl), rfl⟩

theorem addEntries_spec (hnamed : ∀ x ∈ pEntries, x.Named m)
    (hcount : pEntries.length < 2 ^ 16) (n : Nat) : ∀ (i : Nat) (t : HashTable Nat),
    i + n = pEntries.length → TableOf m pEntries i t →
    ∃ t', addEntries m pEntries n i t = .done t' ∧ TableOf m pEntries pEntries.length t' := by
  induction n with
  | zero =>
    intro i t hi h
    rw [Nat.add_zero] at hi
    subst hi
    exact ⟨t, rfl, h⟩
  | succ n ih =>
    intro i t hi h
    obtain ⟨t₁, hrun, h₁⟩ := addEntryToHashTable_spec hnamed hcount (by omega) h
    obtain ⟨t', hrest, h'⟩ := ih (i + 1) t₁ (by omega) h₁
    exact ⟨t', by rw [addEntries, hrun, Outcome.done_bind, hrest], h'⟩

/-- A lookup by name finds the first entry of the array with this name. -/
theorem mzFindZipEntry_spec {a : ZipArchive} (hnamed : ∀ x ∈ a.pEntries, x.Named a.map)
    (h : TableOf a.map a.pEntries a.pEntries.length a.pHash) (entryName : Bytes) :
    ∃ r, mzFindZipEntry a entryName = .done r ∧
      (r.bind fun i => a.pEntries[i]?) = firstNamed a.map (cString entryName) a.pEntries ∧
      (r = none ↔ ∀ e ∈ a.pEntries, e.name a.map ≠ cString entryName) := by
  have hat : ∀ {d}, d < a.pEntries.length → a.pEntries[d]? = some (entryAt a.pEntries d) := by
    intro d hd
    rw [entryAt, List.getD_eq_getElem?_getD, List.getElem?_eq_getElem hd]
    rfl
  have hcmp : ∀ d ∈ a.pHash.items, (hashcmpZipName a.map (entryAt a.pEntries d) entryName = 0 ↔
      (entryAt a.pEntries d).name a.map = cString entryName) := fun d hd =>
    hashcmpZipName_eq_zero (hnamed _ (entryAt_mem (h.below d hd))) entryName
  rcases lookup_spec h.inv (computeHash (cString entryName))
    (fun d => hashcmpZipName a.map (entryAt a.pEntries d) entryName)
    (fun d hd hzero => by rw [entryHash, (hcmp d hd).mp hzero]) none
    (by rintro x ⟨⟩) with ⟨d, hd, hzero, hrun⟩ | ⟨hnone, hmiss, -⟩
  · have hname := (hcmp d hd).mp hzero
    have hlt := h.below d hd
    refine ⟨some d, ?_, ?_, ?_⟩
    · unfold mzFindZipEntry
      simp only [hrun, Outcome.done_bind]
    · rw [Option.bind_some, hat hlt, firstNamed, eq_comm, List.find?_eq_some_iff_getElem]
      refine ⟨by simpa using hname, d, hlt, ?_, ?_⟩
      · exact Option.some.inj ((List.getElem?_eq_getElem hlt).symm.trans (hat hlt))
      · intro j hj
        have hne := h.first d hd j hj
        have hget := Option.some.inj ((List.getElem?_eq_getElem (lt_trans hj hlt)).symm.trans
          (hat (lt_trans hj hlt)))
        rw [hget]
        rw [hname] at hne
        simpa using hne
    · constructor
      · intro hno
        cases hno
      · intro hno
        exact absurd hname (hno _ (entryAt_mem hlt))
  · have hno : ∀ e ∈ a.pEntries, e.name a.map ≠ cString entryName := by
      intro e he hname
      obtain ⟨j, hj⟩ := List.mem_iff_getElem?.mp he
      have hlt := (List.getElem?_eq_some_iff.mp hj).1
      have hej : e = entryAt a.pEntries j := Option.some.inj (hj.symm.trans (hat hlt))
      obtain ⟨d, hd, hdj⟩ := h.covers j hlt
      exact hnone d hd ((hcmp d hd).mpr (by rw [hdj, ← hej, hname]))
    refine ⟨none, ?_, ?_, ?_⟩
    · unfold mzFindZipEntry
      simp only [hmiss rfl, Outcome.done_bind]
    · rw [Option.bind_none, eq_comm, firstNamed, List.find?_eq_none]
      intro e he
      simpa using hno e he
    · exact ⟨fun _ => hno, fun _ => rfl⟩

end Table

/-! ## The index -/

/-- The central directory of an archive, as the end-of-central-directory record
describes it. -/
def centralDirectory (m : MemMapping) : Outcome (Option (List ZipEntry)) := do
  let some ptr ← findEocd m | .done none
  let (numEntries, cdOffset) ← eocdFields m ptr
  directoryRecords m numEntries (toU32 (m.addr + cdOffset))

theorem get2LE_lt {m : MemMapping} {ptr v : Nat} (h : get2LE m ptr = .done v) : v < 2 ^ 16 := by
  obtain ⟨b, hread, h⟩ := Outcome.bind_eq_done.mp h
  cases h
  obtain ⟨-, -, rfl⟩ := MemMapping.read_done hread
  have hlt := leNat_lt (slice m.bytes (ptr - m.addr) 2)
  have hlen := slice_length_le m.bytes (ptr - m.addr) 2
  calc leNat (slice m.bytes (ptr - m.addr) 2) < 256 ^ (slice m.bytes (ptr - m.addr) 2).length := hlt
    _ ≤ 256 ^ 2 := Nat.pow_le_pow_right (by decide) hlen
    _ = 2 ^ 16 := by decide

/-- The table that is created for `n` entries has room for them. -/
theorem create_tableOf (m : MemMapping) (pEntries : List ZipEntry) {n : Nat} (hn : n < 2 ^ 16) :
    ∃ t, mzHashTableCreate (UInt32.ofNat (mzHashSize n)) = .done t ∧ TableOf m pEntries 0 t := by
  have hsize : mzHashSize n < 2 ^ 17 := by
    simp only [mzHashSize, LOAD_DENOM, LOAD_NUMER]
    omega
  have hval : (UInt32.ofNat (mzHashSize n)).toNat = mzHashSize n :=
    UInt32.toNat_ofNat_of_lt' (lt_trans hsize (by decide))
  have hpos : 0 < UInt32.ofNat (mzHashSize n) := by
    rw [UInt32.lt_iff_toNat_lt, hval]
    simp [mzHashSize]
  have hle : (UInt32.ofNat (mzHashSize n)).toNat ≤ 2 ^ 31 := by
    rw [hval]
    omega
  obtain ⟨t, hcreate, hinv, hitems, hts⟩ := create_inv (entryHash m pEntries) hpos hle
  obtain ⟨k, hk, -, hup⟩ := roundUpPower2_spec hpos hle
  have hlive : t.numEntries = 0 := by rw [hinv.live, hitems]; rfl
  have hdead : t.numDeadEntries = 0 := by
    unfold mzHashTableCreate at hcreate
    rw [if_pos hpos] at hcreate
    cases hcreate
    rfl
  refine ⟨t, hcreate, hinv, ?_, hlive.le, hdead, ?_, ?_, ?_⟩
  · rw [hts, hk]
    rw [hval] at hup
    omega
  · rw [hitems]
    intro d hd
    cases hd
  · rw [hitems]
    intro d hd
    cases hd
  · intro j hj
    omega

/-- An accepted archive: the array indexes the central directory, and the table the array. -/
structure Accepted (a : ZipArchive) (records : List ZipEntry) : Prop where
  directory : centralDirectory a.map = .done (some records)
  indexes : Indexes a.map a.pEntries records
  count : a.numEntries = a.pEntries.length
  small : a.numEntries < 2 ^ 16
  table : TableOf a.map a.pEntries a.pEntries.length a.pHash

theorem parseZipArchive_spec {m : MemMapping} {a : ZipArchive}
    (h : parseZipArchive m = .done (some a)) : a.map = m ∧ ∃ records, Accepted a records := by
  unfold parseZipArchive at h
  obtain ⟨val, -, h⟩ := Outcome.bind_eq_done.mp h
  split at h
  · cases h
  split at h
  · cases h
  obtain ⟨eocd, hfind, h⟩ := Outcome.bind_eq_done.mp h
  cases eocd with
  | none => cases h
  | some ptr =>
    obtain ⟨⟨numEntries, cdOffset⟩, hfields, h⟩ := Outcome.bind_eq_done.mp h
    simp only at h
    split at h
    · cases h
    have hn : numEntries < 2 ^ 16 := by
      unfold eocdFields at hfields
      obtain ⟨n, hget, hfields⟩ := Outcome.bind_eq_done.mp hfields
      obtain ⟨off, -, hfields⟩ := Outcome.bind_eq_done.mp hfields
      cases hfields
      exact get2LE_lt hget
    obtain ⟨pHash, hcreate, h⟩ := Outcome.bind_eq_done.mp h
    obtain ⟨walked, hwalk, h⟩ := Outcome.bind_eq_done.mp h
    cases walked with
    | none => cases h
    | some pEntries =>
      obtain ⟨pHash', hadd, h⟩ := Outcome.bind_eq_done.mp h
      cases h
      have hempty : Indexes m [] [] :=
        ⟨List.Perm.refl _, List.Pairwise.nil, by simp, fun _ => rfl⟩
      obtain ⟨records, hrec, hcount, hidx⟩ :=
        walkDirectory_spec numEntries _ [] [] pEntries hempty (by simp; omega) hwalk
      rw [List.nil_append] at hidx
      have hlen : pEntries.length = numEntries := by rw [hidx.perm.length_eq, hcount]
      obtain ⟨t₀, hcreate', htab⟩ := create_tableOf m pEntries hn
      rw [hcreate] at hcreate'
      cases hcreate'
      obtain ⟨t', hadd', htab'⟩ :=
        addEntries_spec hidx.named (by omega) numEntries 0 pHash (by omega) htab
      rw [hadd] at hadd'
      cases hadd'
      refine ⟨rfl, records, ?_, hidx, hlen.symm, hn, htab'⟩
      unfold centralDirectory
      simp only [hfind, Outcome.done_bind, hfields, hrec]

theorem directoryRecords_mem {m : MemMapping} (n : Nat) : ∀ (ptr : Nat) (records : List ZipEntry),
    directoryRecords m n ptr = .done (some records) →
    ∀ e ∈ records, ∃ ptr' next, readEntry m ptr' = .done (some (e, next)) := by
  induction n with
  | zero =>
    intro ptr records h e he
    cases h
    cases he
  | succ n ih =>
    intro ptr records h e he
    rw [directoryRecords, Outcome.bind_eq_done] at h
    obtain ⟨r, hread, h⟩ := h
    cases r with
    | none => cases h
    | some p =>
      obtain ⟨e', next⟩ := p
      obtain ⟨rest, hrest, h⟩ := Outcome.bind_eq_done.mp h
      cases rest with
      | none => cases h
      | some rest =>
        cases h
        rcases List.mem_cons.mp he with rfl | he
        · exact ⟨ptr, next, hread⟩
        · exact ih next rest hrest e he

/-- Every entry of an accepted archive was read from a record. -/
theorem Accepted.read {a : ZipArchive} {records : List ZipEntry} (h : Accepted a records)
    {e : ZipEntry} (he : e ∈ a.pEntries) :
    ∃ ptr next, readEntry a.map ptr = .done (some (e, next)) := by
  have hdir := h.directory
  unfold centralDirectory at hdir
  obtain ⟨eocd, -, hdir⟩ := Outcome.bind_eq_done.mp hdir
  cases eocd with
  | none => cases hdir
  | some ptr =>
    obtain ⟨⟨numEntries, cdOffset⟩, -, hdir⟩ := Outcome.bind_eq_done.mp hdir
    exact directoryRecords_mem _ _ _ hdir e (h.indexes.perm.mem_iff.mp he)

/-- The index of every archive that is accepted. The array is a permutation of
the central directory, sorted by name. A lookup by any name terminates; it
returns the first record of the directory with exactly this name, and `NULL`
only when no record has it. -/
theorem zipIndex_correct {m : MemMapping} {a : ZipArchive}
    (h : parseZipArchive m = .done (some a)) :
    ∃ records, centralDirectory m = .done (some records) ∧
      a.pEntries.Perm records ∧ SortedByName m a.pEntries ∧
      ∀ entryName, ∃ r, mzFindZipEntry a entryName = .done r ∧
        (r.bind fun i => a.pEntries[i]?) = records.find? (fun e => e.name m = cString entryName) ∧
        (r = none ↔ ∀ e ∈ records, e.name m ≠ cString entryName) := by
  obtain ⟨rfl, records, hacc⟩ := parseZipArchive_spec h
  have hidx := hacc.indexes
  refine ⟨records, hacc.directory, hidx.perm, hidx.sorted, ?_⟩
  intro entryName
  obtain ⟨r, hrun, hval, hnull⟩ := mzFindZipEntry_spec hidx.named hacc.table entryName
  refine ⟨r, hrun, ?_, ?_⟩
  · rw [hval, hidx.first]
    rfl
  · rw [hnull]
    constructor
    · intro hall e he
      exact hall e (hidx.perm.mem_iff.mpr he)
    · intro hall e he
      exact hall e (hidx.perm.mem_iff.mp he)

/-- An archive with the records `b`, `a`, `b`, that share one local header. -/
def sampleBytes : Bytes :=
  let loc := leBytes 4 LOCSIG ++ leBytes 22 0 ++ leBytes 2 1 ++ leBytes 2 0 ++ [0x62]
  let cen (c : UInt8) := leBytes 4 CENSIG ++ leBytes 24 0 ++ leBytes 2 1 ++ leBytes 16 0 ++ [c]
  loc ++ cen 0x62 ++ cen 0x61 ++ cen 0x62 ++
    leBytes 4 ENDSIG ++ leBytes 4 0 ++ leBytes 2 3 ++ leBytes 2 3 ++ leBytes 4 141 ++
    leBytes 4 31 ++ leBytes 2 0

theorem sampleAddr_pos : 0 < 0x40000000 := by decide

def sampleMapping : MemMapping := ⟨0x40000000, sampleBytes, sampleAddr_pos, by decide +kernel⟩

theorem zipIndex_correct_sample :
    ∃ a, parseZipArchive sampleMapping = .done (some a) ∧
      ∃ records, centralDirectory sampleMapping = .done (some records) ∧
      a.pEntries.Perm records ∧ SortedByName sampleMapping a.pEntries ∧
      ∀ entryName, ∃ r, mzFindZipEntry a entryName = .done r ∧
        (r.bind fun i => a.pEntries[i]?) =
          records.find? (fun e => e.name sampleMapping = cString entryName) ∧
        (r = none ↔ ∀ e ∈ records, e.name sampleMapping ≠ cString entryName) := by
  have hsome : (parseZipArchive sampleMapping).value?.join.isSome = true := by decide +kernel
  obtain ⟨a, ha⟩ := Option.isSome_iff_exists.mp hsome
  have hrun := Outcome.value?_eq_some.mp (Option.join_eq_some_iff.mp ha)
  exact ⟨a, hrun, zipIndex_correct hrun⟩

/-! ## Archives with one stored entry -/

/-- An archive with the entry `a`, that has the given contents and announces `uncompLen` bytes. -/
def storedArchive (data : Bytes) (uncompLen : Nat) : Bytes :=
  leBytes 4 LOCSIG ++ leBytes 22 0 ++ leBytes 2 1 ++ leBytes 2 0 ++ [0x61] ++ data ++
    leBytes 4 CENSIG ++ leBytes 16 0 ++ leBytes 4 data.length ++ leBytes 4 uncompLen ++
    leBytes 2 1 ++ leBytes 16 0 ++ [0x61] ++
    leBytes 4 ENDSIG ++ leBytes 4 0 ++ leBytes 2 1 ++ leBytes 2 1 ++ leBytes 4 47 ++
    leBytes 4 (31 + data.length) ++ leBytes 2 0

theorem entries_of_value {m : MemMapping} {l : List ZipEntry}
    (h : (parseZipArchive m).value?.join.map (·.pEntries) = some l) :
    ∃ a, parseZipArchive m = .done (some a) ∧ a.pEntries = l := by
  obtain ⟨a, ha, hl⟩ := Option.map_eq_some_iff.mp h
  exact ⟨a, Outcome.value?_eq_some.mp (Option.join_eq_some_iff.mp ha), hl⟩

end BootableRecovery.Minzip
