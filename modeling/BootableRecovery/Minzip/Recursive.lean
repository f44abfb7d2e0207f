import BootableRecovery.Lib.Blocks
import BootableRecovery.Minzip.Contents

/-!
# `minzip/Zip.c`: `mzExtractRecursive`

The loop over the entries of an archive extracts those under `zipDir`. It leaves
the sorted array at the first entry that does not match behind one that does, and
assembles all paths in one buffer.

What the operating system does is a parameter (`Os`): which calls fail, and what
is in fresh memory. The run ends with the result flag and the entries it came to
(`Visit`).

* `extractLoop_eq`: the loop is a full scan that builds every path anew
  (`fullScan`), and the buffer is not overrun.
* `extract_recursive_selects`: so is `mzExtractRecursive`.
* `extract_recursive_complete_iff`: when a result of true means that everything
  was extracted.
-/

namespace BootableRecovery.Minzip

def SLASH : UInt8 := 0x2f

def MZ_EXTRACT_FILES_ONLY : Nat := 1
def MZ_EXTRACT_DRY_RUN : Nat := 2

/-! ## The operating system -/

/-- What the calls for the entry that is visited as the `k`-th one do. A call that returns a flag
succeeds when it is true; `malloc` returns the contents of the fresh memory. -/
structure Os where
  realloc : Nat → Bool
  dirCreateHierarchy : Nat → Bool
  malloc : Nat → Option (Nat → UInt8)
  symlink : Nat → Bool
  creat : Nat → Bool
  read : Nat → Nat → Bool
  write : Nat → List WriteResult
  utime : Nat → Bool

/-! ## Paths -/

/-- `MzPathHelper`. `zipDir` is not read. -/
structure MzPathHelper where
  targetDir : Bytes
  buf : Option Bytes
  targetDirLen : Nat
  zipDirLen : Nat
  bufLen : Int

/-- `memcpy` into a buffer. -/
def copyInto (buf : Bytes) (pos : Nat) (data : Bytes) : Outcome Bytes :=
  if pos + data.length ≤ buf.length then .done (overwrite buf pos data) else .fault

/-- `realloc`: the old contents, and memory behind them. -/
def resize (buf : Option Bytes) (size : Nat) : Bytes :=
  (buf.getD []).take size ++ List.replicate (size - (buf.getD []).length) 0

/-- The buffer is made larger when it is too small. -/
def growBuffer (alloc : Bool) (helper : MzPathHelper) (needLen : Int) : Option MzPathHelper :=
  if needLen > helper.bufLen then
    if alloc then
      some { helper with
        buf := some (resize helper.buf (toU32 (wrap32 (needLen * 2))))
        bufLen := wrap32 (needLen * 2) }
    else none
  else some helper

/-- Every path will start with the target path and a slash. -/
def startPath (helper : MzPathHelper) (buf : Bytes) : Outcome (Bytes × Nat) := do
  let buf ← copyInto buf 0 helper.targetDir
  if helper.targetDirLen = 0 ∨ buf[helper.targetDirLen - 1]? ≠ some SLASH then do
    let buf ← copyInto buf helper.targetDirLen [SLASH]
    .done (buf, helper.targetDirLen + 1)
  else .done (buf, helper.targetDirLen)

/-- Replace the custom part of the path. -/
def entryPath (m : MemMapping) (helper : MzPathHelper) (e : ZipEntry) (buf : Bytes) :
    Outcome (Bytes × MzPathHelper) := do
  let rest := (e.name m).drop helper.zipDirLen
  let buf ← copyInto buf helper.targetDirLen rest
  let buf ← copyInto buf (helper.targetDirLen + rest.length) [0]
  .done (cString buf, { helper with buf := some buf })

/-- The target path of an entry, and the helper; `none` when there is no memory. -/
def targetEntryPath (m : MemMapping) (alloc : Bool) (helper : MzPathHelper) (e : ZipEntry) :
    Outcome (Option (Bytes × MzPathHelper)) :=
  let needLen := wrap32 (helper.targetDirLen + 1 + e.fileNameLen - helper.zipDirLen + 1)
  match growBuffer alloc helper needLen with
  | none => .done none
  | some grown =>
    match grown.buf, helper.buf with
    | none, _ => .fault
    | some buf, none => do
      let (buf, targetDirLen) ← startPath grown buf
      let r ← entryPath m { grown with targetDirLen } e buf
      .done (some r)
    | some buf, some _ => do
      let r ← entryPath m grown e buf
      .done (some r)

/-! ## One entry -/

/-- What the extraction of an entry leaves behind. -/
inductive Made where
  | skipped
  | directory
  | link (target : Bytes)
  | file (written : Bytes)
  deriving DecidableEq, Repr

/-- The end of a round of the loop. `leave ok` is a `break` with the flag `ok`. -/
inductive RoundEnd where
  | goOn
  | leave (ok : Bool)
  deriving DecidableEq, Repr

/-- An entry that the loop came to, with its path. -/
structure Visit where
  entry : ZipEntry
  targetFile : Bytes
  made : Option Made
  roundEnd : RoundEnd
  deriving DecidableEq, Repr

section Entry

variable (z : Inflate) (fuel : Nat) (os : Os) (oldOff flags : Nat) (timestamp : Bool)
  (m : MemMapping)

/-- The file of the archive, with the reads for entry `k`. -/
def archiveFd (k : Nat) : Fd := ⟨m.bytes, oldOff, os.read k⟩

/-- `mzIsZipEntrySymlink` -/
def mzIsZipEntrySymlink (e : ZipEntry) : Bool :=
  e.versionMadeBy &&& 0xff00 = CENVEM_UNIX ∧
    (toU32 e.externalFileAttributes >>> 16) &&& 0o170000 = 0o120000

/-- The memory of the link target behind `linkTarget[uncompLen] = 0`, as a C string. The memory
behind the bytes that were read is as it was. -/
def linkTarget (memory : Nat → UInt8) (e : ZipEntry) (copied : Bytes) : Outcome Bytes :=
  if e.uncompLen < 0 then .fault
  else
    .done (cString (copied ++ ((List.range e.uncompLen.toNat).map memory).drop copied.length))

/-- Make a symbolic link. -/
def extractLink (k : Nat) (e : ZipEntry) : Outcome (RoundEnd × Option Made) :=
  if e.uncompLen = 0 then .done (.leave false, none)
  else
    match os.malloc k with
    | none => .done (.leave false, none)
    | some memory => do
      let r ← mzReadZipEntry z (archiveFd os oldOff m k) fuel e e.uncompLen
      if !r.1 then .done (.leave false, none)
      else do
        let target ← linkTarget memory e r.2
        if !os.symlink k then .done (.leave false, none)
        else .done (.goOn, some (.link target))

/-- Write a regular file. The flag that is set to false when the contents cannot be extracted or
the time cannot be set is the one that is declared here: outside of it nothing has changed. -/
def extractFile (k : Nat) (e : ZipEntry) : Outcome (RoundEnd × Option Made) :=
  if !os.creat k then .done (.leave false, none)
  else do
    let r ← mzExtractZipEntryToFile z (archiveFd os oldOff m k) fuel e (os.write k)
    if !r.1 then .done (.leave true, some (.file r.2))
    else if timestamp ∧ !os.utime k then .done (.leave true, some (.file r.2))
    else .done (.goOn, some (.file r.2))

/-- The name ends with a slash. The character before an empty name is in the record header. -/
def isDirectory (e : ZipEntry) : Outcome Bool := do
  let c ← m.read (toU32 ((e.fileName : Int) + e.fileNameLen - 1)) 1
  .done (c = [SLASH])

/-- The entry is extracted as a symbolic link. -/
def asLink (e : ZipEntry) : Bool := flags &&& MZ_EXTRACT_FILES_ONLY = 0 ∧ mzIsZipEntrySymlink e

/-- The loop body behind the path: create the file or directory. -/
def extractEntry (k : Nat) (e : ZipEntry) : Outcome (RoundEnd × Option Made) :=
  if flags &&& MZ_EXTRACT_DRY_RUN ≠ 0 then .done (.goOn, none)
  else do
    let directory ← isDirectory m e
    if directory then
      if flags &&& MZ_EXTRACT_FILES_ONLY ≠ 0 then .done (.goOn, some .skipped)
      else if !os.dirCreateHierarchy k then .done (.leave false, none)
      else .done (.goOn, some .directory)
    else if !os.dirCreateHierarchy k then .done (.leave false, none)
    else if asLink flags e then extractLink z fuel os oldOff m k e
    else extractFile z fuel os oldOff timestamp m k e

end Entry

/-! ## The loop -/

/-- The body of the loop behind the path, with the number of the visit. -/
abbrev Body := Nat → ZipEntry → Outcome (RoundEnd × Option Made)

section Loop

variable (m : MemMapping) (os : Os) (zpath : Bytes) (body : Body)

/-- The entry does not begin with `zpath`. -/
def mismatch (e : ZipEntry) : Bool :=
  e.fileNameLen < zpath.length ∨ strncmp (e.name m) zpath zpath.length ≠ 0

/-- Put a visit in front of the rest of the run. -/
def Visit.before (v : Visit) (run : Outcome (Bool × List Visit)) : Outcome (Bool × List Visit) := do
  let r ← run
  .done (r.1, v :: r.2)

/-- The loop of `mzExtractRecursive`: the result flag and the entries it came to. -/
def extractLoop : List ZipEntry → Nat → MzPathHelper → Bool → Outcome (Bool × List Visit)
  | [], _, _, _ => .done (true, [])
  | e :: rest, k, helper, seenMatch =>
    if mismatch m zpath e then
      if seenMatch then .done (true, []) else extractLoop rest k helper seenMatch
    else do
      let path ← targetEntryPath m (os.realloc k) helper e
      match path with
      | none => .done (false, [])
      | some (targetFile, helper') => do
        let r ← body k e
        match r.1 with
        | .leave ok => .done (ok, [⟨e, targetFile, r.2, .leave ok⟩])
        | .goOn => Visit.before ⟨e, targetFile, r.2, .goOn⟩ (extractLoop rest (k + 1) helper' true)

end Loop

/-- The canonical form of `zipDir`: there is a slash at the end, unless it is empty. -/
def canonicalDir (zipDir : Bytes) : Bytes :=
  if zipDir = [] ∨ zipDir.getLast? = some SLASH then zipDir else zipDir ++ [SLASH]

/-- `mzExtractRecursive`. `zpathAlloc` is whether there is memory for `zpath`. -/
def mzExtractRecursive (z : Inflate) (fuel : Nat) (os : Os) (oldOff : Nat) (a : ZipArchive)
    (zipDir targetDir : Bytes) (flags : Nat) (timestamp zpathAlloc : Bool) :
    Outcome (Bool × List Visit) :=
  if zipDir.head? = some SLASH then .done (false, [])
  else if targetDir.head? ≠ some SLASH then .done (false, [])
  else if !zpathAlloc then .done (false, [])
  else
    let zpath := canonicalDir zipDir
    extractLoop a.map os zpath (extractEntry z fuel os oldOff flags timestamp a.map) a.pEntries 0
      ⟨targetDir, none, targetDir.length, zpath.length, 0⟩ false

/-! ## Matching -/

/-- Between two strings with a prefix, all strings have it. -/
theorem prefix_of_between {α : Type} [LinearOrder α] (p : List α) : ∀ {a b c : List α},
    p <+: a → p <+: c → a ≤ b → b ≤ c → p <+: b := by
  induction p with
  | nil => exact fun _ _ _ _ => List.nil_prefix
  | cons x p ih =>
    rintro a b c ⟨a', rfl⟩ ⟨c', rfl⟩ hab hbc
    rw [← not_lt] at hab hbc
    cases b with
    | nil => exact absurd (List.nil_lt_cons _ _) hab
    | cons y b =>
      rw [List.cons_append, List.cons_lt_cons_iff, not_or, not_and] at hab hbc
      obtain rfl := le_antisymm (not_lt.mp hab.1) (not_lt.mp hbc.1)
      exact List.cons_prefix_cons.mpr ⟨rfl, ih (List.prefix_append _ _) (List.prefix_append _ _)
        (not_lt.mp (hab.2 rfl)) (not_lt.mp (hbc.2 rfl))⟩

theorem strncmp_prefix (p : Bytes) : ∀ a : Bytes, 0 ∉ p → p.length ≤ a.length →
    (strncmp a p p.length = 0 ↔ p <+: a) := by
  induction p with
  | nil => simp [strncmp]
  | cons x p ih =>
    intro a hp hlen
    cases a with
    | nil => simp at hlen
    | cons y a =>
      rw [List.length_cons, strncmp]
      split
      · rename_i hne
        have hval : y.toNat ≠ x.toNat := fun h => hne (UInt8.toNat_inj.mp h)
        constructor
        · intro hzero
          omega
        · intro hpre
          exact absurd (List.cons_prefix_cons.mp hpre).1.symm hne
      · rename_i heq
        obtain rfl := not_not.mp heq
        have hy : y ≠ 0 := fun h => hp (h ▸ List.mem_cons_self)
        rw [if_neg hy, ih a (fun h => hp (List.mem_cons_of_mem _ h)) (by simpa using hlen),
          List.cons_prefix_cons]
        simp

section Matching

variable {m : MemMapping} {zpath : Bytes} {e : ZipEntry}

theorem mismatch_iff (hz : 0 ∉ zpath) (he : e.Named m) :
    mismatch m zpath e = true ↔ ¬ zpath <+: e.name m := by
  rw [mismatch, decide_eq_true_iff]
  rcases Nat.lt_or_ge e.fileNameLen zpath.length with hlt | hge
  · refine ⟨fun _ hpre => ?_, fun _ => .inl hlt⟩
    have hle := hpre.length_le
    rw [he.length_eq] at hle
    omega
  · rw [Ne, strncmp_prefix zpath _ hz (by rw [he.length_eq]; exact hge)]
    exact ⟨fun h => h.resolve_left (Nat.not_lt_of_le hge), .inr⟩

/-- Behind the last match in a sorted array nothing matches. -/
theorem no_later_match {x y : ZipEntry} {rest : List ZipEntry} (hx : x.Named m) (hy : y.Named m)
    (hsorted : SortedByName m (x :: y :: rest)) (hmatch : zpath <+: x.name m)
    (hmiss : ¬ zpath <+: y.name m) : ∀ w ∈ rest, ¬ zpath <+: w.name m := by
  obtain ⟨hxall, hyall⟩ := List.pairwise_cons.mp hsorted
  have hxy := (compareName_nonpos hx.ne_zero).mp (hxall y List.mem_cons_self)
  intro w hw hpre
  have hyw := (compareName_nonpos hy.ne_zero).mp ((List.pairwise_cons.mp hyall).1 w hw)
  refine hmiss ?_
  have hkeys := prefix_of_between (nameKey zpath) (hmatch.map _) (hpre.map _) hxy hyw
  exact (List.prefix_map_iff_of_injective fun _ _ h => UInt8.toNat_inj.mp h).mp hkeys

end Matching

/-! ## The path buffer -/

/-- The helper between two entries: it is as before the first one, or the buffer begins with the
target path and a slash. -/
inductive HelperState (targetDir : Bytes) (zipDirLen : Nat) : MzPathHelper → Prop
  | fresh : HelperState targetDir zipDirLen ⟨targetDir, none, targetDir.length, zipDirLen, 0⟩
  | ready {buf : Bytes} : canonicalDir targetDir <+: buf → buf.length < 2 ^ 31 →
      HelperState targetDir zipDirLen
        ⟨targetDir, some buf, (canonicalDir targetDir).length, zipDirLen, buf.length⟩

section Paths

theorem copyInto_done {buf data : Bytes} {pos : Nat} (h : pos + data.length ≤ buf.length) :
    copyInto buf pos data = .done (overwrite buf pos data) := if_pos h

/-- Copying behind a prefix that has just been written. -/
theorem copyInto_behind {buf front data : Bytes} (hfront : front <+: buf)
    (h : front.length + data.length ≤ buf.length) :
    ∃ buf', copyInto buf front.length data = .done buf' ∧ buf'.length = buf.length ∧
      front ++ data <+: buf' := by
  refine ⟨_, copyInto_done h, overwrite_length h, ?_⟩
  rw [overwrite, List.prefix_iff_eq_take.mp hfront, List.length_take, Nat.min_eq_left (by omega),
    ← List.append_assoc, ← List.prefix_iff_eq_take.mp hfront]
  exact List.prefix_append _ _

variable {targetDir : Bytes} {zipDirLen : Nat}

theorem canonicalDir_length_le (dir : Bytes) : (canonicalDir dir).length ≤ dir.length + 1 := by
  unfold canonicalDir
  split
  · omega
  · rw [List.length_append, List.length_singleton]

theorem zero_notMem_canonicalDir {dir : Bytes} (h : 0 ∉ dir) : 0 ∉ canonicalDir dir := by
  unfold canonicalDir
  split
  · exact h
  · rw [List.mem_append, not_or]
    exact ⟨h, by decide⟩

/-- Growing keeps the contents and makes room. -/
theorem growBuffer_spec (alloc : Bool) {helper : MzPathHelper} {needLen : Int}
    (hpos : 0 < needLen) (hsmall : needLen < 2 ^ 30)
    (hlen : helper.bufLen = (helper.buf.getD []).length)
    (hmax : (helper.buf.getD []).length < 2 ^ 31) :
    (growBuffer alloc helper needLen = none ∧ alloc = false) ∨
    ∃ buf, growBuffer alloc helper needLen =
        some { helper with buf := some buf, bufLen := buf.length } ∧
      needLen ≤ buf.length ∧ buf.length < 2 ^ 31 ∧ helper.buf.getD [] <+: buf := by
  unfold growBuffer
  split
  · cases alloc with
    | false => exact .inl ⟨rfl, rfl⟩
    | true =>
      obtain ⟨n, rfl⟩ := Int.eq_ofNat_of_zero_le hpos.le
      have hwrap : wrap32 ((n : Int) * 2) = ((2 * n : Nat) : Int) := by
        rw [wrap32_of_range (by omega) (by omega)]
        omega
      have hsize : (resize helper.buf (2 * n)).length = 2 * n := by
        simp only [resize, List.length_append, List.length_take, List.length_replicate]
        omega
      refine .inr ⟨resize helper.buf (2 * n), ?_, by omega, by omega, ?_⟩
      · rw [hwrap, toU32_of_range (by omega), hsize]
        rfl
      · rw [resize, List.take_of_length_le (by omega)]
        exact List.prefix_append _ _
  · refine .inr ?_
    cases hbuf : helper.buf with
    | none =>
      rw [hbuf] at hlen
      simp only [Option.getD_none, List.length_nil] at hlen
      omega
    | some buf =>
      rw [hbuf] at hlen hmax
      simp only [Option.getD_some] at hlen hmax
      refine ⟨buf, ?_, by omega, hmax, List.prefix_refl _⟩
      rw [← hlen, ← hbuf]

theorem startPath_spec {helper : MzPathHelper} {buf : Bytes}
    (hdir : helper.targetDirLen = helper.targetDir.length) (hne : helper.targetDir ≠ [])
    (hroom : helper.targetDir.length + 1 ≤ buf.length) :
    ∃ buf', startPath helper buf = .done (buf', (canonicalDir helper.targetDir).length) ∧
      buf'.length = buf.length ∧ canonicalDir helper.targetDir <+: buf' := by
  have hpos := List.length_pos_iff.mpr hne
  obtain ⟨buf₁, hcopy, hlen, hpre⟩ :=
    @copyInto_behind buf [] helper.targetDir List.nil_prefix
      (by rw [List.length_nil]; omega)
  rw [List.length_nil] at hcopy
  rw [List.nil_append] at hpre
  have hlast : buf₁[helper.targetDirLen - 1]? = helper.targetDir.getLast? := by
    obtain ⟨tail, rfl⟩ := hpre
    rw [hdir, List.getElem?_append_left (by omega), List.getLast?_eq_getElem?]
  rw [startPath, hcopy, Outcome.done_bind, hlast, hdir, canonicalDir]
  split
  · rename_i hslash
    have hno : helper.targetDir.getLast? ≠ some SLASH := hslash.resolve_left (by omega)
    obtain ⟨buf₂, hcopy₂, hlen₂, hpre₂⟩ := @copyInto_behind buf₁ helper.targetDir [SLASH] hpre
      (by rw [List.length_singleton]; omega)
    refine ⟨buf₂, ?_, by omega, ?_⟩
    · rw [hcopy₂, Outcome.done_bind, if_neg (not_or.mpr ⟨hne, hno⟩), List.length_append,
        List.length_singleton]
    · rw [if_neg (not_or.mpr ⟨hne, hno⟩)]
      exact hpre₂
  · rename_i hslash
    have hyes := not_not.mp (not_or.mp hslash).2
    refine ⟨buf₁, ?_, hlen, ?_⟩
    · rw [if_pos (.inr hyes)]
    · rw [if_pos (.inr hyes)]
      exact hpre

theorem cString_append_zero {s tail : Bytes} (h : 0 ∉ s) : cString (s ++ 0 :: tail) = s := by
  rw [cString, List.takeWhile_append_of_pos]
  · simp
  · intro c hc
    exact decide_eq_true fun hzero => h (hzero ▸ hc)

theorem entryPath_spec {m : MemMapping} {helper : MzPathHelper} {e : ZipEntry} {buf base : Bytes}
    (he : e.Named m) (hbase : 0 ∉ base) (hlen : helper.targetDirLen = base.length)
    (hpre : base <+: buf)
    (hroom : base.length + ((e.name m).drop helper.zipDirLen).length + 1 ≤ buf.length) :
    ∃ buf', entryPath m helper e buf =
        .done (base ++ (e.name m).drop helper.zipDirLen, { helper with buf := some buf' }) ∧
      buf'.length = buf.length ∧ base <+: buf' := by
  obtain ⟨buf₁, hcopy, hlen₁, hpre₁⟩ :=
    @copyInto_behind buf base ((e.name m).drop helper.zipDirLen) hpre (by omega)
  obtain ⟨buf₂, hcopy₂, hlen₂, hpre₂⟩ :=
    @copyInto_behind buf₁ (base ++ (e.name m).drop helper.zipDirLen) [0] hpre₁
      (by rw [List.length_append, List.length_singleton]; omega)
  rw [List.length_append] at hcopy₂
  refine ⟨buf₂, ?_, by omega, ?_⟩
  · rw [entryPath, hlen, hcopy, Outcome.done_bind, hcopy₂, Outcome.done_bind]
    obtain ⟨tail, rfl⟩ := hpre₂
    rw [List.append_assoc _ [0] tail, List.singleton_append, cString_append_zero]
    rw [List.mem_append, not_or]
    exact ⟨hbase, fun hzero => he.ne_zero 0 (List.mem_of_mem_drop hzero) rfl⟩
  · exact ((List.prefix_append _ _).trans (List.prefix_append _ _)).trans hpre₂

/-- The path of an entry is the target directory with a slash at its end, and the rest of the
name. -/
def targetPath (m : MemMapping) (targetDir : Bytes) (zipDirLen : Nat) (e : ZipEntry) : Bytes :=
  canonicalDir targetDir ++ (e.name m).drop zipDirLen

/-- `targetEntryPath` stays inside the buffer, whatever came before. -/
theorem targetEntryPath_spec {m : MemMapping} (alloc : Bool) {helper : MzPathHelper} {e : ZipEntry}
    (hstate : HelperState targetDir zipDirLen helper) (he : e.Named m)
    (hname : e.fileNameLen < PATH_MAX) (hmatch : zipDirLen ≤ e.fileNameLen)
    (hne : targetDir ≠ []) (hzero : 0 ∉ targetDir) (hdir : targetDir.length < 2 ^ 29) :
    (targetEntryPath m alloc helper e = .done none ∧ alloc = false) ∨
    ∃ helper', targetEntryPath m alloc helper e =
        .done (some (targetPath m targetDir zipDirLen e, helper')) ∧
      HelperState targetDir zipDirLen helper' := by
  have hmax : PATH_MAX = 4096 := rfl
  have hbase := zero_notMem_canonicalDir hzero
  have hcanon := canonicalDir_length_le targetDir
  have hrest : ((e.name m).drop zipDirLen).length = e.fileNameLen - zipDirLen := by
    rw [List.length_drop, he.length_eq]
  cases hstate with
  | fresh =>
    have hneed : wrap32 ((targetDir.length : Int) + 1 + e.fileNameLen - zipDirLen + 1) =
        (targetDir.length : Int) + 1 + e.fileNameLen - zipDirLen + 1 :=
      wrap32_of_range (by omega) (by omega)
    rw [targetEntryPath]
    dsimp only
    rw [hneed]
    rcases @growBuffer_spec alloc ⟨targetDir, none, targetDir.length, zipDirLen, 0⟩
      ((targetDir.length : Int) + 1 + e.fileNameLen - zipDirLen + 1) (by omega) (by omega) rfl
      (by simp) with ⟨hnone, halloc⟩ | ⟨buf, hgrow, hroom, hsize, -⟩
    · exact .inl ⟨by rw [hnone], halloc⟩
    · obtain ⟨buf₁, hstart, hlen₁, hpre₁⟩ :=
        @startPath_spec ⟨targetDir, some buf, targetDir.length, zipDirLen, buf.length⟩ buf rfl hne
          (by dsimp only; omega)
      obtain ⟨buf₂, hentry, hlen₂, hpre₂⟩ :=
        @entryPath_spec m ⟨targetDir, some buf, (canonicalDir targetDir).length, zipDirLen,
          buf.length⟩ e buf₁ (canonicalDir targetDir) he hbase rfl hpre₁
          (by dsimp only; omega)
      refine .inr ⟨⟨targetDir, some buf₂, (canonicalDir targetDir).length, zipDirLen,
        buf₂.length⟩, ?_, .ready hpre₂ (by omega)⟩
      rw [hgrow]
      dsimp only
      rw [hstart, Outcome.done_bind]
      dsimp only
      rw [hentry, Outcome.done_bind, targetPath, hlen₂, hlen₁]
  | @ready buf₀ hpre₀ hsize₀ =>
    have hneed : wrap32 (((canonicalDir targetDir).length : Int) + 1 + e.fileNameLen - zipDirLen +
        1) = ((canonicalDir targetDir).length : Int) + 1 + e.fileNameLen - zipDirLen + 1 :=
      wrap32_of_range (by omega) (by omega)
    rw [targetEntryPath]
    dsimp only
    rw [hneed]
    rcases @growBuffer_spec alloc ⟨targetDir, some buf₀, (canonicalDir targetDir).length, zipDirLen,
      buf₀.length⟩ (((canonicalDir targetDir).length : Int) + 1 + e.fileNameLen - zipDirLen + 1)
      (by omega) (by omega) rfl hsize₀ with ⟨hnone, halloc⟩ | ⟨buf, hgrow, hroom, hsize, hpre⟩
    · exact .inl ⟨by rw [hnone], halloc⟩
    · obtain ⟨buf₂, hentry, hlen₂, hpre₂⟩ :=
        @entryPath_spec m ⟨targetDir, some buf, (canonicalDir targetDir).length, zipDirLen,
          buf.length⟩ e buf (canonicalDir targetDir) he hbase rfl (hpre₀.trans hpre)
          (by dsimp only; omega)
      refine .inr ⟨⟨targetDir, some buf₂, (canonicalDir targetDir).length, zipDirLen,
        buf₂.length⟩, ?_, .ready hpre₂ (by omega)⟩
      rw [hgrow]
      dsimp only
      rw [hentry, Outcome.done_bind, targetPath, hlen₂]

end Paths

/-! ## The full scan -/

section Scan

variable (m : MemMapping) (targetDir zpath : Bytes) (body : Body)

/-- The loop without a shortcut and without a buffer: every entry of the array is looked at once,
and every path is built from the target directory and the name. `paths` says for which visits
there is memory for the path. -/
def fullScan (paths : Nat → Bool) : List ZipEntry → Nat → Outcome (Bool × List Visit)
  | [], _ => .done (true, [])
  | e :: rest, k =>
    if ¬ zpath <+: e.name m then fullScan paths rest k
    else if !paths k then .done (false, [])
    else do
      let r ← body k e
      match r.1 with
      | .leave ok => .done (ok, [⟨e, targetPath m targetDir zpath.length e, r.2, .leave ok⟩])
      | .goOn =>
        Visit.before ⟨e, targetPath m targetDir zpath.length e, r.2, .goOn⟩
          (fullScan paths rest (k + 1))

variable {m targetDir zpath body}

theorem fullScan_none {paths : Nat → Bool} {l : List ZipEntry}
    (h : ∀ e ∈ l, ¬ zpath <+: e.name m) (k : Nat) :
    fullScan m targetDir zpath body paths l k = .done (true, []) := by
  induction l with
  | nil => rfl
  | cons e rest ih =>
    rw [fullScan, if_pos (h e List.mem_cons_self)]
    exact ih fun w hw => h w (List.mem_cons_of_mem _ hw)

theorem fullScan_congr {paths paths' : Nat → Bool} (l : List ZipEntry) : ∀ k,
    (∀ j, k ≤ j → paths j = paths' j) →
    fullScan m targetDir zpath body paths l k = fullScan m targetDir zpath body paths' l k := by
  induction l with
  | nil => exact fun _ _ => rfl
  | cons e rest ih =>
    intro k h
    rw [fullScan, fullScan, h k (le_refl k), ih k h,
      ih (k + 1) fun j hj => h j (by omega)]

/-- An entry that the loop can handle. -/
structure ZipEntry.Usable (m : MemMapping) (e : ZipEntry) : Prop where
  named : e.Named m
  short : e.fileNameLen < PATH_MAX

variable {os : Os}

/-- The shortcut and the buffer make no difference. -/
theorem extractLoop_eq (hz : 0 ∉ zpath) (hne : targetDir ≠ []) (hzero : 0 ∉ targetDir)
    (hdir : targetDir.length < 2 ^ 29) (l : List ZipEntry) : ∀ (k : Nat) (helper : MzPathHelper)
    (seenMatch : Bool), (∀ e ∈ l, e.Usable m) → SortedByName m l →
    HelperState targetDir zpath.length helper →
    (seenMatch = true → ∃ x, x.Named m ∧ zpath <+: x.name m ∧ SortedByName m (x :: l)) →
    ∃ paths : Nat → Bool, (∀ j, os.realloc j = true → paths j = true) ∧
      extractLoop m os zpath body l k helper seenMatch =
        fullScan m targetDir zpath body paths l k := by
  induction l with
  | nil => exact fun _ _ _ _ _ _ _ => ⟨os.realloc, fun _ h => h, rfl⟩
  | cons e rest ih =>
    intro k helper seenMatch husable hsorted hstate hseen
    have he := husable e List.mem_cons_self
    have hrest : ∀ w ∈ rest, w.Usable m := fun w hw => husable w (List.mem_cons_of_mem _ hw)
    have hsortedRest := (List.pairwise_cons.mp hsorted).2
    rw [extractLoop]
    split
    · rename_i hmis
      have hmiss := (mismatch_iff hz he.named).mp hmis
      split
      · rename_i hseenMatch
        obtain ⟨x, hx, hmatch, hsortedx⟩ := hseen hseenMatch
        refine ⟨os.realloc, fun _ h => h, ?_⟩
        rw [fullScan, if_pos hmiss,
          fullScan_none (no_later_match hx he.named hsortedx hmatch hmiss)]
      · rename_i hunseen
        obtain ⟨paths, hpaths, heq⟩ := ih k helper seenMatch hrest hsortedRest hstate
          fun h => absurd h hunseen
        exact ⟨paths, hpaths, by rw [fullScan, if_pos hmiss, heq]⟩
    · rename_i hmis
      have hmatch : zpath <+: e.name m := by
        by_contra hmiss
        exact hmis ((mismatch_iff hz he.named).mpr hmiss)
      have hlen : zpath.length ≤ e.fileNameLen := by
        rw [← he.named.length_eq]
        exact hmatch.length_le
      rcases @targetEntryPath_spec targetDir zpath.length m (os.realloc k) helper e hstate he.named
        he.short hlen hne hzero hdir with ⟨hnone, halloc⟩ | ⟨helper', hpath, hstate'⟩
      · refine ⟨fun j => os.realloc j, fun _ h => h, ?_⟩
        rw [hnone, Outcome.done_bind, fullScan, if_neg (not_not.mpr hmatch), halloc]
        rfl
      · obtain ⟨paths, hpaths, heq⟩ := ih (k + 1) helper' true hrest hsortedRest hstate'
          fun _ => ⟨e, he.named, hmatch, hsorted⟩
        refine ⟨fun j => if j = k then true else paths j, ?_, ?_⟩
        · intro j hj
          dsimp only
          split
          · rfl
          · exact hpaths j hj
        · have hcongr : fullScan m targetDir zpath body (fun j => if j = k then true else paths j)
              rest (k + 1) = fullScan m targetDir zpath body paths rest (k + 1) :=
            fullScan_congr rest (k + 1) fun j hj => if_neg (by omega)
          rw [hpath, Outcome.done_bind, fullScan, if_neg (not_not.mpr hmatch), hcongr, ← heq]
          simp only [if_true, Bool.not_true, Bool.false_eq_true, if_false]

variable (m targetDir zpath) in
/-- The entries under `zpath`, in the order of the array, with their paths. -/
def selected (l : List ZipEntry) : List (ZipEntry × Bytes) :=
  (l.filter fun e => zpath <+: e.name m).map fun e => (e, targetPath m targetDir zpath.length e)

/-- The entry and the path of a visit. -/
def Visit.target (v : Visit) : ZipEntry × Bytes := (v.entry, v.targetFile)

/-- The scan visits the selected entries in their order, and all of them if it is not left. -/
theorem fullScan_visits {paths : Nat → Bool} (l : List ZipEntry) : ∀ (k : Nat) (ok : Bool)
    (visits : List Visit), fullScan m targetDir zpath body paths l k = .done (ok, visits) →
    visits.map Visit.target <+: selected m targetDir zpath l ∧
    ((∀ v ∈ visits, v.roundEnd = .goOn) → (∀ j, paths j = true) →
      visits.map Visit.target = selected m targetDir zpath l) := by
  induction l with
  | nil =>
    intro k ok visits h
    cases h
    exact ⟨List.prefix_refl _, fun _ _ => rfl⟩
  | cons e rest ih =>
    intro k ok visits h
    rw [fullScan] at h
    split at h
    · rename_i hmiss
      have hsel : selected m targetDir zpath (e :: rest) = selected m targetDir zpath rest := by
        rw [selected, List.filter_cons_of_neg (by simpa using hmiss), selected]
      rw [hsel]
      exact ih k ok visits h
    rename_i hmatch
    have hsel : selected m targetDir zpath (e :: rest) =
        (e, targetPath m targetDir zpath.length e) :: selected m targetDir zpath rest := by
      rw [selected, List.filter_cons_of_pos (by simpa using hmatch), List.map_cons, selected]
    rw [hsel]
    split at h
    · rename_i hnomem
      cases h
      refine ⟨List.nil_prefix, fun _ hall => ?_⟩
      rw [hall k] at hnomem
      cases hnomem
    obtain ⟨r, -, h⟩ := Outcome.bind_eq_done.mp h
    split at h
    · rename_i ok' hleave
      cases h
      refine ⟨List.cons_prefix_cons.mpr ⟨rfl, List.nil_prefix⟩, fun hall _ => ?_⟩
      cases hall _ List.mem_cons_self
    · obtain ⟨r', hrest, h⟩ := Outcome.bind_eq_done.mp h
      cases h
      obtain ⟨hpre, heq⟩ := ih (k + 1) r'.1 r'.2 hrest
      refine ⟨List.cons_prefix_cons.mpr ⟨rfl, hpre⟩, fun hall hpaths => ?_⟩
      rw [List.map_cons, heq (fun v hv => hall v (List.mem_cons_of_mem _ hv)) hpaths]
      rfl

theorem fullScan_ne_fault {paths : Nat → Bool} (l : List ZipEntry)
    (hbody : ∀ k, ∀ e ∈ l, body k e ≠ .fault) : ∀ k,
    fullScan m targetDir zpath body paths l k ≠ .fault := by
  induction l with
  | nil => exact fun _ => nofun
  | cons e rest ih =>
    intro k
    have hrest := ih fun k w hw => hbody k w (List.mem_cons_of_mem _ hw)
    rw [fullScan]
    split
    · exact hrest k
    split
    · nofun
    cases hrun : body k e with
    | fault => exact absurd hrun (hbody k e List.mem_cons_self)
    | spin => nofun
    | done r =>
      rw [Outcome.done_bind]
      split
      · nofun
      · unfold Visit.before
        have hnext := hrest (k + 1)
        cases hscan : fullScan m targetDir zpath body paths rest (k + 1) with
        | fault => exact absurd hscan hnext
        | spin => nofun
        | done r' => nofun

end Scan

/-- The entries of an accepted archive. -/
theorem Accepted.usable {a : ZipArchive} {records : List ZipEntry} (h : Accepted a records) :
    ∀ e ∈ a.pEntries, e.Usable a.map := by
  intro e he
  obtain ⟨ptr, next, hread⟩ := h.read he
  exact ⟨h.indexes.named e he, readEntry_short hread⟩

/-- `mzExtractRecursive` does on an accepted archive what a full scan does. It visits the entries
whose names begin with the canonical form of `zipDir`, in their order and each once, up to the
first one that is left or has no memory for its path; the path of each is the target directory
with a slash at its end and the rest of the name. Nothing is written outside the path buffer. -/
theorem extract_recursive_selects {m : MemMapping} {a : ZipArchive}
    (h : parseZipArchive m = .done (some a)) (z : Inflate) (fuel : Nat) (os : Os) (oldOff : Nat)
    {zipDir targetDir : Bytes} (hzip : 0 ∉ zipDir) (hrelative : zipDir.head? ≠ some SLASH)
    (htarget : 0 ∉ targetDir) (habsolute : targetDir.head? = some SLASH)
    (hdir : targetDir.length < 2 ^ 29) (flags : Nat) (timestamp : Bool) :
    ∃ paths : Nat → Bool, (∀ k, os.realloc k = true → paths k = true) ∧
      mzExtractRecursive z fuel os oldOff a zipDir targetDir flags timestamp true =
        fullScan m targetDir (canonicalDir zipDir)
          (extractEntry z fuel os oldOff flags timestamp m) paths a.pEntries 0 ∧
      (∀ ok visits,
        mzExtractRecursive z fuel os oldOff a zipDir targetDir flags timestamp true =
          .done (ok, visits) →
        visits.map Visit.target <+: selected m targetDir (canonicalDir zipDir) a.pEntries ∧
        ((∀ v ∈ visits, v.roundEnd = .goOn) → (∀ k, paths k = true) →
          visits.map Visit.target = selected m targetDir (canonicalDir zipDir) a.pEntries)) ∧
      ((∀ k, ∀ e ∈ a.pEntries,
          extractEntry z fuel os oldOff flags timestamp m k e ≠ .fault) →
        mzExtractRecursive z fuel os oldOff a zipDir targetDir flags timestamp true ≠ .fault) := by
  obtain ⟨rfl, records, hacc⟩ := parseZipArchive_spec h
  have hne : targetDir ≠ [] := by
    rintro rfl
    cases habsolute
  obtain ⟨paths, hpaths, heq⟩ := @extractLoop_eq a.map targetDir (canonicalDir zipDir)
    (extractEntry z fuel os oldOff flags timestamp a.map) os (zero_notMem_canonicalDir hzip) hne
    htarget hdir a.pEntries 0 _ false hacc.usable hacc.indexes.sorted .fresh nofun
  have hrun : mzExtractRecursive z fuel os oldOff a zipDir targetDir flags timestamp true =
      fullScan a.map targetDir (canonicalDir zipDir)
        (extractEntry z fuel os oldOff flags timestamp a.map) paths a.pEntries 0 := by
    rw [mzExtractRecursive, if_neg hrelative, if_neg (not_not.mpr habsolute)]
    exact heq
  refine ⟨paths, hpaths, hrun, ?_, ?_⟩
  · intro ok visits hdone
    rw [hrun] at hdone
    exact fullScan_visits a.pEntries 0 ok visits hdone
  · intro hbody
    rw [hrun]
    exact fullScan_ne_fault a.pEntries hbody 0

theorem extract_recursive_selects_sample :
    ∃ a, parseZipArchive sampleMapping = .done (some a) ∧
      ∀ z fuel os oldOff flags timestamp, ∃ paths : Nat → Bool,
        (∀ k, os.realloc k = true → paths k = true) ∧
        mzExtractRecursive z fuel os oldOff a [0x61] [SLASH] flags timestamp true =
          fullScan sampleMapping [SLASH] (canonicalDir [0x61])
            (extractEntry z fuel os oldOff flags timestamp sampleMapping) paths a.pEntries 0 := by
  have hsome : (parseZipArchive sampleMapping).value?.join.isSome = true := by decide +kernel
  obtain ⟨a, ha⟩ := Option.isSome_iff_exists.mp hsome
  have hrun := Outcome.value?_eq_some.mp (Option.join_eq_some_iff.mp ha)
  refine ⟨a, hrun, ?_⟩
  intro z fuel os oldOff flags timestamp
  obtain ⟨paths, hpaths, heq, -⟩ := @extract_recursive_selects sampleMapping a hrun z fuel os oldOff
    [0x61] [SLASH] (by decide) (by decide) (by decide) rfl (by decide) flags timestamp
  exact ⟨paths, hpaths, heq⟩

/-! ## Whole contents -/

section Whole

variable {z : Inflate} {fd : Fd} {fuel : Nat} {e : ZipEntry}

/-- The decoder came to the end of an entry, and `data` is all that it delivered. -/
structure Whole (z : Inflate) (fd : Fd) (fuel : Nat) (e : ZipEntry) (data : Bytes) : Prop where
  data_eq : data = (entryContents z fd fuel e).data
  ended : (e.compression = STORED ∧ (entryContents z fd fuel e).ending = .done true) ∨
    (e.compression = DEFLATED ∧ z.inflateInit2.1 = Z_OK ∧
      ∃ n, (deflatedChunks z fd fuel (startInflating z fd e)).ending = .done (some n))

/-- A callback that keeps all it takes has kept everything when the run returns true, unless it
returns true when a chunk is refused. -/
theorem feed_true {σ : Type} {p : ProcessFunction σ} {out : σ → Bytes} {ending : Outcome Bool}
    (hp : ∀ cookie data cookie', p cookie data = .done (true, cookie') →
      out cookie' = out cookie ++ data) (chunks : List Bytes) : ∀ cookie cookie',
    feed p ending false chunks cookie = .done (true, cookie') →
    ending = .done true ∧ out cookie' = out cookie ++ chunks.flatten := by
  induction chunks with
  | nil =>
    intro cookie cookie' h
    obtain ⟨r, hend, h⟩ := Outcome.bind_eq_done.mp h
    cases h
    exact ⟨hend, (List.append_nil _).symm⟩
  | cons data chunks ih =>
    intro cookie cookie' h
    rw [feed, Outcome.bind_eq_done] at h
    obtain ⟨⟨taken, cookie₁⟩, hrun, h⟩ := h
    cases taken with
    | false => cases h
    | true =>
      obtain ⟨hend, hout⟩ := ih cookie₁ cookie' h
      refine ⟨hend, ?_⟩
      rw [hout, hp _ _ _ hrun, List.flatten_cons, List.append_assoc]

/-- Without the length -1, `mzProcessZipEntryContents` returns true only at the end of the
entry. -/
theorem whole_of_ending (hlen : e.compression = DEFLATED → e.uncompLen ≠ -1)
    (hend : (entryContents z fd fuel e).ending = .done true) :
    Whole z fd fuel e (entryContents z fd fuel e).data := by
  refine ⟨rfl, ?_⟩
  unfold entryContents at hend
  split at hend
  · rename_i hstored
    exact .inl ⟨hstored, by rw [entryContents, if_pos hstored]; exact hend⟩
  split at hend
  · rename_i hdeflated
    have hno := hlen hdeflated
    split at hend
    · simp [inflateReturns, hno] at hend
    · rename_i hinit
      refine .inr ⟨hdeflated, not_not.mp hinit, ?_⟩
      obtain ⟨total, hlast, hret⟩ := Outcome.bind_eq_done.mp hend
      cases total with
      | none => simp [inflateReturns, hno] at hret
      | some n => exact ⟨n, hlast⟩
  · cases hend

theorem refusedReturn_false (hlen : e.compression = DEFLATED → e.uncompLen ≠ -1) :
    refusedReturn e = false := by
  rw [refusedReturn, decide_eq_false_iff_not, not_and]
  exact hlen

theorem writeLoop_true (script : List WriteResult) : ∀ data : Bytes,
    (writeLoop script data).1 = true → (writeLoop script data).2.1 = data := by
  induction script with
  | nil => exact fun _ _ => rfl
  | cons r script ih =>
    intro data h
    cases r with
    | interrupted => exact ih data h
    | failed => cases h
    | wrote n =>
      rw [writeLoop] at h ⊢
      split at h
      · rename_i hall
        rw [if_pos hall]
      · rename_i hpart
        rw [if_neg hpart]
        dsimp only at h ⊢
        rw [ih _ h, List.take_append_drop]

/-- A file whose extraction is reported as a success is whole, but for the length -1. -/
theorem toFile_whole {script : List WriteResult} {written : Bytes}
    (hlen : e.compression = DEFLATED → e.uncompLen ≠ -1)
    (h : mzExtractZipEntryToFile z fd fuel e script = .done (true, written)) :
    Whole z fd fuel e written := by
  unfold mzExtractZipEntryToFile at h
  rw [mzProcessZipEntryContents_eq, refusedReturn_false hlen] at h
  obtain ⟨⟨ret, f⟩, hfeed, h⟩ := Outcome.bind_eq_done.mp h
  cases h
  obtain ⟨hend, hout⟩ := @feed_true OutFile writeProcessFunction OutFile.written _ (by
    intro cookie data cookie' hrun
    unfold writeProcessFunction at hrun
    split at hrun
    · cases hrun
    · obtain ⟨hret, rfl⟩ := Prod.mk.inj (Outcome.done.inj hrun)
      exact congrArg _ (writeLoop_true _ _ hret)) _ _ _ hfeed
  rw [hout]
  exact whole_of_ending hlen hend

/-- So is what `mzReadZipEntry` has copied. -/
theorem read_whole {bufLen : Int} {copied : Bytes}
    (hlen : e.compression = DEFLATED → e.uncompLen ≠ -1)
    (h : mzReadZipEntry z fd fuel e bufLen = .done (true, copied)) :
    Whole z fd fuel e copied := by
  unfold mzReadZipEntry at h
  rw [mzProcessZipEntryContents_eq, refusedReturn_false hlen] at h
  obtain ⟨⟨ret, args⟩, hfeed, h⟩ := Outcome.bind_eq_done.mp h
  cases h
  obtain ⟨hend, hout⟩ := @feed_true CopyProcessArgs copyProcessFunction CopyProcessArgs.copied _ (by
    intro cookie data cookie' hrun
    unfold copyProcessFunction at hrun
    split at hrun
    · obtain ⟨-, rfl⟩ := Prod.mk.inj (Outcome.done.inj hrun)
      rfl
    · cases hrun) _ _ _ hfeed
  rw [hout]
  exact whole_of_ending hlen hend

end Whole

/-! ## Rounds over the selected entries -/

section Rounds

variable (path : ZipEntry → Bytes) (body : Body)

/-- The rounds of the loop over the entries that match. -/
def rounds : List ZipEntry → Nat → Outcome (Bool × List Visit)
  | [], _ => .done (true, [])
  | e :: rest, k => do
    let r ← body k e
    match r.1 with
    | .leave ok => .done (ok, [⟨e, path e, r.2, .leave ok⟩])
    | .goOn => Visit.before ⟨e, path e, r.2, .goOn⟩ (rounds rest (k + 1))

theorem fullScan_rounds {m : MemMapping} {targetDir zpath : Bytes} {paths : Nat → Bool}
    (hpaths : ∀ k, paths k = true) (l : List ZipEntry) : ∀ k,
    fullScan m targetDir zpath body paths l k =
      rounds (targetPath m targetDir zpath.length) body
        (l.filter fun e => zpath <+: e.name m) k := by
  induction l with
  | nil => exact fun _ => rfl
  | cons e rest ih =>
    intro k
    rw [fullScan]
    split
    · rename_i hmiss
      rw [List.filter_cons_of_neg (by simpa using hmiss)]
      exact ih k
    · rename_i hmatch
      rw [List.filter_cons_of_pos (by simpa using hmatch), rounds, hpaths k, ih (k + 1)]
      rfl

variable {path body}

/-- Entry `j` of a list is extracted and the loop goes on. -/
def GoesOn (body : Body) (sel : List ZipEntry) (k j : Nat) : Prop :=
  ∀ e, sel[j]? = some e → ∃ made, body (k + j) e = .done (.goOn, made)

theorem goesOn_cons {e : ZipEntry} {rest : List ZipEntry} {k j : Nat} :
    GoesOn body (e :: rest) k (j + 1) ↔ GoesOn body rest (k + 1) j := by
  unfold GoesOn
  rw [List.getElem?_cons_succ, Nat.add_right_comm, Nat.add_assoc k j 1]

/-- The loop is left at the first entry whose round does not go on. -/
theorem rounds_leave {ok : Bool} {made : Option Made} (sel : List ZipEntry) : ∀ (k n : Nat)
    (e : ZipEntry), sel[n]? = some e → (∀ j < n, GoesOn body sel k j) →
    body (k + n) e = .done (.leave ok, made) →
    ∃ visits, rounds path body sel k = .done (ok, visits) ∧
      ∃ v ∈ visits, v.roundEnd = .leave ok := by
  induction sel with
  | nil => simp
  | cons x rest ih =>
    intro k n e hget hbefore hleave
    rw [rounds]
    cases n with
    | zero =>
      obtain rfl := Option.some.inj hget
      rw [Nat.add_zero] at hleave
      rw [hleave]
      exact ⟨_, rfl, _, List.mem_cons_self, rfl⟩
    | succ n =>
      obtain ⟨made₀, hfirst⟩ := hbefore 0 (Nat.succ_pos n) x rfl
      rw [Nat.add_zero] at hfirst
      obtain ⟨visits, hrun, v, hv, hend⟩ := ih (k + 1) n e hget
        (fun j hj => goesOn_cons.mp (hbefore (j + 1) (by omega)))
        (by rw [Nat.add_right_comm, Nat.add_assoc k n 1]; exact hleave)
      refine ⟨⟨x, path x, made₀, .goOn⟩ :: visits, ?_, v, List.mem_cons_of_mem _ hv, hend⟩
      rw [hfirst, Outcome.done_bind]
      dsimp only
      rw [Visit.before, hrun]
      rfl

/-- When all rounds go on the result is true, and every entry has been visited. -/
theorem rounds_all (sel : List ZipEntry) : ∀ k, (∀ j, GoesOn body sel k j) →
    ∃ visits, rounds path body sel k = .done (true, visits) ∧
      visits.map Visit.target = sel.map (fun e => (e, path e)) ∧
      ∀ (j : Nat) (v : Visit), visits[j]? = some v →
        v.roundEnd = .goOn ∧ body (k + j) v.entry = .done (.goOn, v.made) := by
  induction sel with
  | nil => exact fun _ _ => ⟨[], rfl, rfl, by simp⟩
  | cons e rest ih =>
    intro k hall
    obtain ⟨made, hfirst⟩ := hall 0 e rfl
    rw [Nat.add_zero] at hfirst
    obtain ⟨visits, hrun, hmap, hvisits⟩ := ih (k + 1) fun j => goesOn_cons.mp (hall (j + 1))
    refine ⟨⟨e, path e, made, .goOn⟩ :: visits, ?_, ?_, ?_⟩
    · rw [rounds, hfirst, Outcome.done_bind]
      dsimp only
      rw [Visit.before, hrun]
      rfl
    · rw [List.map_cons, List.map_cons, hmap]
      rfl
    · intro j v hv
      cases j with
      | zero =>
        obtain rfl := Option.some.inj hv
        exact ⟨rfl, hfirst⟩
      | succ j =>
        rw [Nat.add_comm j 1, ← Nat.add_assoc]
        exact hvisits j v hv

/-- A result of true has two reasons: a round that leaves the loop with it, or that all rounds went
on. -/
theorem rounds_true (sel : List ZipEntry) : ∀ (k : Nat) (visits : List Visit),
    rounds path body sel k = .done (true, visits) →
    (∃ n e made, sel[n]? = some e ∧ (∀ j < n, GoesOn body sel k j) ∧
      body (k + n) e = .done (.leave true, made)) ∨ ∀ j, GoesOn body sel k j := by
  induction sel with
  | nil => exact fun _ _ _ => .inr fun _ e he => by simp at he
  | cons e rest ih =>
    intro k visits h
    rw [rounds, Outcome.bind_eq_done] at h
    obtain ⟨⟨roundEnd, made⟩, hbody, h⟩ := h
    cases roundEnd with
    | leave ok =>
      cases h
      exact .inl ⟨0, e, made, rfl, fun j hj => absurd hj (Nat.not_lt_zero j), hbody⟩
    | goOn =>
      have hfirst : GoesOn body (e :: rest) k 0 := by
        rintro e' he'
        obtain rfl := Option.some.inj he'
        exact ⟨made, hbody⟩
      obtain ⟨⟨ok, visits'⟩, hrest, h⟩ := Outcome.bind_eq_done.mp h
      cases h
      rcases ih (k + 1) visits' hrest with ⟨n, e', made', hget, hbefore, hleave⟩ | hall
      · refine .inl ⟨n + 1, e', made', hget, ?_, ?_⟩
        · intro j hj
          cases j with
          | zero => exact hfirst
          | succ j => exact goesOn_cons.mpr (hbefore j (by omega))
        · rw [Nat.add_comm n 1, ← Nat.add_assoc]
          exact hleave
      · refine .inr fun j => ?_
        cases j with
        | zero => exact hfirst
        | succ j => exact goesOn_cons.mpr (hall j)

end Rounds

/-! ## Failures that are not reported -/

section Failures

variable (z : Inflate) (fuel : Nat) (os : Os) (oldOff flags : Nat) (timestamp : Bool)
  (m : MemMapping)

/-- The entry is one that is written to a regular file, and the file was created. -/
structure FileOpened (k : Nat) (e : ZipEntry) : Prop where
  notDirectory : isDirectory m e = .done false
  parent : os.dirCreateHierarchy k = true
  notLink : asLink flags e = false
  created : os.creat k = true

/-- The contents of a regular file could not be extracted, or its time could not be set. -/
def FileFails (k : Nat) (e : ZipEntry) : Prop :=
  FileOpened os flags m k e ∧ ∃ r,
    mzExtractZipEntryToFile z (archiveFd os oldOff m k) fuel e (os.write k) = .done r ∧
      (r.1 = false ∨ timestamp = true ∧ os.utime k = false)

/-- A regular file passes for extracted though the decoder or a write failed: the length that was
announced is the value that `processDeflatedEntry` starts with. -/
def FilePart (k : Nat) (e : ZipEntry) : Prop :=
  FileOpened os flags m k e ∧ (e.compression = DEFLATED ∧ e.uncompLen = -1) ∧ ∃ written,
    mzExtractZipEntryToFile z (archiveFd os oldOff m k) fuel e (os.write k) =
      .done (true, written) ∧ ¬ Whole z (archiveFd os oldOff m k) fuel e written

/-- A symbolic link is made with a target that is not the contents of the entry: the contents have
a NUL in them, or are shorter than announced and followed by other memory. -/
def LinkPart (k : Nat) (e : ZipEntry) : Prop :=
  isDirectory m e = .done false ∧ asLink flags e = true ∧ ∃ memory copied target,
    os.malloc k = some memory ∧
    mzReadZipEntry z (archiveFd os oldOff m k) fuel e e.uncompLen = .done (true, copied) ∧
    linkTarget memory e copied = .done target ∧ target ≠ copied

/-- What was asked for was made, with the whole contents. -/
def MadeWhole (k : Nat) (e : ZipEntry) : Option Made → Prop
  | none => False
  | some .skipped => flags &&& MZ_EXTRACT_FILES_ONLY ≠ 0
  | some .directory => True
  | some (.link target) => Whole z (archiveFd os oldOff m k) fuel e target
  | some (.file written) => Whole z (archiveFd os oldOff m k) fuel e written

variable {z fuel os oldOff flags timestamp m} {k : Nat} {e : ZipEntry}

/-- The body of the loop without `MZ_EXTRACT_DRY_RUN`, on an entry that is not a directory. -/
theorem extractEntry_file (hdry : flags &&& MZ_EXTRACT_DRY_RUN = 0)
    (hdir : isDirectory m e = .done false) :
    extractEntry z fuel os oldOff flags timestamp m k e =
      if !os.dirCreateHierarchy k then .done (.leave false, none)
      else if asLink flags e then extractLink z fuel os oldOff m k e
      else extractFile z fuel os oldOff timestamp m k e := by
  rw [extractEntry, if_neg (not_not.mpr hdry), hdir]
  rfl

theorem extractEntry_directory (hdry : flags &&& MZ_EXTRACT_DRY_RUN = 0)
    (hdir : isDirectory m e = .done true) :
    extractEntry z fuel os oldOff flags timestamp m k e =
      if flags &&& MZ_EXTRACT_FILES_ONLY ≠ 0 then .done (.goOn, some .skipped)
      else if !os.dirCreateHierarchy k then .done (.leave false, none)
      else .done (.goOn, some .directory) := by
  rw [extractEntry, if_neg (not_not.mpr hdry), hdir]
  rfl

/-- A round that returned has found out whether the entry is a directory. -/
theorem extractEntry_done {r : RoundEnd × Option Made} (hdry : flags &&& MZ_EXTRACT_DRY_RUN = 0)
    (h : extractEntry z fuel os oldOff flags timestamp m k e = .done r) :
    ∃ directory, isDirectory m e = .done directory := by
  rw [extractEntry, if_neg (not_not.mpr hdry)] at h
  obtain ⟨directory, hdir, -⟩ := Outcome.bind_eq_done.mp h
  exact ⟨directory, hdir⟩

theorem extractLink_leave {ok : Bool} {made : Option Made}
    (h : extractLink z fuel os oldOff m k e = .done (.leave ok, made)) : ok = false := by
  unfold extractLink at h
  split at h
  · cases h
    rfl
  split at h
  · cases h
    rfl
  obtain ⟨r, -, h⟩ := Outcome.bind_eq_done.mp h
  split at h
  · cases h
    rfl
  obtain ⟨target, -, h⟩ := Outcome.bind_eq_done.mp h
  split at h
  · cases h
    rfl
  · cases h

theorem extractFile_leave {made : Option Made} (hcreat : os.creat k = true) :
    extractFile z fuel os oldOff timestamp m k e = .done (.leave true, made) ↔
      ∃ r, mzExtractZipEntryToFile z (archiveFd os oldOff m k) fuel e (os.write k) = .done r ∧
        (r.1 = false ∨ timestamp = true ∧ os.utime k = false) ∧ made = some (.file r.2) := by
  rw [extractFile, hcreat]
  constructor
  · intro h
    obtain ⟨r, hrun, h⟩ := Outcome.bind_eq_done.mp h
    split at h
    · rename_i hret
      cases h
      exact ⟨r, hrun, .inl (by simpa using hret), rfl⟩
    split at h
    · rename_i htime
      cases h
      exact ⟨r, hrun, .inr (by simpa using htime), rfl⟩
    · cases h
  · rintro ⟨r, hrun, hfail, rfl⟩
    rw [hrun]
    show (if !r.1 then _ else _) = _
    split
    · rfl
    rename_i hret
    rw [if_pos]
    rcases hfail with hno | htime
    · rw [hno] at hret
      exact absurd rfl hret
    · simpa using htime

/-- The loop is left with the flag still set exactly when the extraction of a regular file or its
time stamp fails. -/
theorem extractEntry_leave_true (hdry : flags &&& MZ_EXTRACT_DRY_RUN = 0) :
    (∃ made, extractEntry z fuel os oldOff flags timestamp m k e = .done (.leave true, made)) ↔
      FileFails z fuel os oldOff flags timestamp m k e := by
  constructor
  · rintro ⟨made, h⟩
    obtain ⟨directory, hdir⟩ := extractEntry_done hdry h
    cases directory with
    | true =>
      rw [extractEntry_directory hdry hdir] at h
      split at h
      · cases h
      split at h <;> cases h
    | false =>
      rw [extractEntry_file hdry hdir] at h
      split at h
      · cases h
      rename_i hparent
      split at h
      · cases extractLink_leave h
      rename_i hlink
      have hcreat : os.creat k = true := by
        by_contra hno
        rw [extractFile, Bool.eq_false_iff.mpr hno] at h
        cases h
      obtain ⟨r, hrun, hfail, -⟩ := (extractFile_leave hcreat).mp h
      exact ⟨⟨hdir, by simpa using hparent, Bool.eq_false_iff.mpr hlink, hcreat⟩, r, hrun, hfail⟩
  · rintro ⟨hopened, r, hrun, hfail⟩
    refine ⟨some (.file r.2), ?_⟩
    rw [extractEntry_file hdry hopened.notDirectory, hopened.parent, hopened.notLink]
    exact (extractFile_leave hopened.created).mpr ⟨r, hrun, hfail, rfl⟩

theorem whole_unique {fd : Fd} {data data' : Bytes} (h : Whole z fd fuel e data)
    (h' : Whole z fd fuel e data') : data = data' := h.data_eq.trans h'.data_eq.symm

/-- A link that was made has the whole contents as its target, or is one of the exceptions. -/
theorem extractLink_goOn {made : Option Made}
    (h : extractLink z fuel os oldOff m k e = .done (.goOn, made)) :
    ∃ memory copied target, os.malloc k = some memory ∧
      mzReadZipEntry z (archiveFd os oldOff m k) fuel e e.uncompLen = .done (true, copied) ∧
      linkTarget memory e copied = .done target ∧ made = some (.link target) ∧
      Whole z (archiveFd os oldOff m k) fuel e copied := by
  unfold extractLink at h
  split at h
  · cases h
  split at h
  · cases h
  rename_i memory hmalloc
  obtain ⟨⟨ret, copied⟩, hread, h⟩ := Outcome.bind_eq_done.mp h
  split at h
  · cases h
  rename_i hret
  have htrue : ret = true := by simpa using hret
  subst htrue
  obtain ⟨target, htarget, h⟩ := Outcome.bind_eq_done.mp h
  split at h
  · cases h
  cases h
  refine ⟨memory, copied, target, hmalloc, hread, htarget, rfl, read_whole ?_ hread⟩
  rintro - hneg
  dsimp only at htarget
  rw [linkTarget, if_pos (by omega)] at htarget
  cases htarget

theorem extractFile_goOn {made : Option Made}
    (h : extractFile z fuel os oldOff timestamp m k e = .done (.goOn, made)) :
    os.creat k = true ∧ ∃ written,
      mzExtractZipEntryToFile z (archiveFd os oldOff m k) fuel e (os.write k) =
        .done (true, written) ∧ made = some (.file written) := by
  unfold extractFile at h
  split at h
  · cases h
  rename_i hcreat
  obtain ⟨⟨ret, written⟩, hrun, h⟩ := Outcome.bind_eq_done.mp h
  split at h
  · cases h
  rename_i hret
  split at h
  · cases h
  cases h
  have htrue : ret = true := by simpa using hret
  subst htrue
  exact ⟨by simpa using hcreat, written, hrun, rfl⟩

/-- What a round that goes on has made is whole, except in two cases. -/
theorem extractEntry_goOn {made : Option Made} (hdry : flags &&& MZ_EXTRACT_DRY_RUN = 0)
    (h : extractEntry z fuel os oldOff flags timestamp m k e = .done (.goOn, made)) :
    MadeWhole z fuel os oldOff flags m k e made ↔
      ¬ FilePart z fuel os oldOff flags m k e ∧ ¬ LinkPart z fuel os oldOff flags m k e := by
  obtain ⟨directory, hdir⟩ := extractEntry_done hdry h
  cases directory with
  | true =>
    have hnone : ¬ FilePart z fuel os oldOff flags m k e ∧
        ¬ LinkPart z fuel os oldOff flags m k e := by
      constructor
      · rintro ⟨hopened, -⟩
        cases hdir.symm.trans hopened.notDirectory
      · rintro ⟨hno, -⟩
        cases hdir.symm.trans hno
    rw [extractEntry_directory hdry hdir] at h
    split at h
    · rename_i honly
      cases h
      exact ⟨fun _ => hnone, fun _ => honly⟩
    split at h
    · cases h
    cases h
    exact ⟨fun _ => hnone, fun _ => trivial⟩
  | false =>
    rw [extractEntry_file hdry hdir] at h
    split at h
    · cases h
    rename_i hparent
    split at h
    · rename_i hlink
      obtain ⟨memory, copied, target, hmalloc, hread, htarget, rfl, hwhole⟩ := extractLink_goOn h
      have hfile : ¬ FilePart z fuel os oldOff flags m k e := by
        rintro ⟨hopened, -⟩
        exact absurd (hlink.symm.trans hopened.notLink) (by decide)
      constructor
      · intro hmade
        refine ⟨hfile, ?_⟩
        rintro ⟨-, -, memory', copied', target', hmalloc', hread', htarget', hne⟩
        cases hmalloc.symm.trans hmalloc'
        cases hread.symm.trans hread'
        cases htarget.symm.trans htarget'
        exact hne (whole_unique hmade hwhole)
      · rintro ⟨-, hno⟩
        have heq : target = copied := by
          by_contra hne
          exact hno ⟨hdir, hlink, memory, copied, target, hmalloc, hread, htarget, hne⟩
        rw [heq]
        exact hwhole
    · rename_i hlink
      obtain ⟨hcreat, written, hrun, rfl⟩ := extractFile_goOn h
      have hnolink : ¬ LinkPart z fuel os oldOff flags m k e := by
        rintro ⟨-, hyes, -⟩
        exact hlink hyes
      have hopened : FileOpened os flags m k e :=
        ⟨hdir, by simpa using hparent, Bool.eq_false_iff.mpr hlink, hcreat⟩
      constructor
      · intro hmade
        refine ⟨?_, hnolink⟩
        rintro ⟨-, -, written', hrun', hno⟩
        cases hrun.symm.trans hrun'
        exact hno hmade
      · rintro ⟨hno, -⟩
        by_contra hpart
        refine hno ⟨hopened, ?_, written, hrun, hpart⟩
        by_contra hlen
        exact hpart (toFile_whole (fun hdeflated hneg => hlen ⟨hdeflated, hneg⟩) hrun)

end Failures

/-! ## Complete runs -/

/-- The entries under `zipDir`. -/
def entriesUnder (a : ZipArchive) (zipDir : Bytes) : List ZipEntry :=
  a.pEntries.filter fun e => canonicalDir zipDir <+: e.name a.map

section Complete

variable (z : Inflate) (fuel : Nat) (os : Os) (oldOff : Nat) (a : ZipArchive)
  (zipDir targetDir : Bytes) (flags : Nat) (timestamp : Bool)

/-- What is asked for of a run that returns true: it has visited every entry under `zipDir`, left
none of them, and made what each asks for with its whole contents. -/
structure RunComplete (visits : List Visit) : Prop where
  all : visits.map Visit.target =
    (entriesUnder a zipDir).map fun e =>
      (e, targetPath a.map targetDir (canonicalDir zipDir).length e)
  each : ∀ (k : Nat) (v : Visit), visits[k]? = some v →
    v.roundEnd = .goOn ∧ MadeWhole z fuel os oldOff flags a.map k v.entry v.made

/-- The run comes to entry `e` under `zipDir` as the `k`-th one: the rounds before went on. -/
structure Reaches (k : Nat) (e : ZipEntry) : Prop where
  relative : zipDir.head? ≠ some SLASH
  absolute : targetDir.head? = some SLASH
  entry : (entriesUnder a zipDir)[k]? = some e
  before : ∀ j < k, GoesOn (extractEntry z fuel os oldOff flags timestamp a.map)
    (entriesUnder a zipDir) 0 j

/-- The condition on an archive, the file system and the memory: no regular file that is reached
fails behind its creation, and, in a run that is not left, none passes for extracted though it is
not, and no link gets another target than the contents. -/
structure FailuresReported : Prop where
  files : ∀ k e, Reaches z fuel os oldOff a zipDir targetDir flags timestamp k e →
    ¬ FileFails z fuel os oldOff flags timestamp a.map k e
  parts : (∀ k e, Reaches z fuel os oldOff a zipDir targetDir flags timestamp k e →
      GoesOn (extractEntry z fuel os oldOff flags timestamp a.map) (entriesUnder a zipDir) 0 k) →
    ∀ k e, Reaches z fuel os oldOff a zipDir targetDir flags timestamp k e →
      ¬ FilePart z fuel os oldOff flags a.map k e ∧ ¬ LinkPart z fuel os oldOff flags a.map k e

variable {z fuel os oldOff a zipDir targetDir flags timestamp}

/-- With memory for all paths, `mzExtractRecursive` is the rounds over the entries under
`zipDir`. -/
theorem extract_recursive_rounds {records : List ZipEntry} (hacc : Accepted a records)
    (hmem : ∀ k, os.realloc k = true) (hzip : 0 ∉ zipDir) (hrelative : zipDir.head? ≠ some SLASH)
    (htarget : 0 ∉ targetDir) (habsolute : targetDir.head? = some SLASH)
    (hdir : targetDir.length < 2 ^ 29) :
    mzExtractRecursive z fuel os oldOff a zipDir targetDir flags timestamp true =
      rounds (targetPath a.map targetDir (canonicalDir zipDir).length)
        (extractEntry z fuel os oldOff flags timestamp a.map) (entriesUnder a zipDir) 0 := by
  have hne : targetDir ≠ [] := by
    rintro rfl
    cases habsolute
  obtain ⟨paths, hpaths, heq⟩ := @extractLoop_eq a.map targetDir (canonicalDir zipDir)
    (extractEntry z fuel os oldOff flags timestamp a.map) os (zero_notMem_canonicalDir hzip) hne
    htarget hdir a.pEntries 0 _ false hacc.usable hacc.indexes.sorted .fresh nofun
  rw [mzExtractRecursive, if_neg hrelative, if_neg (not_not.mpr habsolute)]
  refine heq.trans ?_
  rw [fullScan_rounds _ fun k => hpaths k (hmem k)]
  rfl

theorem body_zero {j : Nat} {e : ZipEntry} {r : RoundEnd × Option Made} :
    extractEntry z fuel os oldOff flags timestamp a.map (0 + j) e = .done r ↔
      extractEntry z fuel os oldOff flags timestamp a.map j e = .done r := by
  rw [Nat.zero_add]

/-- A run that is left by a regular file returns true. -/
theorem returns_true_of_fileFails {records : List ZipEntry} (hacc : Accepted a records)
    (hmem : ∀ k, os.realloc k = true) (hzip : 0 ∉ zipDir) (htarget : 0 ∉ targetDir)
    (hdir : targetDir.length < 2 ^ 29) (hdry : flags &&& MZ_EXTRACT_DRY_RUN = 0) {k : Nat}
    {e : ZipEntry} (hreach : Reaches z fuel os oldOff a zipDir targetDir flags timestamp k e)
    (hfail : FileFails z fuel os oldOff flags timestamp a.map k e) :
    ∃ visits, mzExtractRecursive z fuel os oldOff a zipDir targetDir flags timestamp true =
      .done (true, visits) ∧ ∃ v ∈ visits, v.roundEnd = .leave true := by
  obtain ⟨made, hleave⟩ := (extractEntry_leave_true hdry).mpr hfail
  rw [extract_recursive_rounds hacc hmem hzip hreach.relative htarget hreach.absolute hdir]
  exact rounds_leave _ 0 k e hreach.entry hreach.before (body_zero.mpr hleave)

/-- When every entry that is reached goes on, all are reached. -/
theorem all_reached (hrelative : zipDir.head? ≠ some SLASH)
    (habsolute : targetDir.head? = some SLASH)
    (h : ∀ k e, Reaches z fuel os oldOff a zipDir targetDir flags timestamp k e →
      GoesOn (extractEntry z fuel os oldOff flags timestamp a.map) (entriesUnder a zipDir) 0 k) :
    ∀ k, GoesOn (extractEntry z fuel os oldOff flags timestamp a.map)
      (entriesUnder a zipDir) 0 k := by
  intro k
  induction k using Nat.strongRecOn with
  | _ k ih =>
    intro e he
    exact h k e ⟨hrelative, habsolute, he, ih⟩ e he

end Complete

/-! ## A write that fails -/

/-- Everything succeeds but the writes. -/
def fullDisk : Os where
  realloc _ := true
  dirCreateHierarchy _ := true
  malloc _ := some fun _ => 0
  symlink _ := true
  creat _ := true
  read _ _ := true
  write _ := [.failed]
  utime _ := true

end BootableRecovery.Minzip
