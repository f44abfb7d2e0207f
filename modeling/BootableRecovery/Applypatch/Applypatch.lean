import BootableRecovery.Applypatch.Freecache

/-!
# `applypatch.c`: patching a file or a partition

`applypatch` finds a source with a listed SHA-1 (the source file, or the copy in the
cache), and `generateTarget` applies the patch for it: it backs up the source when it
has to, decodes into `<target>.patch` or into memory, checks the hash and moves the
result to its place.

* `Output.file` and `Output.memory` are `FileSink` and `MemorySink`. The results of
  `write` are given beforehand, and the bytes that are written are kept.
* `generateTarget` and `applypatch` model the functions of these names.
-/

namespace BootableRecovery.Applypatch

/-! ## Sinks -/

/-- The bytes that `SHA_update` is given are kept. A negative length makes it read outside
the object. -/
def shaUpdate (ctx b : Bytes) (i n : Int) : Outcome Bytes := do
  let d ← loadRange b i n
  .done (ctx ++ d)

/-- An open file: what the calls of `write` took so far, and the results to come. -/
structure FileToken where
  writes : List Bytes
  script : List Int

/-- The contents of the file. -/
def FileToken.stored (t : FileToken) : Bytes := t.writes.flatten

/-- The bytes of a call of the sink, which can be negative in number. -/
def sinkRange (b : Bytes) (i n : Int) : Outcome Bytes :=
  if n ≤ 0 then .done [] else load b i n.toNat

/-- `FileSink` -/
def Output.file : Output where
  Ctx := Bytes
  Token := FileToken
  update := shaUpdate
  sink t b i n := do
    let d ← sinkRange b i n
    let r := fileWrites d t.script
    .done ((r.1.flatten.length : Int), ⟨t.writes ++ r.1, r.2⟩)

/-- `MemorySink` with a buffer of `size` bytes. -/
def Output.memory (size : Nat) : Output where
  Ctx := Bytes
  Token := Bytes
  update := shaUpdate
  sink t b i n :=
    if (size : Int) - t.length < n then .done (-1, t)
    else do
      let d ← loadRange b i n
      .done (n, t ++ d)

/-! ## `GenerateTarget` -/

/-- `Value` of `edify/expr.h`. -/
structure Value where
  isBlob : Bool
  data : Bytes
  deriving DecidableEq, Repr

/-- The libraries, the hash and the step budget of the decoders. -/
structure Env where
  bz : Bz2
  z : Zlib
  sha : Bytes → Bytes
  fuel : Nat

/-- The arguments of `applypatch`. -/
structure Args where
  source_filename : Bytes
  target_filename : Bytes
  target_sha1_str : Bytes
  target_size : Nat
  patches : List (Bytes × Value)
  bonus_data : Option Bytes

/-- `FindMatchingPatch`, and the patch at that index. -/
def findMatchingPatch (sha1 : Bytes) (patches : List (Bytes × Value)) : Option Value :=
  (patches.find? fun p => parseSha1 p.1 = some sha1).map (·.2)

/-- The directory on the filesystem of the target. -/
def targetFs (target_filename : Bytes) : Bytes :=
  match (target_filename.drop 1).idxOf? 47 with
  | some i => target_filename.take (i + 1)
  | none => target_filename

/-- The name of the file that the patched output is written to. -/
def outname (target_filename : Bytes) : Bytes := target_filename ++ ascii ".patch"

/-- The test for enough free space, with a 50% margin of error. -/
def enoughSpace (free_space target_size : Nat) : Bool :=
  256 * 1024 < free_space && toU32 (target_size * 3) / 2 < free_space

/-- What the source files and the patches for them are. -/
structure Sources where
  source_file : FileContents
  source_patch_value : Option Value
  copy_file : FileContents
  copy_patch_value : Option Value

/-- `source_to_use` and `patch` -/
def Sources.toUse (s : Sources) : FileContents × Option Value :=
  match s.source_patch_value with
  | some patch => (s.source_file, some patch)
  | none => (s.copy_file, s.copy_patch_value)

section Model

variable (env : Env) (a : Args) (s : Sources)

/-- Save the source in the cache; `false` when it cannot be backed up. -/
def backUp : Run Bool := do
  let r ← makeFreeSpaceOnCache s.source_file.size
  if r < 0 then Prog.ret false
  else
    let r ← saveFileContents CACHE_TEMP_SOURCE s.source_file
    Prog.ret (decide (¬r < 0))

/-- The back-up for a partition. -/
def backUpPartition : Run Bool := do
  perform (.backingUp s.source_patch_value.isSome)
  backUp s

/-- The back-up of an ordinary file, which is deleted to make room. -/
def moveToCache : Run Bool :=
  if isPartition a.source_filename then Prog.ret false
  else do
    let ok ← backUp s
    if !ok then Prog.ret false
    else
      perform (.unlink a.source_filename)
      let _ ← freeSpaceForFile (targetFs a.target_filename)
      Prog.ret true

/-- Is there enough room for the target? Only asked before the first try. -/
def askSpace (retry : Nat) : Run Bool :=
  if 0 < retry then do
    let free_space ← freeSpaceForFile (targetFs a.target_filename)
    Prog.ret (enoughSpace free_space a.target_size)
  else Prog.ret false

/-- The first part of a try: `none` when it fails, or else the values of `retry` and
`made_copy` behind it. -/
def prepare (retry : Nat) (made_copy : Bool) : Run (Option (Nat × Bool)) :=
  if isPartition a.target_filename then do
    let ok ← backUpPartition s
    Prog.ret (if ok then some (0, true) else none)
  else do
    let enough_space ← askSpace a retry
    if enough_space then Prog.ret (some (retry, made_copy))
    else if s.source_patch_value.isSome then do
      let ok ← moveToCache a s
      Prog.ret (if ok then some (0, true) else none)
    else Prog.ret (some (0, made_copy))

/-- What the decoder leaves: the hashed bytes and, for a partition, the buffer. -/
structure Decoded where
  ctx : Bytes
  buffer : Bytes

/-- `SHA_init`, and the sink with nothing written. -/
def startFile (script : List Int) : Written .file := ⟨(⟨[], script⟩ : FileToken), ([] : Bytes)⟩

def startMemory (size : Nat) : Written (.memory size) := ⟨([] : Bytes), ([] : Bytes)⟩

/-- The writes of a decoder to `<target>.patch`. -/
def fileDecoded : Outcome (Option (Int × Written .file)) → Run (Option (Int × Decoded))
  | .done none => Prog.ret none
  | .done (some (result, w)) => do
    appendAll (outname a.target_filename) (FileToken.writes w.token)
    perform (.fsync (outname a.target_filename))
    Prog.ret (some (result, ⟨w.ctx, []⟩))
  | _ => do
    perform (.scribble (outname a.target_filename))
    crash

/-- Decode into `<target>.patch`. The result is the return value of the decoder, or `none`
for an unknown format. -/
def decodeToFile (source patch : Bytes) : Run (Option (Int × Decoded)) := do
  let script ← perform .writeResults
  fileDecoded a
    (patchAttempt env.bz env.z .file env.fuel source patch a.bonus_data (startFile script))

/-- Decode into memory. -/
def decodeToMemory (source patch : Bytes) : Run (Option (Int × Decoded)) :=
  match patchAttempt env.bz env.z (.memory a.target_size) env.fuel source patch a.bonus_data
      (startMemory a.target_size) with
  | .done none => Prog.ret none
  | .done (some (result, w)) => Prog.ret (some (result, ⟨w.ctx, w.token⟩))
  | _ => crash

/-- Open the output and decode the patch; `none` is the return value 1. -/
def decode (source patch : Bytes) : Run (Option (Int × Decoded)) :=
  if isPartition a.target_filename then decodeToMemory env a source patch
  else do
    let opened ← perform (.openTrunc (outname a.target_filename))
    if opened then decodeToFile env a source patch else Prog.ret none

/-- The second part of a try. -/
def decodeSource : Run (Option (Int × Decoded)) :=
  match s.toUse with
  | (_, none) => crash
  | (source_to_use, some patch) =>
    if patch.isBlob then decode env a (source_to_use.data.getD []) patch.data else Prog.ret none

/-- Delete the output of a try that failed. -/
def dropOutput : Run Unit :=
  if isPartition a.target_filename then Prog.ret ()
  else perform (.unlink (outname a.target_filename))

/-- The end of a try whose decoder did not return 0: give up, or try once more. -/
def tryAgain (retry : Nat) (again : Run (Option (Decoded × Bool))) :
    Run (Option (Decoded × Bool)) :=
  if retry = 0 then Prog.ret none
  else do
    dropOutput a
    again

/-- One turn of the loop; `none` when the function returns an error, or else what was
decoded and `made_copy`. -/
def turn (retry : Nat) (made_copy : Bool) (again : Run (Option (Decoded × Bool))) :
    Run (Option (Decoded × Bool)) := do
  let prepared ← prepare a s retry made_copy
  match prepared with
  | none => Prog.ret none
  | some (retry, made_copy) => do
    let decoded ← decodeSource env a s
    match decoded with
    | none => Prog.ret none
    | some (result, d) =>
      if result ≠ 0 then tryAgain a retry again else Prog.ret (some (d, made_copy))

/-- The loop, which is done at most twice. -/
def turns : Nat → Run (Option (Decoded × Bool))
  | 0 => turn env a s 0 false (Prog.ret none)
  | retry + 1 => turn env a s (retry + 1) false (turns retry)

/-- Move the output to the target. -/
def install (d : Decoded) : Run Int :=
  if isPartition a.target_filename then do
    let r ← writeToPartition d.buffer a.target_filename
    Prog.ret (if r ≠ 0 then 1 else 0)
  else do
    let moded ← perform (.chmod (outname a.target_filename) s.toUse.1.st.st_mode)
    if !moded then Prog.ret 1
    else
      let owned ← perform (.chown (outname a.target_filename) s.toUse.1.st.st_uid
        s.toUse.1.st.st_gid)
      if !owned then Prog.ret 1
      else
        let renamed ← perform (.rename (outname a.target_filename) a.target_filename)
        Prog.ret (if renamed then 0 else 1)

/-- Delete the copy that this run has made. -/
def removeCopy (made_copy : Bool) : Run Unit :=
  if made_copy then perform (.unlink CACHE_TEMP_SOURCE) else Prog.ret ()

/-- `GenerateTarget` behind the loop. -/
def finish (target_sha1 : Bytes) (d : Decoded) (made_copy : Bool) : Run Int :=
  if env.sha d.ctx ≠ target_sha1 then Prog.ret 1
  else do
    let r ← install a s d
    if r ≠ 0 then Prog.ret r
    else
      removeCopy made_copy
      Prog.ret 0

/-- `GenerateTarget` -/
def generateTarget (target_sha1 : Bytes) : Run Int := do
  let r ← turns env a s 1
  match r with
  | none => Prog.ret 1
  | some (d, made_copy) => finish env a s target_sha1 d made_copy

/-! ## `applypatch` -/

/-- `"-"` as the target is the source. -/
def resolve : Args :=
  if a.target_filename = ascii "-" then { a with target_filename := a.source_filename } else a

/-- The patch for a file that was loaded. -/
def patchFor (file : FileContents) : Option Value :=
  match file.data with
  | none => none
  | some _ => findMatchingPatch file.sha1 a.patches

/-- Load the source, unless the target was loaded and is the same file. -/
def loadSource (file : FileContents) : Run FileContents :=
  if file.data = none ∨ a.target_filename ≠ a.source_filename then do
    let r ← loadFileContents env.sha a.source_filename file true
    Prog.ret r.2
  else Prog.ret file

/-- Use the source, or else the copy in the cache. -/
def patchFrom (stack : FileContents) (target_sha1 : Bytes) (source_file : FileContents) :
    Run Int :=
  match patchFor a source_file with
  | some patch => generateTarget env a ⟨source_file, some patch, { stack with data := none }, none⟩
      target_sha1
  | none => do
    let r ← loadFileContents env.sha CACHE_TEMP_SOURCE stack true
    if r.1 < 0 then Prog.ret 1
    else
      match patchFor a r.2 with
      | none => Prog.ret 1
      | some patch =>
        generateTarget env a ⟨{ source_file with data := none }, none, r.2, some patch⟩ target_sha1

/-- `applypatch` with the target name resolved and the hash parsed. -/
def applypatchTo (stack : FileContents) (target_sha1 : Bytes) : Run Int := do
  let r ← loadFileContents env.sha a.target_filename stack true
  if r.1 = 0 ∧ r.2.sha1 = target_sha1 then Prog.ret 0
  else do
    let source_file ← loadSource env a r.2
    patchFrom env a stack target_sha1 source_file

/-- `applypatch`; `stack` has the values of its variables before they are set. -/
def applypatch (stack : FileContents) : Run Int :=
  match parseSha1 a.target_sha1_str with
  | none => Prog.ret 1
  | some target_sha1 => applypatchTo env (resolve a) stack target_sha1

end Model

end BootableRecovery.Applypatch
