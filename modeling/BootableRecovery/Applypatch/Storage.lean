import BootableRecovery.Applypatch.ImgpatchReports
import BootableRecovery.Lib.CString
import BootableRecovery.Lib.Numeral
import BootableRecovery.Lib.Prog
import BootableRecovery.Retouch

/-!
# `applypatch.c`: files and partitions

The operations of `applypatch` on persistent storage, and the functions that load
and save contents. A program stops between any two operations when it is killed.

* `Storage` has the ordinary files and the contents of the partitions; `Step` is
  what an operation does to them.
* `loadPartitionContents`, `loadFileContents`, `saveFileContents`, `freeSpaceForFile`
  and `writeToPartition` model the functions of these names.

`ssize_t` and `size_t` have 32 bits, and `malloc` succeeds.
-/

namespace BootableRecovery.Applypatch

/-! ## Storage -/

/-- The fields of `struct stat` that are copied from one file to another. -/
structure Stat where
  st_mode : Nat
  st_uid : Nat
  st_gid : Nat
  deriving DecidableEq, Repr

/-- `enum PartitionType` -/
inductive PartitionType where
  | MTD
  | EMMC
  deriving DecidableEq, Repr

/-- What is stored: the contents of the ordinary files by their names, and the
contents of the partitions. -/
structure Storage where
  files : Bytes → Option Bytes
  parts : PartitionType → Bytes → Bytes

def Storage.setFile (w : Storage) (name : Bytes) (content : Option Bytes) : Storage :=
  { w with files := Function.update w.files name content }

def Storage.setPart (w : Storage) (type : PartitionType) (partition content : Bytes) : Storage :=
  { w with parts := Function.update w.parts type (Function.update (w.parts type) partition content) }

/-- What `stat`, `fopen` and `fread` of a whole file come to. When only the last
two fail, the size is known. -/
inductive FileRead where
  | statFails
  | readFails (size : Nat) (st : Stat)
  | ok (data : Bytes) (st : Stat)

/-- The operations. `qsort` sorts the indexes of an array of sizes, and puts equal
sizes in any order. `isRegular` is `stat` with the test of the file type. `writeResults`
tells the results of the calls of `write` that
follow, `append` is the effect of one of them. `scribble` and `stuck` stand for a
fault in a decoder: what it has written before is not determined, and the program
does not go on. `backingUp` marks the point before `saveFileContents` is called for a
partition, and whether the source was read; nothing is done there. -/
inductive Op where
  | readFile (name : Bytes)
  | qsort (size : List Nat)
  | openPartition (type : PartitionType) (partition : Bytes)
  | readPartition (type : PartitionType) (partition : Bytes) (pos n : Nat)
  | statfs (name : Bytes)
  | opendir (dir : Bytes)
  | isRegular (path : Bytes)
  | readlink (path : Bytes)
  | openTrunc (name : Bytes)
  | writeResults
  | append (name data : Bytes)
  | fsync (name : Bytes)
  | chmod (name : Bytes) (mode : Nat)
  | chown (name : Bytes) (uid gid : Nat)
  | rename (old new : Bytes)
  | unlink (name : Bytes)
  | beginWrite (type : PartitionType) (partition : Bytes)
  | finishWrite (type : PartitionType) (partition data : Bytes)
  | scribble (name : Bytes)
  | stuck
  | backingUp (source_read : Bool)

/-- The answers; `true` is success. `statfs` has `f_bsize` and `f_bfree`. -/
@[reducible] def Ans : Op → Type
  | .readFile _ => FileRead
  | .qsort _ => List Nat
  | .openPartition _ _ => Bool
  | .readPartition _ _ _ _ => Option Bytes
  | .statfs _ => Option (Nat × Nat)
  | .opendir _ => Option (List Bytes)
  | .isRegular _ => Bool
  | .readlink _ => Option Bytes
  | .openTrunc _ => Bool
  | .writeResults => List Int
  | .chmod _ _ => Bool
  | .chown _ _ _ => Bool
  | .rename _ _ => Bool
  | .beginWrite _ _ => Bool
  | .finishWrite _ _ _ => Bool
  | .stuck => Empty
  | _ => Unit

/-- `compare_size_indices` -/
def compareSizeIndices (size_array : List Nat) (aa bb : Nat) : Int :=
  if size_array.getD aa 0 < size_array.getD bb 0 then -1
  else if size_array.getD bb 0 < size_array.getD aa 0 then 1
  else 0

/-- One operation. Every call can fail. A partition that is being written can hold
anything. -/
inductive Step (w : Storage) : (o : Op) → Ans o → Storage → Prop where
  | readFile_ok {name data : Bytes} (st : Stat) (h : w.files name = some data) :
      Step w (.readFile name) (.ok data st) w
  | readFile_statFails (name : Bytes) : Step w (.readFile name) .statFails w
  | readFile_readFails (name : Bytes) (size : Nat) (st : Stat) :
      Step w (.readFile name) (.readFails size st) w
  | qsort {size index : List Nat} (hperm : index.Perm (List.range size.length))
      (hsorted : index.Pairwise fun aa bb => compareSizeIndices size aa bb ≤ 0) :
      Step w (.qsort size) index w
  | openPartition (type : PartitionType) (partition : Bytes) (found : Bool) :
      Step w (.openPartition type partition) found w
  | readPartition_ok {type : PartitionType} {partition : Bytes} {pos n : Nat}
      (h : pos + n ≤ (w.parts type partition).length) :
      Step w (.readPartition type partition pos n) (some (slice (w.parts type partition) pos n)) w
  | readPartition_short (type : PartitionType) (partition : Bytes) (pos n : Nat) :
      Step w (.readPartition type partition pos n) none w
  | statfs (name : Bytes) (sf : Option (Nat × Nat)) : Step w (.statfs name) sf w
  | opendir_ok (dir : Bytes) {names : List Bytes} (h : ∀ d_name ∈ names, 47 ∉ d_name) :
      Step w (.opendir dir) (some names) w
  | opendir_fails (dir : Bytes) : Step w (.opendir dir) none w
  | isRegular (path : Bytes) (regular : Bool) : Step w (.isRegular path) regular w
  | readlink (path : Bytes) (link : Option Bytes) : Step w (.readlink path) link w
  | openTrunc_ok (name : Bytes) : Step w (.openTrunc name) true (w.setFile name (some []))
  | openTrunc_fails (name : Bytes) : Step w (.openTrunc name) false w
  | writeResults (script : List Int) : Step w .writeResults script w
  | append (name data : Bytes) :
      Step w (.append name data) () (w.setFile name ((w.files name).map (· ++ data)))
  | fsync (name : Bytes) : Step w (.fsync name) () w
  | chmod (name : Bytes) (mode : Nat) (ok : Bool) : Step w (.chmod name mode) ok w
  | chown (name : Bytes) (uid gid : Nat) (ok : Bool) : Step w (.chown name uid gid) ok w
  | rename_ok {old new : Bytes} {data : Bytes} (h : w.files old = some data) :
      Step w (.rename old new) true ((w.setFile old none).setFile new (some data))
  | rename_fails (old new : Bytes) : Step w (.rename old new) false w
  | unlink_ok (name : Bytes) : Step w (.unlink name) () (w.setFile name none)
  | unlink_fails (name : Bytes) : Step w (.unlink name) () w
  | beginWrite_ok (type : PartitionType) (partition content : Bytes) :
      Step w (.beginWrite type partition) true (w.setPart type partition content)
  | beginWrite_fails (type : PartitionType) (partition : Bytes) :
      Step w (.beginWrite type partition) false w
  | finishWrite_ok (type : PartitionType) (partition data rest : Bytes) :
      Step w (.finishWrite type partition data) true (w.setPart type partition (data ++ rest))
  | finishWrite_fails (type : PartitionType) (partition data content : Bytes) :
      Step w (.finishWrite type partition data) false (w.setPart type partition content)
  | scribble (name content : Bytes) : Step w (.scribble name) () (w.setFile name (some content))
  | backingUp (source_read : Bool) : Step w (.backingUp source_read) () w

abbrev Run := Prog Op Ans

/-- One operation. -/
def perform (o : Op) : Run (Ans o) := Prog.perform o

/-- The program does not go on: it has crashed, or it is in a loop without end. -/
def crash {α : Type} : Run α := .op .stuck Empty.elim

/-- `CACHE_TEMP_SOURCE` -/
def CACHE_TEMP_SOURCE : Bytes := ascii "/cache/saved.file"

/-- The name refers to a partition. -/
def isPartition (filename : Bytes) : Bool :=
  (ascii "MTD:").isPrefixOf filename || (ascii "EMMC:").isPrefixOf filename

def partitionType (filename : Bytes) : PartitionType :=
  if (ascii "MTD:").isPrefixOf filename then .MTD else .EMMC

/-- The tokens between the colons of a name. -/
def nameTokens (filename : Bytes) : List Bytes :=
  strtokAll (ascii ":") filename.length filename

/-! ## SHA-1 strings -/

/-- The value of a hexadecimal digit. -/
def hexDigit (c : UInt8) : Option Nat :=
  if 48 ≤ c ∧ c ≤ 57 then some (c.toNat - 48)
  else if 97 ≤ c ∧ c ≤ 102 then some (c.toNat - 97 + 10)
  else if 65 ≤ c ∧ c ≤ 70 then some (c.toNat - 65 + 10)
  else none

/-- The bytes that pairs of digits stand for. -/
def hexBytes : Bytes → Option Bytes
  | [] => some []
  | [_] => none
  | hi :: lo :: ps => do
    let h ← hexDigit hi
    let l ← hexDigit lo
    let rest ← hexBytes ps
    some (UInt8.ofNat (16 * h + l) :: rest)

/-- `ParseSha1`: 40 digits and the end of the string. -/
def parseSha1 (str : Bytes) : Option Bytes := if str.length = 40 then hexBytes str else none

/-! ## Loading -/

/-- `FileContents`; `data` is `none` for NULL, and has `size` bytes otherwise. -/
structure FileContents where
  data : Option Bytes
  size : Nat
  sha1 : Bytes
  st : Stat
  deriving DecidableEq, Repr

section Model

variable (sha : Bytes → Bytes)

/-- The end of `loadFileContents` for an ordinary file. -/
def loadedFile (retouch_flag : Bool) (file : FileContents) : FileRead → Int × FileContents
  | .statFails => (-1, file)
  | .readFails size st => (-1, { file with size := size, st := st })
  | .ok data st =>
    match Retouch.LoadFileContents sha data retouch_flag with
    | none => (-1, { file with size := data.length, st := st })
    | some (data, sha1) => (0, ⟨some data, data.length, sha1, st⟩)

/-- `strtol(size_str, NULL, 10)`, stored in a `size_t`. -/
def parseSize (size_str : Bytes) : Nat :=
  toU32 (max (-2 ^ 31) (min (2 ^ 31 - 1) (atoi size_str)))

/-- The `(size, sha1)` pairs of a partition name, from pair `i` on; `none` for a size that
is 0. A missing size is read through a NULL pointer. -/
def partitionPairs (tokens : List Bytes) : Nat → Nat → Outcome (Option (List (Nat × Option Bytes)))
  | 0, _ => .done (some [])
  | n + 1, i =>
    match tokens[2 + 2 * i]? with
    | none => .fault
    | some size_str =>
      if parseSize size_str = 0 then .done none
      else do
        let rest ← partitionPairs tokens n (i + 1)
        .done (rest.map ((parseSize size_str, tokens[3 + 2 * i]?) :: ·))

/-- What the loop over the pairs does with the next bytes of the partition. -/
inductive PairTest where
  | matched
  | next
  | bad
  | crash

/-- The test of a pair against the bytes that were read so far. -/
def testPair (data : Bytes) : Option Bytes → PairTest
  | none => .crash
  | some sha1sum =>
    match parseSha1 sha1sum with
    | none => .bad
    | some parsed_sha => if sha data = parsed_sha then .matched else .next

/-- Read up to the size of the next pair. -/
def readMore (type : PartitionType) (partition : Bytes) (pos next : Nat) : Run (Option Bytes) :=
  if 0 < next then perform (.readPartition type partition pos next) else Prog.ret (some [])

/-- The loop over the pairs, in the order of the sorted indexes. -/
def partitionLoop (type : PartitionType) (partition : Bytes) :
    List (Nat × Option Bytes) → Bytes → FileContents → Run (Int × FileContents)
  | [], _, file => Prog.ret (-1, file)
  | (size, sha1sum) :: pairs, data, file => do
    let read ← readMore type partition data.length (size - data.length)
    match read with
    | none => Prog.ret (-1, file)
    | some p =>
      let data := data ++ p
      let file := { file with size := data.length }
      match testPair sha data sha1sum with
      | .crash => crash
      | .bad => Prog.ret (-1, file)
      | .matched => Prog.ret (0, ⟨some data, data.length, sha data, ⟨0o644, 0, 0⟩⟩)
      | .next => partitionLoop type partition pairs data file

/-- The pairs in the order of the indexes. -/
def inOrder (pairs : List (Nat × Option Bytes)) (index : List Nat) : List (Nat × Option Bytes) :=
  index.filterMap (pairs[·]?)

/-- Read an open partition. Without pairs the largest size is read outside its array. -/
def readPairs (type : PartitionType) (partition : Bytes) (pairs : List (Nat × Option Bytes))
    (file : FileContents) : Run (Int × FileContents) :=
  if pairs = [] then crash
  else partitionLoop sha type partition pairs [] { file with size := 0 }

/-- `LoadPartitionContents` behind the parsing of the name. -/
def loadPairs (type : PartitionType) (partition : Bytes) (pairs : List (Nat × Option Bytes))
    (file : FileContents) : Run (Int × FileContents) := do
  let index ← perform (.qsort (pairs.map (·.1)))
  let found ← perform (.openPartition type partition)
  if found then readPairs sha type partition (inOrder pairs index) file else Prog.ret (-1, file)

/-- `LoadPartitionContents`. A name without a partition is a NULL pointer. -/
def loadPartitionContents (filename : Bytes) (file : FileContents) : Run (Int × FileContents) :=
  match (nameTokens filename)[1]? with
  | none => crash
  | some partition =>
    match partitionPairs (nameTokens filename) ((filename.count 58 - 1) / 2) 0 with
    | .done (some pairs) => loadPairs sha (partitionType filename) partition pairs file
    | .done none => Prog.ret (-1, file)
    | _ => crash

/-- `LoadFileContents` -/
def loadFileContents (filename : Bytes) (file : FileContents) (retouch_flag : Bool) :
    Run (Int × FileContents) :=
  let file := { file with data := none }
  if isPartition filename then loadPartitionContents sha filename file
  else do
    let r ← perform (.readFile filename)
    Prog.ret (loadedFile sha retouch_flag file r)

/-! ## Free space -/

/-- What `FreeSpaceForFile` makes of the result of `statfs`: the product is cut to a
`size_t`, and -1 is stored in one. -/
def freeSpace : Option (Nat × Nat) → Nat
  | some (f_bsize, f_bfree) => toU32 (f_bsize * f_bfree : Nat)
  | none => toU32 (-1)

/-- `FreeSpaceForFile` -/
def freeSpaceForFile (filename : Bytes) : Run Nat := do
  let sf ← perform (.statfs filename)
  Prog.ret (freeSpace sf)

/-! ## Saving -/

/-- The loop of `FileSink`: what each call of `write` takes, and the results that are
left. A call takes no more than it is given; without results left it fails. -/
def fileWrites : Bytes → List Int → List Bytes × List Int
  | _, [] => ([], [])
  | data, wrote :: script =>
    if data = [] then ([], wrote :: script)
    else if wrote ≤ 0 then ([], script)
    else
      let r := fileWrites (data.drop wrote.toNat) script
      (data.take wrote.toNat :: r.1, r.2)

def appendAll (name : Bytes) : List Bytes → Run Unit
  | [] => Prog.ret ()
  | data :: writes => do
    perform (.append name data)
    appendAll name writes

/-- `SaveFileContents`. `write` fails on a NULL pointer. -/
def saveFileContents (filename : Bytes) (file : FileContents) : Run Int := do
  let opened ← perform (.openTrunc filename)
  if !opened then Prog.ret (-1)
  else
    let script ← perform .writeResults
    let writes := (fileWrites (file.data.getD []) script).1
    appendAll filename writes
    if writes.flatten.length ≠ file.size then Prog.ret (-1)
    else
      perform (.fsync filename)
      let moded ← perform (.chmod filename file.st.st_mode)
      if !moded then Prog.ret (-1)
      else
        let owned ← perform (.chown filename file.st.st_uid file.st.st_gid)
        Prog.ret (if owned then 0 else -1)

/-- A partition that cannot be opened for writing: for EMMC, `fopen` is not checked. -/
def openFailed : PartitionType → Run Int
  | .MTD => Prog.ret (-1)
  | .EMMC => crash

/-- `WriteToPartition` -/
def writeToPartition (data target : Bytes) : Run Int :=
  match (nameTokens target)[1]? with
  | none => Prog.ret (-1)
  | some partition => do
    let opened ← perform (.beginWrite (partitionType target) partition)
    if !opened then openFailed (partitionType target)
    else
      let ok ← perform (.finishWrite (partitionType target) partition data)
      Prog.ret (if ok then 0 else -1)

end Model

end BootableRecovery.Applypatch
