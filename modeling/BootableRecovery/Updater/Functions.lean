import BootableRecovery.CommandPipe
import BootableRecovery.Applypatch.Sha1Codec
import BootableRecovery.Edify.Functions
import BootableRecovery.Updater.FileGetProp

/-!
# `updater/install.c`: the functions of an update script

The functions that `RegisterInstallFunctions` registers. What they ask of the system, of the
package and of other modules is a request that a system answers; a script changes the device
with requests only, and the screen of the recovery through the pipe.

Main results:
* `call_keeps`: a function makes the requests that are listed for it (`Makes`), after its
  arguments are evaluated, and stops at an error of an argument.
* `updater_stops`: after the first error no request is made and nothing is sent.
* `queries_change_nothing`: a script that only asks leaves the device as it is.
-/

namespace BootableRecovery.Updater.Install
open Edify.Eval Abortable CommandPipe

/-! ## Requests -/

inductive Request where
  | mkdir (path : Bytes) (mode : Nat)
  | mtd_find_partition_by_name (name : Bytes)
  | mtd_mount_partition (partition mount_point filesystem : Bytes)
  | mount (location mount_point fs_type : Bytes)
  | find_mounted_volume_by_mount_point (mount_point : Bytes)
  | unmount_mounted_volume (mount_point : Bytes)
  | mtd_write_partition (partition : Bytes)
  | mtd_erase_blocks (partition : Bytes)
  | mtd_write_close (partition : Bytes)
  | make_ext4fs (location : Bytes) (fs_size : Int) (mount_point : Bytes)
  | unlink (path : Bytes)
  | dirUnlinkHierarchy (path : Bytes)
  | mzExtractRecursive (zip_path dest_path : Bytes)
  | mzFindZipEntry (zip_path : Bytes)
  | fopen (path : Bytes)
  | mzExtractZipEntryToFile (zip_path dest_path : Bytes)
  | mzExtractZipEntryToBuffer (zip_path : Bytes)
  | symlink (target src : Bytes)
  | dirSetHierarchyPermissions (path : Bytes) (uid gid dir_mode file_mode : Int)
  | chown (path : Bytes) (uid gid : Int)
  | chmod (path : Bytes) (mode : Int)
  | property_get (key : Bytes)
  | readFile (filename : Bytes)
  | restore_raw_partition (partition : Bytes) (filename : Option Bytes)
  | CacheSizeCheck (bytes : Nat)
  | applypatch (source_filename target_filename target_sha1 : Bytes) (target_size : Nat)
      (patches : List (Bytes × Option Bytes))
  | applypatch_check (filename : Bytes) (sha1s : List Bytes)
  | execv (args : List Bytes)
  | LoadFileContents (filename : Bytes)
  deriving DecidableEq, Repr

/-- A system call that fails gives `errno`. -/
abbrev Request.Answer : Request → Type
  | mtd_find_partition_by_name _ => Bool
  | find_mounted_volume_by_mount_point _ => Bool
  | unmount_mounted_volume _ => Unit
  | mtd_write_partition _ => Bool
  | mtd_erase_blocks _ => Bool
  | mtd_write_close _ => Bool
  | make_ext4fs .. => Int
  | mzExtractRecursive .. => Bool
  | mzFindZipEntry _ => Bool
  | mzExtractZipEntryToFile .. => Bool
  | mzExtractZipEntryToBuffer _ => Option Bytes
  | dirSetHierarchyPermissions .. => Unit
  | property_get _ => Bytes
  | readFile _ => PropFile
  | restore_raw_partition .. => Int
  | CacheSizeCheck _ => Int
  | applypatch .. => Int
  | applypatch_check .. => Int
  | execv _ => Nat
  | LoadFileContents _ => Except Nat Bytes
  | _ => Option Nat

/-- A device with the code that the functions call, and the options of the build. -/
structure Sys (D : Type) where
  answer : (r : Request) → D → r.Answer × D
  strerror : Nat → Bytes
  SHA : Bytes → Bytes
  USE_EXT4 : Bool

def ENOENT : Nat := 2

def EEXIST : Nat := 17

/-- What `state->cookie` points to, and the device. -/
structure UpdaterInfo (fmt : Formats) (D : Type) where
  cmd_pipe : List (Line fmt)
  device : D

section Source

variable {fmt : Formats} {D : Type} (sys : Sys D) (w : Nat) (name : Bytes)

abbrev Work (fmt : Formats) (D α : Type) := Comp (UpdaterInfo fmt D) α

abbrev Argument (fmt : Formats) (D : Type) := Arg (UpdaterInfo fmt D)

def request (r : Request) : Work fmt D r.Answer := fun s =>
  let (a, device) := sys.answer r s.cookie.device
  .done (some a, { s with cookie := { s.cookie with device := device } })

/-- `fprintf` to `cmd_pipe` -/
def send (lines : List (Line fmt)) : Work fmt D Unit :=
  act fun s => { s with cookie := { s.cookie with cmd_pipe := s.cookie.cmd_pipe ++ lines } }

/-- `ErrorAbort` has a buffer of 4096 bytes. -/
def ErrorAbort {α : Type} (msg : Bytes) : Work fmt D α := errorAbort (msg.take 4095)

/-- A function that has the wrong number of arguments evaluates none of them. -/
def expects {α : Type} (what : Bytes) (argc : Nat) : Work fmt D α :=
  ErrorAbort (name ++ ascii "() expects " ++ what ++ ascii ", got " ++ printNat 10 argc)

def empty {α : Type} (what : Bytes) : Work fmt D α :=
  ErrorAbort (what ++ ascii " argument to " ++ name ++ ascii "() can't be empty")

/-- What goes wrong is printed and counted. -/
def complain (errno : Option Nat) (text : Bytes → Bytes) : Work fmt D Nat :=
  match errno with
  | none => ret 0
  | some errno => do
    emit (.stderr (text (sys.strerror errno)))
    ret 1

/-! ## The functions -/

/-- `MountFn` behind the checks of its arguments -/
def mountVolume (fs_type partition_type location mount_point : Bytes) : Work fmt D Value := do
  let _ ← request sys (.mkdir mount_point 0o755)
  if partition_type = ascii "MTD" then
    if ← request sys (.mtd_find_partition_by_name location) then
      let bad ← complain sys (← request sys (.mtd_mount_partition location mount_point fs_type))
        fun strerror => ascii "mtd mount of " ++ location ++ ascii " failed: " ++ strerror ++ [10]
      ret (StringValue (if bad = 0 then mount_point else []))
    else
      emit (.stderr (name ++ ascii ": no mtd partition named \"" ++ location ++ ascii "\""))
      ret (StringValue [])
  else
    let bad ← complain sys (← request sys (.mount location mount_point fs_type))
      fun strerror => name ++ ascii ": failed to mount " ++ location ++ ascii " at " ++
        mount_point ++ ascii ": " ++ strerror ++ [10]
    ret (StringValue (if bad = 0 then mount_point else []))

def MountFn : List (Argument fmt D) → Work fmt D Value
  | [a₀, a₁, a₂, a₃] => do
    let fs_type ← Evaluate a₀
    let partition_type ← Evaluate a₁
    let location ← Evaluate a₂
    let mount_point ← Evaluate a₃
    if fs_type = [] then empty name (ascii "fs_type")
    else if partition_type = [] then empty name (ascii "partition_type")
    else if location = [] then empty name (ascii "location")
    else if mount_point = [] then empty name (ascii "mount_point")
    else mountVolume sys name fs_type partition_type location mount_point
  | argv => expects name (ascii "4 args") argv.length

def IsMountedFn : List (Argument fmt D) → Work fmt D Value
  | [a] => do
    let mount_point ← Evaluate a
    if mount_point = [] then empty (ascii "unmount") (ascii "mount_point")
    else
      let mounted ← request sys (.find_mounted_volume_by_mount_point mount_point)
      ret (StringValue (if mounted then mount_point else []))
  | argv => expects name (ascii "1 arg") argv.length

def UnmountFn : List (Argument fmt D) → Work fmt D Value
  | [a] => do
    let mount_point ← Evaluate a
    if mount_point = [] then empty (ascii "unmount") (ascii "mount_point")
    else if ← request sys (.find_mounted_volume_by_mount_point mount_point) then
      request sys (.unmount_mounted_volume mount_point)
      ret (StringValue mount_point)
    else
      emit (.stderr (ascii "unmount of " ++ mount_point ++ ascii " failed; no such volume\n"))
      ret (StringValue [])
  | argv => expects name (ascii "1 arg") argv.length

/-- A partition is erased; the text says which of the steps failed. -/
def eraseMtd (location : Bytes) : Work fmt D (Option Bytes) := do
  if !(← request sys (.mtd_find_partition_by_name location)) then
    ret (some (ascii ": no mtd partition named \""))
  else if !(← request sys (.mtd_write_partition location)) then
    ret (some (ascii ": can't write \""))
  else if !(← request sys (.mtd_erase_blocks location)) then
    let _ ← request sys (.mtd_write_close location)
    ret (some (ascii ": failed to erase \""))
  else if !(← request sys (.mtd_write_close location)) then
    ret (some (ascii ": failed to close \""))
  else ret none

/-- `FormatFn` behind the checks of its arguments. For another file system it returns NULL and
no message. -/
def formatVolume (fs_type partition_type location fs_size mount_point : Bytes) :
    Work fmt D Value :=
  if partition_type = ascii "MTD" then do
    match ← eraseMtd sys location with
    | none => ret (StringValue location)
    | some text => do
      emit (.stderr (name ++ text ++ location ++ ascii "\""))
      ret (StringValue [])
  else if sys.USE_EXT4 ∧ fs_type = ascii "ext4" then do
    let status ← request sys (.make_ext4fs location (atoi fs_size) mount_point)
    if status = 0 then ret (StringValue location)
    else
      emit (.stderr (name ++ ascii ": make_ext4fs failed (" ++ printInt status ++ ascii ") on " ++
        location))
      ret (StringValue [])
  else do
    emit (.stderr (name ++ ascii ": unsupported fs_type \"" ++ fs_type ++
      ascii "\" partition_type \"" ++ partition_type ++ ascii "\""))
    giveUp

def FormatFn : List (Argument fmt D) → Work fmt D Value
  | [a₀, a₁, a₂, a₃, a₄] => do
    let fs_type ← Evaluate a₀
    let partition_type ← Evaluate a₁
    let location ← Evaluate a₂
    let fs_size ← Evaluate a₃
    let mount_point ← Evaluate a₄
    if fs_type = [] then empty name (ascii "fs_type")
    else if partition_type = [] then empty name (ascii "partition_type")
    else if location = [] then empty name (ascii "location")
    else if mount_point = [] then empty name (ascii "mount_point")
    else formatVolume sys name fs_type partition_type location fs_size mount_point
  | argv => expects name (ascii "5 args") argv.length

/-- The first loop of `DeleteFn`. When an argument behind the first one gives NULL, the loop
that frees the others counts `i` instead of `j`, and frees the first path again and again. -/
def readPaths : List (Argument fmt D) → Work fmt D (List Bytes)
  | [] => ret []
  | a :: argv => do
    let path ← Evaluate a
    match ← attempt (gather (argv.map Evaluate)) with
    | some paths => ret (path :: paths)
    | none => fault

/-- The second loop of `DeleteFn`, from `success` on. -/
def deletePaths (success : Nat) : List Bytes → Work fmt D Nat
  | [] => ret success
  | path :: paths => do
    let failed ← (if name = ascii "delete_recursive" then request sys (.dirUnlinkHierarchy path)
      else request sys (.unlink path))
    deletePaths (if failed = none then success + 1 else success) paths

def DeleteFn (argv : List (Argument fmt D)) : Work fmt D Value := do
  let paths ← readPaths argv
  let success ← deletePaths sys name 0 paths
  ret (StringValue (printNat 10 success))

def ShowProgressFn : List (Argument fmt D) → Work fmt D Value
  | [a₀, a₁] => do
    let frac_str ← Evaluate a₀
    let sec_str ← Evaluate a₁
    send (CommandPipe.ShowProgressFn frac_str sec_str)
    ret (StringValue frac_str)
  | argv => expects name (ascii "2 args") argv.length

def SetProgressFn : List (Argument fmt D) → Work fmt D Value
  | [a] => do
    let frac_str ← Evaluate a
    send (CommandPipe.SetProgressFn frac_str)
    ret (StringValue frac_str)
  | argv => expects name (ascii "1 arg") argv.length

def PackageExtractDirFn : List (Argument fmt D) → Work fmt D Value
  | [a₀, a₁] => do
    let zip_path ← Evaluate a₀
    let dest_path ← Evaluate a₁
    let success ← request sys (.mzExtractRecursive zip_path dest_path)
    ret (truth success)
  | argv => expects name (ascii "2 args") argv.length

/-- The two-argument version extracts to a file. -/
def extractFile (zip_path dest_path : Bytes) : Work fmt D Bool := do
  if ← request sys (.mzFindZipEntry zip_path) then
    let bad ← complain sys (← request sys (.fopen dest_path)) fun strerror =>
      name ++ ascii ": can't open " ++ dest_path ++ ascii " for write: " ++ strerror ++ [10]
    if bad = 0 then request sys (.mzExtractZipEntryToFile zip_path dest_path) else ret false
  else
    emit (.stderr (name ++ ascii ": no " ++ zip_path ++ ascii " in package\n"))
    ret false

/-- The one-argument version returns the contents of the file. -/
def extractBlob (zip_path : Bytes) : Work fmt D Value := do
  if ← request sys (.mzFindZipEntry zip_path) then
    let data ← request sys (.mzExtractZipEntryToBuffer zip_path)
    ret (.VAL_BLOB data)
  else
    emit (.stderr (name ++ ascii ": no " ++ zip_path ++ ascii " in package\n"))
    ret (.VAL_BLOB none)

def PackageExtractFileFn : List (Argument fmt D) → Work fmt D Value
  | [a₀, a₁] => do
    let zip_path ← Evaluate a₀
    let dest_path ← Evaluate a₁
    let success ← extractFile sys name zip_path dest_path
    ret (truth success)
  | [a] => do
    let zip_path ← Evaluate a
    extractBlob sys name zip_path
  | argv => expects name (ascii "1 or 2 args") argv.length

/-- `make_parents`, whose loop stands at `p`. A parent directory has a loop that goes on where
this one is. -/
def make_parents (path : Bytes) : (p : Nat) → Work fmt D Bool
  | 0 => ret true
  | p + 1 =>
    if path[p + 1]? ≠ some 47 then make_parents path p
    else do
      if ← make_parents path p then
        let parent := path.take (p + 1)
        match ← request sys (.mkdir parent 0o700) with
        | none => do
          emit (.stderr (ascii "symlink(): created [" ++ parent ++ ascii "]\n"))
          ret true
        | some errno =>
          if errno = EEXIST then ret true
          else do
            emit (.stderr (ascii "failed to mkdir " ++ parent ++ ascii ": " ++
              sys.strerror errno ++ [10]))
            ret false
      else ret false

/-- The body of the loop in `SymlinkFn`: how many of the steps failed. -/
def linkOne (target src : Bytes) : Work fmt D Nat := do
  let errno ← request sys (.unlink src)
  let bad₁ ← complain sys (if errno = some ENOENT then none else errno) fun strerror =>
    name ++ ascii ": failed to remove " ++ src ++ ascii ": " ++ strerror ++ [10]
  let text := name ++ ascii ": failed to symlink " ++ src ++ ascii " to " ++ target ++ ascii ": "
  let made ← make_parents sys src (src.length - 1)
  let bad₂ ← complain sys (if made then none else some 0) fun _ =>
    text ++ ascii "making parents failed\n"
  let bad₃ ← complain sys (← request sys (.symlink target src)) fun strerror =>
    text ++ strerror ++ [10]
  ret (bad₁ + bad₂ + bad₃)

def SymlinkFn : List (Argument fmt D) → Work fmt D Value
  | [] => expects name (ascii "1+ args") 0
  | a :: argv => do
    let target ← Evaluate a
    let srcs ← gather (argv.map Evaluate)
    let bad ← gather (srcs.map (linkOne sys name target))
    if bad.sum = 0 then ret (StringValue [])
    else ErrorAbort (name ++ ascii ": some symlinks failed")

/-- The value of a digit or letter in `strtoul` -/
def digitValue (c : UInt8) : Nat :=
  if isDigit c then c.toNat - 48
  else if 97 ≤ c ∧ c ≤ 122 then c.toNat - 87
  else if 65 ≤ c ∧ c ≤ 90 then c.toNat - 55
  else 36

/-- The base that `strtoul(s, &end, 0)` finds, and the digits and what follows them. -/
def baseOf (s : Bytes) : Nat × Bytes :=
  match s with
  | 48 :: x :: c :: digits =>
    if (x = 120 ∨ x = 88) ∧ digitValue c < 16 then (16, c :: digits) else (8, s)
  | 48 :: _ => (8, s)
  | _ => (10, s)

/-- `strtoul(s, &end, 0)` for an `unsigned long` of `w` bits: the value and the string at
`end`. -/
def strtoul₀ (s : Bytes) : Nat × Bytes :=
  let (base, digits) := baseOf (afterSign s)
  let num := digits.takeWhile fun c => digitValue c < base
  if num = [] then (0, s)
  else
    let n := num.foldl (fun n c => base * n + digitValue c) 0
    let value := if 2 ^ w ≤ n then 2 ^ w - 1
      else if (s.dropWhile isSpace).head? = some 45 then (2 ^ w - n) % 2 ^ w else n
    (value, digits.drop num.length)

/-- A number for `SetPermFn` -/
def permNumber (what str : Bytes) : Work fmt D Int :=
  let (n, rest) := strtoul₀ w str
  if rest ≠ [] ∨ str = [] then
    ErrorAbort (name ++ ascii ": \"" ++ str ++ ascii "\" not a valid " ++ what)
  else ret (wrap32 n)

/-- The body of the last loop in `SetPermFn` -/
def setPerm (uid gid mode : Int) (path : Bytes) : Work fmt D Nat := do
  let bad₁ ← complain sys (← request sys (.chown path uid gid)) fun strerror =>
    name ++ ascii ": chown of " ++ path ++ ascii " to " ++ printInt uid ++ [32] ++
      printInt gid ++ ascii " failed: " ++ strerror ++ [10]
  let bad₂ ← complain sys (← request sys (.chmod path mode)) fun strerror =>
    name ++ ascii ": chmod of " ++ path ++ ascii " to " ++ printNat 8 (toU32 mode) ++
      ascii " failed: " ++ strerror ++ [10]
  ret (bad₁ + bad₂)

/-- `set_perm` behind the user and the group -/
def setFiles (uid gid : Int) : List Bytes → Work fmt D Value
  | arg₂ :: paths => do
    let mode ← permNumber w name (ascii "mode") arg₂
    let bad ← gather (paths.map (setPerm sys name uid gid mode))
    if bad.sum = 0 then ret (StringValue [])
    else ErrorAbort (name ++ ascii ": some changes failed")
  | [] => fault

/-- `set_perm_recursive` behind the user and the group -/
def setHierarchies (uid gid : Int) : List Bytes → Work fmt D Value
  | arg₂ :: arg₃ :: paths => do
    let dir_mode ← permNumber w name (ascii "dirmode") arg₂
    let file_mode ← permNumber w name (ascii "filemode") arg₃
    let _ ← gather (paths.map fun path =>
      request sys (.dirSetHierarchyPermissions path uid gid dir_mode file_mode))
    ret (StringValue [])
  | _ => fault

def permArgs : Nat := if name = ascii "set_perm_recursive" then 5 else 4

def SetPermFn (argv : List (Argument fmt D)) : Work fmt D Value :=
  if argv.length < permArgs name then
    expects name (printNat 10 (permArgs name) ++ ascii "+ args") argv.length
  else do
    match ← gather (argv.map Evaluate) with
    | arg₀ :: arg₁ :: args => do
      let uid ← permNumber w name (ascii "uid") arg₀
      let gid ← permNumber w name (ascii "gid") arg₁
      if name = ascii "set_perm_recursive" then setHierarchies sys w name uid gid args
      else setFiles sys w name uid gid args
    | _ => fault

def GetPropFn : List (Argument fmt D) → Work fmt D Value
  | [a] => do
    let key ← Evaluate a
    let value ← request sys (.property_get key)
    ret (StringValue value)
  | argv => expects name (ascii "1 arg") argv.length

def FileGetPropFn (argv : List (Argument fmt D)) : Work fmt D Value := do
  let filename ← Evaluate (← argAt argv 0)
  let key ← Evaluate (← argAt argv 1)
  let file ← request sys (.readFile filename)
  match ← lift (fileGetProp (fun _ => file) name (⟨(), none⟩ : Edify.State Unit) filename key) with
  | (some (.VAL_STRING value), _) => ret (StringValue value)
  | (_, state) => errorAbort (state.errmsg.getD [])

/-- `restore_raw_partition` takes the data of a blob for a file name. -/
def writeRawImage (partition : Bytes) (filename : Option Bytes) : Work fmt D Value := do
  let r ← request sys (.restore_raw_partition partition filename)
  ret (StringValue (if r = 0 then partition else []))

def WriteRawImageFn (argv : List (Argument fmt D)) : Work fmt D Value := do
  let contents ← (← argAt argv 0).value
  let partition_value ← (← argAt argv 1).value
  match partition_value with
  | .VAL_BLOB _ => ErrorAbort (ascii "partition argument to " ++ name ++ ascii " must be string")
  | .VAL_STRING data =>
    let partition := cstr data
    if partition = [] then
      ErrorAbort (ascii "partition argument to " ++ name ++ ascii " can't be empty")
    else
      match contents with
      | .VAL_STRING filename =>
        if cstr filename = [] then
          ErrorAbort (ascii "file argument to " ++ name ++ ascii " can't be empty")
        else writeRawImage sys partition (some (cstr filename))
      | .VAL_BLOB none => writeRawImage sys partition none
      | .VAL_BLOB (some data) =>
        if 0 ∈ data then writeRawImage sys partition (some (cstr data)) else fault

def ApplyPatchSpaceFn (argv : List (Argument fmt D)) : Work fmt D Value := do
  let bytes_str ← Evaluate (← argAt argv 0)
  let (bytes, rest) := strtol w bytes_str
  if bytes = 0 ∧ rest = bytes_str then
    ErrorAbort (name ++ ascii "(): can't parse \"" ++ bytes_str ++ ascii "\" as byte count\n\n")
  else
    let r ← request sys (.CacheSizeCheck (bytes % 2 ^ w).toNat)
    ret (truth (r = 0))

/-- The loop of `ApplyPatchFn` over the patches, from the `i`-th on. -/
def patchArgs (i : Nat) : List Value → Work fmt D (List (Bytes × Option Bytes))
  | [] => ret []
  | .VAL_STRING sha1 :: .VAL_BLOB patch :: values => do
    let patches ← patchArgs (i + 1) values
    ret ((sha1, patch) :: patches)
  | .VAL_STRING _ :: .VAL_STRING _ :: _ =>
    ErrorAbort (name ++ ascii "(): patch #" ++ printNat 10 i ++ ascii " is not blob")
  | .VAL_BLOB _ :: _ =>
    ErrorAbort (name ++ ascii "(): sha-1 #" ++ printNat 10 i ++ ascii " is not string")
  | [.VAL_STRING _] => fault

/-- The values of the patches are read without a look at the NULL that an error gives. -/
def ApplyPatchFn (argv : List (Argument fmt D)) : Work fmt D Value :=
  if argv.length < 6 ∨ argv.length % 2 = 1 then
    ErrorAbort (name ++ ascii "(): expected at least 6 args and an even number, got " ++
      printNat 10 argv.length)
  else
    match argv with
    | a₀ :: a₁ :: a₂ :: a₃ :: argv => do
      let source_filename ← Evaluate a₀
      let target_filename ← Evaluate a₁
      let target_sha1 ← Evaluate a₂
      let target_size_str ← Evaluate a₃
      let (target_size, rest) := strtol w target_size_str
      if target_size = 0 ∧ rest = target_size_str then
        ErrorAbort (name ++ ascii "(): can't parse \"" ++ target_size_str ++
          ascii "\" as byte count")
      else
        match ← attempt (gather (argv.map Arg.value)) with
        | none => fault
        | some values => do
          let patches ← patchArgs name 0 values
          let result ← request sys (.applypatch source_filename target_filename target_sha1
            (target_size % 2 ^ w).toNat patches)
          ret (truth (result = 0))
    | _ => fault

/-- `applypatch_check` reads the digests without a look at the NULL that an error gives. -/
def ApplyPatchCheckFn : List (Argument fmt D) → Work fmt D Value
  | [] => ErrorAbort (name ++ ascii "(): expected at least 1 arg, got 0")
  | a :: argv => do
    let filename ← Evaluate a
    match ← attempt (gather (argv.map Evaluate)) with
    | none => fault
    | some sha1s => do
      let result ← request sys (.applypatch_check filename sha1s)
      ret (truth (result = 0))

/-- What `strtok` leaves of the buffer of `UIPrintFn`, as a string. -/
def firstLine (buffer : Bytes) : Bytes :=
  buffer.takeWhile (· = 10) ++ (buffer.dropWhile (· = 10)).takeWhile (· ≠ 10)

def UIPrintFn (argv : List (Argument fmt D)) : Work fmt D Value := do
  let args ← gather (argv.map Evaluate)
  send (CommandPipe.UIPrintFn args)
  ret (StringValue (firstLine args.flatten))

def WipeCacheFn : List (Argument fmt D) → Work fmt D Value
  | [] => do
    send CommandPipe.WipeCacheFn
    ret (StringValue (ascii "t"))
  | argv => expects name (ascii "no args") argv.length

/-- What `RunProgramFn` prints of the status -/
def reportStatus (status : Nat) : Work fmt D Unit :=
  let signal := status % 128
  if signal = 0 then
    if status / 256 % 256 ≠ 0 then
      emit (.stderr (ascii "run_program: child exited with status " ++
        printNat 10 (status / 256 % 256) ++ [10]))
    else ret ()
  else if signal ≠ 127 then
    emit (.stderr (ascii "run_program: child terminated by signal " ++ printNat 10 signal ++ [10]))
  else ret ()

def RunProgramFn (argv : List (Argument fmt D)) : Work fmt D Value :=
  if argv = [] then ErrorAbort (name ++ ascii "() expects at least 1 arg")
  else do
    let args ← gather (argv.map Evaluate)
    emit (.stderr (ascii "about to run program [" ++ args.head?.getD [] ++ ascii "] with " ++
      printNat 10 argv.length ++ ascii " args\n"))
    let status ← request sys (.execv args)
    reportStatus status
    ret (StringValue (printNat 10 status))

/-- The loop of `Sha1CheckFn`, from argument `i` on; the value is the argument that matches. -/
def findDigest (digest : Bytes) (i : Nat) (arg_digest : Bytes) :
    List Value → Work fmt D (Option Bytes)
  | [] => ret none
  | .VAL_BLOB _ :: args => do
    emit (.stderr (name ++ ascii "(): arg " ++ printNat 10 i ++
      ascii " is not a string; skipping"))
    findDigest digest (i + 1) arg_digest args
  | .VAL_STRING data :: args => do
    let (r, arg_digest) ← lift (Applypatch.ParseSha1 (cstr data ++ [0]) arg_digest)
    if r ≠ 0 then
      emit (.stderr (name ++ ascii "(): error parsing \"" ++ cstr data ++
        ascii "\" as sha-1; skipping"))
      findDigest digest (i + 1) arg_digest args
    else if digest = arg_digest then ret (some data)
    else findDigest digest (i + 1) arg_digest args

/-- `Sha1CheckFn` of the data of its first argument; the arrays that it allocates have any
contents. -/
def checkDigest (digest : Bytes) (args : List Value) : Work fmt D Value :=
  match args with
  | [] => do
    let buffer ← lift (Applypatch.PrintSha1 (List.replicate 41 0) digest)
    ret (StringValue (cstr buffer))
  | _ :: _ => do
    let found ← findDigest name digest 1 (List.replicate 20 0) args
    ret (StringValue (found.getD []))

def Sha1CheckFn (argv : List (Argument fmt D)) : Work fmt D Value :=
  if argv = [] then ErrorAbort (name ++ ascii "() expects at least 1 arg")
  else do
    match ← gather (argv.map Arg.value) with
    | .VAL_BLOB none :: _ => do
      emit (.stderr (name ++ ascii "(): no file contents received"))
      ret (StringValue [])
    | .VAL_BLOB (some data) :: args => checkDigest name (sys.SHA data) args
    | .VAL_STRING data :: args => checkDigest name (sys.SHA (cstr data)) args
    | [] => fault

def ReadFileFn : List (Argument fmt D) → Work fmt D Value
  | [a] => do
    let filename ← Evaluate a
    match ← request sys (.LoadFileContents filename) with
    | .ok data => ret (.VAL_BLOB (some data))
    | .error errno => ErrorAbort (name ++ ascii "() loading \"" ++ filename ++
        ascii "\" failed: " ++ sys.strerror errno)
  | argv => expects name (ascii "1 arg") argv.length

end Source

/-- The functions that `RegisterInstallFunctions` registers. -/
inductive InstallFn where
  | MountFn
  | IsMountedFn
  | UnmountFn
  | FormatFn
  | ShowProgressFn
  | SetProgressFn
  | DeleteFn
  | PackageExtractDirFn
  | PackageExtractFileFn
  | SymlinkFn
  | SetPermFn
  | GetPropFn
  | FileGetPropFn
  | WriteRawImageFn
  | ApplyPatchFn
  | ApplyPatchCheckFn
  | ApplyPatchSpaceFn
  | ReadFileFn
  | Sha1CheckFn
  | WipeCacheFn
  | UIPrintFn
  | RunProgramFn
  deriving DecidableEq, Repr

def call {fmt : Formats} {D : Type} (sys : Sys D) (w : Nat) (fn : InstallFn) (name : Bytes)
    (argv : List (Argument fmt D)) : Work fmt D Value :=
  match fn with
  | .MountFn => MountFn sys name argv
  | .IsMountedFn => IsMountedFn sys name argv
  | .UnmountFn => UnmountFn sys name argv
  | .FormatFn => FormatFn sys name argv
  | .ShowProgressFn => ShowProgressFn name argv
  | .SetProgressFn => SetProgressFn name argv
  | .DeleteFn => DeleteFn sys name argv
  | .PackageExtractDirFn => PackageExtractDirFn sys name argv
  | .PackageExtractFileFn => PackageExtractFileFn sys name argv
  | .SymlinkFn => SymlinkFn sys name argv
  | .SetPermFn => SetPermFn sys w name argv
  | .GetPropFn => GetPropFn sys name argv
  | .FileGetPropFn => FileGetPropFn sys name argv
  | .WriteRawImageFn => WriteRawImageFn sys name argv
  | .ApplyPatchFn => ApplyPatchFn sys w name argv
  | .ApplyPatchCheckFn => ApplyPatchCheckFn sys name argv
  | .ApplyPatchSpaceFn => ApplyPatchSpaceFn sys w name argv
  | .ReadFileFn => ReadFileFn sys name argv
  | .Sha1CheckFn => Sha1CheckFn sys name argv
  | .WipeCacheFn => WipeCacheFn name argv
  | .UIPrintFn => UIPrintFn argv
  | .RunProgramFn => RunProgramFn sys name argv

/-! ## What a function may do -/

/-- The requests of a function -/
def Makes : InstallFn → Request → Prop
  | .MountFn, .mkdir .. => True
  | .MountFn, .mtd_find_partition_by_name .. => True
  | .MountFn, .mtd_mount_partition .. => True
  | .MountFn, .mount .. => True
  | .IsMountedFn, .find_mounted_volume_by_mount_point .. => True
  | .UnmountFn, .find_mounted_volume_by_mount_point .. => True
  | .UnmountFn, .unmount_mounted_volume .. => True
  | .FormatFn, .mtd_find_partition_by_name .. => True
  | .FormatFn, .mtd_write_partition .. => True
  | .FormatFn, .mtd_erase_blocks .. => True
  | .FormatFn, .mtd_write_close .. => True
  | .FormatFn, .make_ext4fs .. => True
  | .DeleteFn, .unlink .. => True
  | .DeleteFn, .dirUnlinkHierarchy .. => True
  | .PackageExtractDirFn, .mzExtractRecursive .. => True
  | .PackageExtractFileFn, .mzFindZipEntry .. => True
  | .PackageExtractFileFn, .fopen .. => True
  | .PackageExtractFileFn, .mzExtractZipEntryToFile .. => True
  | .PackageExtractFileFn, .mzExtractZipEntryToBuffer .. => True
  | .SymlinkFn, .unlink .. => True
  | .SymlinkFn, .mkdir .. => True
  | .SymlinkFn, .symlink .. => True
  | .SetPermFn, .dirSetHierarchyPermissions .. => True
  | .SetPermFn, .chown .. => True
  | .SetPermFn, .chmod .. => True
  | .GetPropFn, .property_get .. => True
  | .FileGetPropFn, .readFile .. => True
  | .WriteRawImageFn, .restore_raw_partition .. => True
  | .ApplyPatchFn, .applypatch .. => True
  | .ApplyPatchCheckFn, .applypatch_check .. => True
  | .ApplyPatchSpaceFn, .CacheSizeCheck .. => True
  | .ReadFileFn, .LoadFileContents .. => True
  | .RunProgramFn, .execv .. => True
  | _, _ => False

section Keeping

variable {fmt : Formats} {D : Type} {sys : Sys D} {w : Nat} {name : Bytes}
  {P R : World (UpdaterInfo fmt D) → Prop} {X : Prop}

/-- `P` outlives the requests that are allowed, and what is sent through the pipe. -/
structure Serves (sys : Sys D) (allowed : Request → Prop) (P R : World (UpdaterInfo fmt D) → Prop) :
    Prop extends Admits P R where
  send : ∀ s (c : CommandPipe.Call), P s →
    P { s with cookie := { s.cookie with cmd_pipe := s.cookie.cmd_pipe ++ c.lines } }
  request : ∀ r, allowed r → ∀ s, P s →
    P { s with cookie := { s.cookie with device := (sys.answer r s.cookie.device).2 } }

/-- Files of properties are text with at least one line. -/
def FilesHaveLines (sys : Sys D) : Prop :=
  ∀ filename d, 0 ∉ (sys.answer (.readFile filename) d).1.content ∧
    ∃ c ∈ (sys.answer (.readFile filename) d).1.content, c ≠ 10

/-- The argument is not the contents of a file. -/
def NoBlob (a : Argument fmt D) : Prop :=
  ∀ s s' data, a.value s ≠ .done (some (.VAL_BLOB data), s')

variable {allowed : Request → Prop} (h : Serves sys allowed P R)

include h

theorem request_keeps {r : Request} (hr : allowed r) : Keeps P (request sys r) R X :=
  fun s hs => h.request r hr s hs

theorem request_bind {α : Type} {r : Request} {f : r.Answer → Work fmt D α} (hr : allowed r)
    (hf : ∀ a, Keeps P (f a) R X) : Keeps P (request sys r >>= f) R X :=
  (request_keeps h hr).bind hf

theorem send_keeps (c : CommandPipe.Call) : Keeps P (send c.lines) R X :=
  .act fun s hs => h.send s c hs

theorem stderr_keeps (text : Bytes) : Keeps P (emit (.stderr text)) R X :=
  emit_keeps h.toAdmits rfl

theorem ErrorAbort_keeps {α : Type} (msg : Bytes) :
    Keeps P (ErrorAbort msg : Work fmt D α) R X :=
  errorAbort_keeps h.toAdmits _

theorem complain_keeps (errno : Option Nat) (text : Bytes → Bytes) :
    Keeps P (complain sys errno text) R X := by
  cases errno with
  | none => exact .ret 0
  | some errno => exact (stderr_keeps h _).bind fun _ => .ret 1

theorem mountVolume_keeps (hall : ∀ r, Makes .MountFn r → allowed r)
    (fs_type partition_type location mount_point : Bytes) :
    Keeps P (mountVolume sys name fs_type partition_type location mount_point) R X := by
  unfold mountVolume
  refine request_bind h (hall _ trivial) fun _ => ?_
  split
  · refine request_bind h (hall _ trivial) fun found => ?_
    split
    · refine request_bind h (hall _ trivial) fun errno => ?_
      exact (complain_keeps h errno _).bind fun bad => .ret _
    · exact (stderr_keeps h _).bind fun _ => .ret _
  · refine request_bind h (hall _ trivial) fun errno => ?_
    exact (complain_keeps h errno _).bind fun bad => .ret _

variable {argv : List (Argument fmt D)} (hargs : ∀ a ∈ argv, Keeps P a.value R X)

include hargs

theorem evaluate_mem {a : Argument fmt D} (ha : a ∈ argv) : Keeps P (Evaluate a) R X :=
  evaluate_keeps h.toAdmits (hargs a ha)

theorem mountFn_keeps (hall : ∀ r, Makes .MountFn r → allowed r) :
    Keeps P (MountFn sys name argv) R X := by
  unfold MountFn
  split
  · refine (evaluate_mem h hargs (by simp)).bind fun fs_type => ?_
    refine (evaluate_mem h hargs (by simp)).bind fun partition_type => ?_
    refine (evaluate_mem h hargs (by simp)).bind fun location => ?_
    refine (evaluate_mem h hargs (by simp)).bind fun mount_point => ?_
    split_ifs
    · exact ErrorAbort_keeps h _
    · exact ErrorAbort_keeps h _
    · exact ErrorAbort_keeps h _
    · exact ErrorAbort_keeps h _
    · exact mountVolume_keeps h hall _ _ _ _
  · exact ErrorAbort_keeps h _

theorem isMountedFn_keeps (hall : ∀ r, Makes .IsMountedFn r → allowed r) :
    Keeps P (IsMountedFn sys name argv) R X := by
  unfold IsMountedFn
  split
  · refine (evaluate_mem h hargs (by simp)).bind fun mount_point => ?_
    split
    · exact ErrorAbort_keeps h _
    · exact request_bind h (hall _ trivial) fun mounted => .ret _
  · exact ErrorAbort_keeps h _

theorem unmountFn_keeps (hall : ∀ r, Makes .UnmountFn r → allowed r) :
    Keeps P (UnmountFn sys name argv) R X := by
  unfold UnmountFn
  split
  · refine (evaluate_mem h hargs (by simp)).bind fun mount_point => ?_
    split
    · exact ErrorAbort_keeps h _
    · refine request_bind h (hall _ trivial) fun mounted => ?_
      split
      · exact request_bind h (hall _ trivial) fun _ => .ret _
      · exact (stderr_keeps h _).bind fun _ => .ret _
  · exact ErrorAbort_keeps h _

omit hargs in
theorem eraseMtd_keeps (hall : ∀ r, Makes .FormatFn r → allowed r) (location : Bytes) :
    Keeps P (eraseMtd sys location) R X := by
  unfold eraseMtd
  refine request_bind h (hall _ trivial) fun found => ?_
  split
  · exact .ret _
  · refine request_bind h (hall _ trivial) fun opened => ?_
    split
    · exact .ret _
    · refine request_bind h (hall _ trivial) fun erased => ?_
      split
      · exact request_bind h (hall _ trivial) fun _ => .ret _
      · refine request_bind h (hall _ trivial) fun closed => ?_
        split
        · exact .ret _
        · exact .ret _

omit hargs in
theorem formatVolume_keeps (hall : ∀ r, Makes .FormatFn r → allowed r)
    (fs_type partition_type location fs_size mount_point : Bytes) :
    Keeps P (formatVolume sys name fs_type partition_type location fs_size mount_point) R X := by
  unfold formatVolume
  split
  · refine (eraseMtd_keeps h hall location).bind fun text => ?_
    cases text with
    | none => exact .ret _
    | some text => exact (stderr_keeps h _).bind fun _ => .ret _
  · split
    · refine request_bind h (hall _ trivial) fun status => ?_
      split
      · exact .ret _
      · exact (stderr_keeps h _).bind fun _ => .ret _
    · exact (stderr_keeps h _).bind fun _ => giveUp_keeps h.toAdmits

theorem formatFn_keeps (hall : ∀ r, Makes .FormatFn r → allowed r) :
    Keeps P (FormatFn sys name argv) R X := by
  unfold FormatFn
  split
  · refine (evaluate_mem h hargs (by simp)).bind fun fs_type => ?_
    refine (evaluate_mem h hargs (by simp)).bind fun partition_type => ?_
    refine (evaluate_mem h hargs (by simp)).bind fun location => ?_
    refine (evaluate_mem h hargs (by simp)).bind fun fs_size => ?_
    refine (evaluate_mem h hargs (by simp)).bind fun mount_point => ?_
    split_ifs
    · exact ErrorAbort_keeps h _
    · exact ErrorAbort_keeps h _
    · exact ErrorAbort_keeps h _
    · exact ErrorAbort_keeps h _
    · exact formatVolume_keeps h hall _ _ _ _ _
  · exact ErrorAbort_keeps h _

theorem evaluate_args : ∀ m ∈ argv.map Evaluate, Keeps P m R X := by
  intro m hm
  obtain ⟨a, ha, rfl⟩ := List.mem_map.mp hm
  exact evaluate_mem h hargs ha

theorem readPaths_keeps (hyields : X ∨ ∀ a ∈ argv.tail, Yields (Evaluate a)) :
    Keeps P (readPaths argv) R X := by
  cases argv with
  | nil => exact .ret _
  | cons a argv =>
    rw [List.forall_mem_cons] at hargs
    unfold readPaths
    refine (evaluate_keeps h.toAdmits hargs.1).bind fun path => ?_
    refine .attempt_gather (evaluate_args h hargs.2) (hyields.imp_right fun hall m hm => ?_) rfl
      fun paths _ => .ret _
    obtain ⟨b, hb, rfl⟩ := List.mem_map.mp hm
    exact hall b hb

omit hargs in
theorem deletePaths_keeps (hall : ∀ r, Makes .DeleteFn r → allowed r) (success : Nat)
    (paths : List Bytes) : Keeps P (deletePaths sys name success paths) R X := by
  induction paths generalizing success with
  | nil => exact .ret _
  | cons path paths ih =>
    unfold deletePaths
    refine Keeps.bind ?_ fun failed => ih _
    split
    · exact request_keeps h (hall _ trivial)
    · exact request_keeps h (hall _ trivial)

theorem deleteFn_keeps (hall : ∀ r, Makes .DeleteFn r → allowed r)
    (hyields : X ∨ ∀ a ∈ argv.tail, Yields (Evaluate a)) :
    Keeps P (DeleteFn sys name argv) R X :=
  (readPaths_keeps h hargs hyields).bind fun paths =>
    (deletePaths_keeps h hall 0 paths).bind fun _ => .ret _

theorem showProgressFn_keeps : Keeps P (ShowProgressFn name argv) R X := by
  unfold ShowProgressFn
  split
  · refine (evaluate_mem h hargs (by simp)).bind fun frac_str => ?_
    refine (evaluate_mem h hargs (by simp)).bind fun sec_str => ?_
    exact (send_keeps h (.show_progress frac_str sec_str)).bind fun _ => .ret _
  · exact ErrorAbort_keeps h _

theorem setProgressFn_keeps : Keeps P (SetProgressFn name argv) R X := by
  unfold SetProgressFn
  split
  · refine (evaluate_mem h hargs (by simp)).bind fun frac_str => ?_
    exact (send_keeps h (.set_progress frac_str)).bind fun _ => .ret _
  · exact ErrorAbort_keeps h _

theorem packageExtractDirFn_keeps (hall : ∀ r, Makes .PackageExtractDirFn r → allowed r) :
    Keeps P (PackageExtractDirFn sys name argv) R X := by
  unfold PackageExtractDirFn
  split
  · refine (evaluate_mem h hargs (by simp)).bind fun zip_path => ?_
    refine (evaluate_mem h hargs (by simp)).bind fun dest_path => ?_
    exact request_bind h (hall _ trivial) fun success => .ret _
  · exact ErrorAbort_keeps h _

theorem packageExtractFileFn_keeps (hall : ∀ r, Makes .PackageExtractFileFn r → allowed r) :
    Keeps P (PackageExtractFileFn sys name argv) R X := by
  unfold PackageExtractFileFn
  split
  · refine (evaluate_mem h hargs (by simp)).bind fun zip_path => ?_
    refine (evaluate_mem h hargs (by simp)).bind fun dest_path => ?_
    refine Keeps.bind ?_ fun success => .ret _
    unfold extractFile
    refine request_bind h (hall _ trivial) fun found => ?_
    split
    · refine request_bind h (hall _ trivial) fun errno => ?_
      refine (complain_keeps h errno _).bind fun bad => ?_
      split
      · exact request_keeps h (hall _ trivial)
      · exact .ret _
    · exact (stderr_keeps h _).bind fun _ => .ret _
  · refine (evaluate_mem h hargs (by simp)).bind fun zip_path => ?_
    unfold extractBlob
    refine request_bind h (hall _ trivial) fun found => ?_
    split
    · exact request_bind h (hall _ trivial) fun data => .ret _
    · exact (stderr_keeps h _).bind fun _ => .ret _
  · exact ErrorAbort_keeps h _

omit hargs in
theorem make_parents_keeps (hmkdir : ∀ path mode, allowed (.mkdir path mode)) (path : Bytes)
    (p : Nat) : Keeps P (make_parents sys path p) R X := by
  induction p with
  | zero => exact .ret _
  | succ p ih =>
    unfold make_parents
    split
    · exact ih
    · refine ih.bind fun made => ?_
      split
      · refine request_bind h (hmkdir _ _) fun errno => ?_
        cases errno with
        | none => exact (stderr_keeps h _).bind fun _ => .ret _
        | some errno =>
          dsimp only
          split
          · exact .ret _
          · exact (stderr_keeps h _).bind fun _ => .ret _
      · exact .ret _

omit hargs in
theorem linkOne_keeps (hall : ∀ r, Makes .SymlinkFn r → allowed r) (target src : Bytes) :
    Keeps P (linkOne sys name target src) R X := by
  unfold linkOne
  refine request_bind h (hall _ trivial) fun errno => ?_
  refine (complain_keeps h _ _).bind fun bad₁ => ?_
  refine (make_parents_keeps h (fun _ _ => hall _ trivial) src _).bind fun made => ?_
  refine (complain_keeps h _ _).bind fun bad₂ => ?_
  refine request_bind h (hall _ trivial) fun errno => ?_
  exact (complain_keeps h errno _).bind fun bad₃ => .ret _

omit h hargs in
/-- The steps of a loop over the arguments. -/
theorem gather_steps {α β : Type} {step : α → Work fmt D β} (hstep : ∀ a, Keeps P (step a) R X)
    (as : List α) : Keeps P (gather (as.map step)) R X := by
  refine .gather fun m hm => ?_
  obtain ⟨a, -, rfl⟩ := List.mem_map.mp hm
  exact hstep a

theorem symlinkFn_keeps (hall : ∀ r, Makes .SymlinkFn r → allowed r) :
    Keeps P (SymlinkFn sys name argv) R X := by
  cases argv with
  | nil => exact ErrorAbort_keeps h _
  | cons a argv =>
    rw [List.forall_mem_cons] at hargs
    unfold SymlinkFn
    refine (evaluate_keeps h.toAdmits hargs.1).bind fun target => ?_
    refine (Keeps.gather (evaluate_args h hargs.2)).bind fun srcs => ?_
    refine (gather_steps (linkOne_keeps h hall target) srcs).bind fun bad => ?_
    split
    · exact .ret _
    · exact ErrorAbort_keeps h _

omit hargs in
theorem permNumber_keeps (what str : Bytes) :
    Keeps P (permNumber w name what str : Work fmt D Int) R X := by
  unfold permNumber
  dsimp only
  split
  · exact ErrorAbort_keeps h _
  · exact .ret _

omit hargs in
theorem setPerm_keeps (hall : ∀ r, Makes .SetPermFn r → allowed r) (uid gid mode : Int)
    (path : Bytes) : Keeps P (setPerm sys name uid gid mode path) R X := by
  unfold setPerm
  refine request_bind h (hall _ trivial) fun errno => ?_
  refine (complain_keeps h errno _).bind fun bad₁ => ?_
  refine request_bind h (hall _ trivial) fun errno => ?_
  exact (complain_keeps h errno _).bind fun bad₂ => .ret _

omit hargs in
theorem setFiles_keeps (hall : ∀ r, Makes .SetPermFn r → allowed r) (uid gid : Int)
    {args : List Bytes} (hlen : 1 ≤ args.length) :
    Keeps P (setFiles sys w name uid gid args) R X := by
  cases args with
  | nil => simp at hlen
  | cons arg₂ paths =>
    unfold setFiles
    refine (permNumber_keeps h _ _).bind fun mode => ?_
    refine (gather_steps (setPerm_keeps h hall uid gid mode) paths).bind fun bad => ?_
    split
    · exact .ret _
    · exact ErrorAbort_keeps h _

omit hargs in
theorem setHierarchies_keeps (hall : ∀ r, Makes .SetPermFn r → allowed r) (uid gid : Int)
    {args : List Bytes} (hlen : 2 ≤ args.length) :
    Keeps P (setHierarchies sys w name uid gid args) R X := by
  match args, hlen with
  | arg₂ :: arg₃ :: paths, _ =>
    unfold setHierarchies
    refine (permNumber_keeps h _ _).bind fun dir_mode => ?_
    refine (permNumber_keeps h _ _).bind fun file_mode => ?_
    refine (gather_steps (fun path => ?_) paths).bind fun _ => .ret _
    exact request_keeps h (hall _ trivial)

/-- There are as many strings as arguments, so that none is missing. -/
theorem setPermFn_keeps (hall : ∀ r, Makes .SetPermFn r → allowed r) :
    Keeps P (SetPermFn sys w name argv) R X := by
  unfold SetPermFn
  split
  · exact ErrorAbort_keeps h _
  · rename_i hmin
    refine .gather_bind (evaluate_args h hargs) fun args hlen => ?_
    rw [List.length_map] at hlen
    have hfour : 4 ≤ permArgs name := by
      unfold permArgs
      split <;> decide
    obtain ⟨arg₀, arg₁, args, rfl⟩ : ∃ arg₀ arg₁ args', args = arg₀ :: arg₁ :: args' := by
      rcases args with _ | ⟨arg₀, _ | ⟨arg₁, args⟩⟩
      · simp at hlen
        omega
      · simp at hlen
        omega
      · exact ⟨arg₀, arg₁, args, rfl⟩
    refine (permNumber_keeps h _ _).bind fun uid => ?_
    refine (permNumber_keeps h _ _).bind fun gid => ?_
    rw [List.length_cons, List.length_cons] at hlen
    unfold permArgs at hmin
    split_ifs with hname
    · rw [if_pos hname] at hmin
      exact setHierarchies_keeps h hall uid gid (by omega)
    · rw [if_neg hname] at hmin
      exact setFiles_keeps h hall uid gid (by omega)

theorem getPropFn_keeps (hall : ∀ r, Makes .GetPropFn r → allowed r) :
    Keeps P (GetPropFn sys name argv) R X := by
  unfold GetPropFn
  split
  · refine (evaluate_mem h hargs (by simp)).bind fun key => ?_
    exact request_bind h (hall _ trivial) fun value => .ret _
  · exact ErrorAbort_keeps h _

omit h hargs in
theorem fileGetProp_done {C : Type} {file : PropFile} (hzero : 0 ∉ file.content)
    (hline : ∃ c ∈ file.content, c ≠ 10) (state : Edify.State C) (filename key : Bytes) :
    ∃ r, fileGetProp (fun _ => file) name state filename key = .done r := by
  unfold fileGetProp
  dsimp only
  split_ifs
  · exact ⟨_, rfl⟩
  · exact ⟨_, rfl⟩
  · exact ⟨_, rfl⟩
  · exact ⟨_, rfl⟩
  · exact ⟨_, rfl⟩
  · rw [findProp_spec hzero hline]
    exact ⟨_, rfl⟩

theorem fileGetPropFn_keeps (hall : ∀ r, Makes .FileGetPropFn r → allowed r)
    (hsafe : X ∨ 2 ≤ argv.length ∧ FilesHaveLines sys) :
    Keeps P (FileGetPropFn sys name argv) R X := by
  unfold FileGetPropFn
  have hargc := hsafe.imp_right And.left
  refine argAt_keeps (hargc.imp_right Nat.zero_lt_of_lt) fun a ha => ?_
  refine (evaluate_mem h hargs ha).bind fun filename => ?_
  refine argAt_keeps hargc fun a ha => ?_
  refine (evaluate_mem h hargs ha).bind fun key => ?_
  have hrequest : allowed (.readFile filename) := hall _ trivial
  refine (request_keeps h hrequest).bind_of fun file hfile => ?_
  refine (Keeps.lift (hsafe.imp_right fun hlines => ?_)).bind fun r => ?_
  · obtain ⟨s, s', hfile⟩ := hfile
    obtain ⟨hzero, hline⟩ := hlines.2 filename s.cookie.device
    cases hfile
    exact fileGetProp_done hzero hline _ _ _
  · split
    · exact .ret _
    · exact errorAbort_keeps h.toAdmits _

theorem writeRawImageFn_keeps (hall : ∀ r, Makes .WriteRawImageFn r → allowed r)
    (hsafe : X ∨ 2 ≤ argv.length ∧ ∀ a ∈ argv.head?, NoBlob a) :
    Keeps P (WriteRawImageFn sys name argv) R X := by
  have hargc := hsafe.imp_right And.left
  unfold WriteRawImageFn
  cases argv with
  | nil =>
    have hX : X := by simpa using hargc
    exact fun _ _ => hX
  | cons a argv =>
    have hwrite : ∀ partition filename, Keeps P (writeRawImage sys partition filename) R X :=
      fun partition filename => request_bind h (hall _ trivial) fun r => .ret _
    have hhead : argAt (a :: argv) 0 = ret a := rfl
    rw [hhead, ret_bind]
    refine Keeps.bind_of (hargs a List.mem_cons_self) fun contents hcontents => ?_
    refine argAt_keeps hargc fun b hb => ?_
    refine (hargs b hb).bind fun partition_value => ?_
    cases partition_value with
    | VAL_BLOB data => exact ErrorAbort_keeps h _
    | VAL_STRING data =>
      dsimp only
      split
      · exact ErrorAbort_keeps h _
      · cases contents with
        | VAL_STRING filename =>
          dsimp only
          split
          · exact ErrorAbort_keeps h _
          · exact hwrite _ _
        | VAL_BLOB contents =>
          cases contents with
          | none => exact hwrite _ _
          | some contents =>
            dsimp only
            split
            · exact hwrite _ _
            · -- The contents of a file need not be a string.
              obtain ⟨s, s', hvalue⟩ := hcontents
              have hX : X := hsafe.resolve_right fun hs => hs.2 a (by simp) s s' _ hvalue
              exact fun _ _ => hX

theorem applyPatchSpaceFn_keeps (hall : ∀ r, Makes .ApplyPatchSpaceFn r → allowed r)
    (hargc : X ∨ 1 ≤ argv.length) : Keeps P (ApplyPatchSpaceFn sys w name argv) R X := by
  unfold ApplyPatchSpaceFn
  refine argAt_keeps hargc fun a ha => ?_
  refine (evaluate_mem h hargs ha).bind fun bytes_str => ?_
  dsimp only
  split
  · exact ErrorAbort_keeps h _
  · exact request_bind h (hall _ trivial) fun r => .ret _

omit hargs in
/-- The values come in pairs. -/
theorem patchArgs_keeps (values : List Value) (i : Nat) (heven : values.length % 2 = 0) :
    Keeps P (patchArgs name i values : Work fmt D _) R X := by
  fun_induction patchArgs with
  | case1 => exact .ret _
  | case2 i sha1 patch values ih =>
    simp only [List.length_cons] at heven
    exact (ih (by omega)).bind fun patches => .ret _
  | case3 => exact ErrorAbort_keeps h _
  | case4 => exact ErrorAbort_keeps h _
  | case5 => simp at heven

theorem applyPatchFn_keeps (hall : ∀ r, Makes .ApplyPatchFn r → allowed r)
    (hsafe : X ∨ ∀ a ∈ argv.drop 4, Yields a.value) :
    Keeps P (ApplyPatchFn sys w name argv) R X := by
  unfold ApplyPatchFn
  split
  · exact ErrorAbort_keeps h _
  · rename_i hargc
    obtain ⟨a₀, a₁, a₂, a₃, argv', rfl⟩ :
        ∃ a₀ a₁ a₂ a₃ argv', argv = a₀ :: a₁ :: a₂ :: a₃ :: argv' := by
      rcases argv with _ | ⟨a₀, _ | ⟨a₁, _ | ⟨a₂, _ | ⟨a₃, argv'⟩⟩⟩⟩
      · simp at hargc
      · simp at hargc
      · simp at hargc
      · simp at hargc
      · exact ⟨a₀, a₁, a₂, a₃, argv', rfl⟩
    simp only [List.forall_mem_cons] at hargs
    obtain ⟨h₀, h₁, h₂, h₃, hargs⟩ := hargs
    refine (evaluate_keeps h.toAdmits h₀).bind fun source_filename => ?_
    refine (evaluate_keeps h.toAdmits h₁).bind fun target_filename => ?_
    refine (evaluate_keeps h.toAdmits h₂).bind fun target_sha1 => ?_
    refine (evaluate_keeps h.toAdmits h₃).bind fun target_size_str => ?_
    dsimp only
    split
    · exact ErrorAbort_keeps h _
    · refine .attempt_gather (fun m hm => ?_) (hsafe.imp_right fun hyields m hm => ?_) rfl
        fun values hlen => ?_
      · obtain ⟨a, ha, rfl⟩ := List.mem_map.mp hm
        exact hargs a ha
      · obtain ⟨a, ha, rfl⟩ := List.mem_map.mp hm
        exact hyields a ha
      · refine (patchArgs_keeps h values 0 ?_).bind fun patches => ?_
        · rw [hlen, List.length_map]
          simp only [List.length_cons] at hargc
          omega
        · exact request_bind h (hall _ trivial) fun result => .ret _

theorem applyPatchCheckFn_keeps (hall : ∀ r, Makes .ApplyPatchCheckFn r → allowed r)
    (hsafe : X ∨ ∀ a ∈ argv.tail, Yields (Evaluate a)) :
    Keeps P (ApplyPatchCheckFn sys name argv) R X := by
  cases argv with
  | nil => exact ErrorAbort_keeps h _
  | cons a argv =>
    rw [List.forall_mem_cons] at hargs
    unfold ApplyPatchCheckFn
    refine (evaluate_keeps h.toAdmits hargs.1).bind fun filename => ?_
    refine .attempt_gather (evaluate_args h hargs.2) (hsafe.imp_right fun hyields m hm => ?_) rfl
      fun sha1s _ => request_bind h (hall _ trivial) fun result => .ret _
    obtain ⟨b, hb, rfl⟩ := List.mem_map.mp hm
    exact hyields b hb

theorem uiPrintFn_keeps : Keeps P (UIPrintFn argv) R X := by
  unfold UIPrintFn
  refine (Keeps.gather (evaluate_args h hargs)).bind fun args => ?_
  exact (send_keeps h (.ui_print args)).bind fun _ => .ret _

omit hargs in
theorem wipeCacheFn_keeps : Keeps P (WipeCacheFn name argv) R X := by
  unfold WipeCacheFn
  split
  · exact (send_keeps h .wipe_cache).bind fun _ => .ret _
  · exact ErrorAbort_keeps h _

omit hargs in
theorem reportStatus_keeps (status : Nat) :
    Keeps P (reportStatus status : Work fmt D Unit) R X := by
  unfold reportStatus
  dsimp only
  split_ifs
  · exact stderr_keeps h _
  · exact .ret _
  · exact stderr_keeps h _
  · exact .ret _

theorem runProgramFn_keeps (hall : ∀ r, Makes .RunProgramFn r → allowed r) :
    Keeps P (RunProgramFn sys name argv) R X := by
  unfold RunProgramFn
  split
  · exact ErrorAbort_keeps h _
  · refine (Keeps.gather (evaluate_args h hargs)).bind fun args => ?_
    refine (stderr_keeps h _).bind fun _ => ?_
    refine request_bind h (hall _ trivial) fun status => ?_
    exact (reportStatus_keeps h status).bind fun _ => .ret _

omit h hargs in
theorem parseSha1_done {str digest : Bytes} (hzero : 0 ∉ str)
    (hlen : digest.length = Applypatch.SHA_DIGEST_SIZE) :
    ∃ r d, Applypatch.ParseSha1 (str ++ [0]) digest = .done (r, d) ∧
      d.length = Applypatch.SHA_DIGEST_SIZE := by
  cases Applypatch.ParseSha1_cases hzero [] hlen with
  | digits _ hd hrun => exact ⟨_, _, hrun, hd⟩
  | longer _ hd _ hrun => exact ⟨_, _, hrun, hd⟩
  | stops _ _ _ hd hrun => exact ⟨_, _, hrun, hd⟩

omit hargs in
theorem findDigest_keeps (digest : Bytes) (args : List Value) (i : Nat) {arg_digest : Bytes}
    (hlen : arg_digest.length = Applypatch.SHA_DIGEST_SIZE) :
    Keeps P (findDigest name digest i arg_digest args : Work fmt D _) R X := by
  induction args generalizing i arg_digest with
  | nil => exact .ret _
  | cons v args ih =>
    cases v with
    | VAL_BLOB data =>
      unfold findDigest
      exact (stderr_keeps h _).bind fun _ => ih _ hlen
    | VAL_STRING data =>
      unfold findDigest
      obtain ⟨r, d, hrun, hd⟩ := parseSha1_done (zero_notMem_cstr data) hlen
      have hlift : (lift (.done (r, d)) : Work fmt D (Int × Bytes)) = ret (r, d) := rfl
      rw [hrun, hlift, ret_bind]
      dsimp only
      split_ifs
      · exact (stderr_keeps h _).bind fun _ => ih _ hd
      · exact .ret _
      · exact ih _ hd

omit hargs in
theorem checkDigest_keeps {digest : Bytes} (args : List Value)
    (hlen : X ∨ digest.length = Applypatch.SHA_DIGEST_SIZE) :
    Keeps P (checkDigest name digest args : Work fmt D _) R X := by
  cases args with
  | nil =>
    refine (Keeps.lift (hlen.imp_right fun hlen => ?_)).bind fun buffer => .ret _
    obtain ⟨digits, -, hrun⟩ := Applypatch.PrintSha1_denotes hlen (List.length_replicate ..)
    exact ⟨_, hrun⟩
  | cons v args =>
    exact (findDigest_keeps h digest _ 1 (List.length_replicate ..)).bind fun _ => .ret _

theorem sha1CheckFn_keeps (hsafe : X ∨ ∀ data, (sys.SHA data).length = Applypatch.SHA_DIGEST_SIZE) :
    Keeps P (Sha1CheckFn sys name argv) R X := by
  unfold Sha1CheckFn
  split
  · exact ErrorAbort_keeps h _
  · rename_i hargc
    refine .gather_bind (fun m hm => ?_) fun args hlen => ?_
    · obtain ⟨a, ha, rfl⟩ := List.mem_map.mp hm
      exact hargs a ha
    · split
      · exact (stderr_keeps h _).bind fun _ => .ret _
      · exact checkDigest_keeps h _ (hsafe.imp_right fun hsha => hsha _)
      · exact checkDigest_keeps h _ (hsafe.imp_right fun hsha => hsha _)
      · rw [List.length_nil, List.length_map] at hlen
        exact absurd (List.eq_nil_of_length_eq_zero hlen.symm) hargc

theorem readFileFn_keeps (hall : ∀ r, Makes .ReadFileFn r → allowed r) :
    Keeps P (ReadFileFn sys name argv) R X := by
  unfold ReadFileFn
  split
  · refine (evaluate_mem h hargs (by simp)).bind fun filename => ?_
    refine request_bind h (hall _ trivial) fun contents => ?_
    cases contents with
    | ok data => exact .ret _
    | error errno => exact ErrorAbort_keeps h _
  · exact ErrorAbort_keeps h _

/-- What the arguments and the system must be for a function not to fault. -/
def Safe (sys : Sys D) : InstallFn → List (Argument fmt D) → Prop
  | .DeleteFn, argv => ∀ a ∈ argv.tail, Yields (Evaluate a)
  | .FileGetPropFn, argv => 2 ≤ argv.length ∧ FilesHaveLines sys
  | .WriteRawImageFn, argv => 2 ≤ argv.length ∧ ∀ a ∈ argv.head?, NoBlob a
  | .ApplyPatchFn, argv => ∀ a ∈ argv.drop 4, Yields a.value
  | .ApplyPatchCheckFn, argv => ∀ a ∈ argv.tail, Yields (Evaluate a)
  | .ApplyPatchSpaceFn, argv => 1 ≤ argv.length
  | .Sha1CheckFn, _ => ∀ data, (sys.SHA data).length = Applypatch.SHA_DIGEST_SIZE
  | _, _ => True

/-- A function keeps what its arguments and its own requests keep. -/
theorem call_keeps {fn : InstallFn} (hall : ∀ r, Makes fn r → allowed r)
    (hsafe : X ∨ Safe sys fn argv) : Keeps P (call sys w fn name argv) R X := by
  cases fn with
  | MountFn => exact mountFn_keeps h hargs hall
  | IsMountedFn => exact isMountedFn_keeps h hargs hall
  | UnmountFn => exact unmountFn_keeps h hargs hall
  | FormatFn => exact formatFn_keeps h hargs hall
  | ShowProgressFn => exact showProgressFn_keeps h hargs
  | SetProgressFn => exact setProgressFn_keeps h hargs
  | DeleteFn => exact deleteFn_keeps h hargs hall hsafe
  | PackageExtractDirFn => exact packageExtractDirFn_keeps h hargs hall
  | PackageExtractFileFn => exact packageExtractFileFn_keeps h hargs hall
  | SymlinkFn => exact symlinkFn_keeps h hargs hall
  | SetPermFn => exact setPermFn_keeps h hargs hall
  | GetPropFn => exact getPropFn_keeps h hargs hall
  | FileGetPropFn => exact fileGetPropFn_keeps h hargs hall hsafe
  | WriteRawImageFn => exact writeRawImageFn_keeps h hargs hall hsafe
  | ApplyPatchFn => exact applyPatchFn_keeps h hargs hall hsafe
  | ApplyPatchCheckFn => exact applyPatchCheckFn_keeps h hargs hall hsafe
  | ApplyPatchSpaceFn => exact applyPatchSpaceFn_keeps h hargs hall hsafe
  | ReadFileFn => exact readFileFn_keeps h hargs hall
  | Sha1CheckFn => exact sha1CheckFn_keeps h hargs hsafe
  | WipeCacheFn => exact wipeCacheFn_keeps h
  | UIPrintFn => exact uiPrintFn_keeps h hargs
  | RunProgramFn => exact runProgramFn_keeps h hargs hall

end Keeping

/-! ## Digests -/

section Digests

variable {fmt : Formats} {D : Type} {sys : Sys D} (name : Bytes)

def Value.string? : Value → Option Bytes
  | .VAL_STRING data => some data
  | .VAL_BLOB _ => none

/-- The first of the arguments that is `digest` in hexadecimal -/
def firstDigest (digest : Bytes) (args : List Value) : Option Bytes :=
  (args.filterMap Value.string?).find? fun str => Applypatch.parseSha1 (cstr str) = some digest

theorem firstDigest_string {digest data : Bytes} {args : List Value}
    (h : Applypatch.parseSha1 (cstr data) = some digest) :
    firstDigest digest (.VAL_STRING data :: args) = some data := by
  simp [firstDigest, Value.string?, h]

theorem firstDigest_skip {digest data : Bytes} {args : List Value}
    (h : Applypatch.parseSha1 (cstr data) ≠ some digest) :
    firstDigest digest (.VAL_STRING data :: args) = firstDigest digest args := by
  simp [firstDigest, Value.string?, h]

/-- The loop looks for the first string that is the digest; arguments that are no digest are
only reported. -/
theorem findDigest_eq {digest : Bytes} (args : List Value) (i : Nat) {arg_digest : Bytes}
    (hlen : arg_digest.length = Applypatch.SHA_DIGEST_SIZE) (s : World (UpdaterInfo fmt D)) :
    ∃ s', findDigest name digest i arg_digest args s =
      .done (some (firstDigest digest args), s') ∧ s'.cookie = s.cookie := by
  induction args generalizing i arg_digest s with
  | nil => exact ⟨s, rfl, rfl⟩
  | cons v args ih =>
    cases v with
    | VAL_BLOB data =>
      unfold findDigest
      obtain ⟨s', hrun, hcookie⟩ := ih (i + 1) hlen (s.emit (.stderr (name ++ ascii "(): arg " ++
        printNat 10 i ++ ascii " is not a string; skipping")))
      exact ⟨s', hrun, hcookie⟩
    | VAL_STRING data =>
      unfold findDigest
      have hzero := zero_notMem_cstr data
      obtain ⟨r, d, hrun, hd⟩ := parseSha1_done hzero hlen
      have hlift : (lift (.done (r, d)) : Work fmt D (Int × Bytes)) = ret (r, d) := rfl
      have hparse : Applypatch.parseSha1 (cstr data) = some digest ↔ r = 0 ∧ d = digest := by
        have hiff : Applypatch.ParseSha1 (cstr data ++ [0]) arg_digest = .done (0, digest) ↔ _ :=
          Applypatch.ParseSha1_zero_iff hzero hlen
        rw [← hiff, hrun]
        simp
      rw [hrun, hlift, ret_bind]
      dsimp only
      split_ifs with hr hdigest
      · rw [firstDigest_skip fun hp => hr (hparse.mp hp).1]
        obtain ⟨s', hrun, hcookie⟩ := ih (i + 1) hd (s.emit (.stderr (name ++
          ascii "(): error parsing \"" ++ cstr data ++ ascii "\" as sha-1; skipping")))
        exact ⟨s', hrun, hcookie⟩
      · rw [firstDigest_string (hparse.mpr ⟨not_not.mp hr, hdigest.symm⟩)]
        exact ⟨s, rfl, rfl⟩
      · rw [firstDigest_skip fun hp => hdigest (hparse.mp hp).2.symm]
        exact ih (i + 1) hd s

theorem checkDigest_cons (digest : Bytes) (v : Value) (args : List Value)
    (s : World (UpdaterInfo fmt D)) :
    ∃ s', checkDigest name digest (v :: args) s =
      .done (some (StringValue ((firstDigest digest (v :: args)).getD [])), s') ∧
      s'.cookie = s.cookie := by
  have hlen : (List.replicate 20 (0 : UInt8)).length = Applypatch.SHA_DIGEST_SIZE := rfl
  obtain ⟨s', hrun, hcookie⟩ := findDigest_eq name (v :: args) 1 hlen s
  exact ⟨s', bind_apply hrun _, hcookie⟩

/-- The string that is printed for a digest is read as this digest. -/
theorem checkDigest_nil {digest : Bytes} (hlen : digest.length = Applypatch.SHA_DIGEST_SIZE)
    (s : World (UpdaterInfo fmt D)) :
    ∃ str, checkDigest name digest [] s = .done (some (StringValue str), s) ∧
      Applypatch.parseSha1 (cstr str) = some digest := by
  have hbuffer : (List.replicate 41 (0 : UInt8)).length = Applypatch.SHA_DIGEST_SIZE * 2 + 1 := rfl
  obtain ⟨digits, hden, hrun⟩ := Applypatch.PrintSha1_denotes hlen hbuffer
  have hzero : 0 ∉ digits := fun hmem => hden.digit 0 hmem Applypatch.hexDigit_zero
  have hcstr : cstr (digits ++ [0]) = digits := cstr_append_zero hzero []
  refine ⟨digits, ?_, ?_⟩
  · rw [checkDigest, hrun]
    exact congrArg (fun str => Outcome.done (some (StringValue str), s)) hcstr
  · rw [cstr_of_zero_notMem hzero]
    exact Applypatch.parseSha1_eq_some_iff.mpr ⟨hden, hlen⟩

/-- `sha1_check` of the contents of a file: with digests the first one that is the digest of the
contents, or nothing; alone a string that the same check finds. -/
theorem sha1_check_finds {argv : List (Argument fmt D)} {s s₁ : World (UpdaterInfo fmt D)}
    {data : Bytes} {args : List Value}
    (hargs : gather (argv.map Arg.value) s = .done (some (.VAL_BLOB (some data) :: args), s₁))
    (hsha : (sys.SHA data).length = Applypatch.SHA_DIGEST_SIZE) :
    ∃ str s', Sha1CheckFn sys name argv s = .done (some (StringValue str), s') ∧
      s'.cookie = s₁.cookie ∧
      (args ≠ [] → str = (firstDigest (sys.SHA data) args).getD []) ∧
      (args = [] → firstDigest (sys.SHA data) [StringValue str] = some str) := by
  have hargc : argv ≠ [] := by
    rintro rfl
    cases hargs
  rw [Sha1CheckFn, if_neg hargc, bind_apply hargs]
  cases args with
  | nil =>
    obtain ⟨str, hrun, hparse⟩ := checkDigest_nil name hsha s₁
    exact ⟨str, s₁, hrun, rfl, fun h => absurd rfl h, fun _ => firstDigest_string hparse⟩
  | cons v args =>
    obtain ⟨s', hrun, hcookie⟩ := checkDigest_cons name (sys.SHA data) v args s₁
    exact ⟨_, s', hrun, hcookie, fun _ => rfl, fun h => absurd h (List.cons_ne_nil _ _)⟩

end Digests

instance (r : Request) : Inhabited r.Answer := by
  cases r <;> first | exact inferInstanceAs (Inhabited _) | exact ⟨⟨true, true, true, true, [], []⟩⟩

def Request.isQuestion : Request → Bool
  | find_mounted_volume_by_mount_point _ => true
  | _ => false

/-- A system that counts the requests, but for the question whether a volume is mounted. -/
def sampleSys : Sys Nat where
  answer r d := (default, if r.isQuestion then d else d + 1)
  strerror _ := []
  SHA _ := List.replicate 20 0
  USE_EXT4 := false

/-- The contents of a file, and its digest in the sample system. -/
def sampleDigest : List (Argument halfFormats Nat) :=
  [⟨⟨0, 0⟩, ret (.VAL_BLOB (some (ascii "data")))⟩,
    ⟨⟨0, 0⟩, Literal (List.replicate 40 48)⟩]

theorem sha1_check_finds_sample : ∃ str s',
    Sha1CheckFn sampleSys (ascii "sha1_check") sampleDigest ⟨⟨[], 0⟩, none, []⟩ =
      .done (some (StringValue str), s') ∧ s'.cookie.device = 0 := by
  have hargs : gather (sampleDigest.map Arg.value) ⟨⟨[], 0⟩, none, []⟩ =
      .done (some [.VAL_BLOB (some (ascii "data")), StringValue (List.replicate 40 48)],
        ⟨⟨[], 0⟩, none, []⟩) := rfl
  have hsha : (sampleSys.SHA (ascii "data")).length = Applypatch.SHA_DIGEST_SIZE := rfl
  obtain ⟨str, s', hrun, hcookie, -⟩ := sha1_check_finds (ascii "sha1_check") hargs hsha
  exact ⟨str, s', hrun, congrArg UpdaterInfo.device hcookie⟩

end BootableRecovery.Updater.Install
