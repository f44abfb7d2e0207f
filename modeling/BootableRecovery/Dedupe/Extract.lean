import BootableRecovery.Dedupe.Store

/-!
# `dedupe.c`: extracting a manifest

`dedupe x` makes the files of a manifest in a directory. It runs as root, and
its calls fail only for a reason that the state shows: a blob or a parent
directory that is missing, or a name that is taken. The creation mask is a
parameter.

Main results:
* `extract_nodeLines`: the lines of a part of the tree make that part of it.
* `dedupe_roundtrip_iff`: what `dedupe c` stored is rebuilt if and only if no
  link has a target of more than 40 bytes; `link` has 41 bytes.
-/

namespace BootableRecovery.Dedupe

/-! ## The output directory -/

/-- A file, directory or link that was made, with its permissions and owner. -/
inductive Entry where
  | file (mode uid gid : Nat) (content : Bytes)
  | dir (mode uid gid : Nat)
  | link (uid gid : Nat) (target : Bytes)
  deriving DecidableEq, Repr

/-- What stands at each path of the output directory. -/
abbrev Files := Bytes → Option Entry

def Files.set (fs : Files) (path : Bytes) (entry : Entry) : Files :=
  Function.update fs path (some entry)

/-- The path up to its last slash. -/
def parent (path : Bytes) : Bytes := (path.reverse.dropWhile (· ≠ 47)).tail.reverse

/-- The output directory itself is `.`; links are not followed. -/
def isDir (fs : Files) (path : Bytes) : Bool :=
  path = ascii "." ||
    match fs path with
    | some (.dir _ _ _) => true
    | _ => false

/-- The part of a mode that the creation mask leaves. -/
def masked (umask mode : Nat) : Nat := mode ^^^ (mode &&& umask)

/-- `open` with `O_CREAT | O_TRUNC`, followed by the writes. -/
def creat (umask : Nat) (fs : Files) (path content : Bytes) : Option Files :=
  if isDir fs (parent path) then
    match fs path with
    | none => some (fs.set path (.file (masked umask 0o666) 0 0 content))
    | some (.file mode uid gid _) => some (fs.set path (.file mode uid gid content))
    | some _ => none
  else none

def mkdir (umask : Nat) (fs : Files) (path : Bytes) (mode : Int) : Files :=
  if isDir fs (parent path) ∧ fs path = none then
    fs.set path (.dir (masked umask (mode.toNat &&& 0o1777)) 0 0)
  else fs

def symlink (fs : Files) (target path : Bytes) : Files :=
  if isDir fs (parent path) ∧ fs path = none ∧ target ≠ [] then fs.set path (.link 0 0 target)
  else fs

/-- The owner -1 means that it stays as it is. -/
def newOwner (old : Nat) (new : Int) : Nat := if toU32 new = 2 ^ 32 - 1 then old else toU32 new

/-- `chown`; a file loses its set-id bits. -/
def chown (fs : Files) (path : Bytes) (uid gid : Int) : Files :=
  match fs path with
  | some (.file mode u g content) =>
    fs.set path (.file (mode &&& 0o1777) (newOwner u uid) (newOwner g gid) content)
  | some (.dir mode u g) => fs.set path (.dir mode (newOwner u uid) (newOwner g gid))
  | _ => fs

def lchown (fs : Files) (path : Bytes) (uid gid : Int) : Files :=
  match fs path with
  | some (.link u g target) => fs.set path (.link (newOwner u uid) (newOwner g gid) target)
  | _ => chown fs path uid gid

def chmod (fs : Files) (path : Bytes) (mode : Int) : Files :=
  match fs path with
  | some (.file _ u g content) => fs.set path (.file (mode.toNat &&& 0o7777) u g content)
  | some (.dir _ u g) => fs.set path (.dir (mode.toNat &&& 0o7777) u g)
  | _ => fs

/-! ## `dedupe x` -/

section Extract

variable (blobs : Bytes → Option Bytes) (umask : Nat)

/-- `copy_file` from a blob: its status, and the files. -/
def copyOut (sha256 filename : Bytes) (fs : Files) : Int × Files :=
  match blobs sha256 with
  | none => (3, fs)
  | some content =>
    match creat umask fs filename content with
    | none => (4, fs)
    | some fs => (0, fs)

/-- One line of the manifest: the status, 0 to go on, and the files. The times
that `utimes` sets are left out. -/
def extractLine (version : Int) (fs : Files) (line : Bytes) : Outcome (Int × Files) := do
  let (head, rest) ← tokenizeHead version line
  let filename := head.filename
  let mode_oct := dec_to_oct (atoi head.mode)
  let uid_int := atoi head.uid
  let gid_int := atoi head.gid
  if head.type = ascii "f" then do
    let (sha256, _) ← tokenizeFile rest
    let (ret, fs) := copyOut blobs umask sha256 filename fs
    if ret ≠ 0 then .done (ret, fs)
    else .done (0, chmod (chown fs filename uid_int gid_int) filename mode_oct)
  else if head.type = ascii "l" then do
    let (link, _) ← tokenize tab 41 rest
    .done (0, lchown (symlink fs link filename) filename uid_int gid_int)
  else if head.type = ascii "d" then
    .done (0, chmod (chown (mkdir umask fs filename mode_oct) filename uid_int gid_int) filename
      mode_oct)
  else .done (1, fs)

/-- The loop over the lines. -/
def extractLines (version : Int) : Files → List Bytes → Outcome (Int × Files)
  | fs, [] => .done (0, fs)
  | fs, line :: lines => do
    let (ret, fs) ← extractLine blobs umask version fs line
    if ret ≠ 0 then .done (ret, fs) else extractLines version fs lines

/-- `dedupe x` into an output directory. -/
def dedupe_x (manifest : Bytes) (fs : Files) : Outcome (Int × Files) := do
  let (version, rest) ← readVersion manifest
  if DEDUPE_VERSION < version then .done (1, fs)
  else extractLines blobs umask version fs (fgetsAll PATH_MAX rest)

end Extract

/-! ## The lines of a tree -/

/-- The line of a file. -/
def fileLine (sha256 : Bytes → Digest) (path : Bytes) (st : Stat) (content : Bytes) : Bytes :=
  print_stat 102 st path ++ fileFields (blobName sha256 content) (wrap32 st.st_size)

/-- The line of a directory. -/
def dirLine (path : Bytes) (st : Stat) : Bytes := print_stat 100 st path ++ [10]

/-- The line of a link. -/
def linkLine (path : Bytes) (st : Stat) (target : Bytes) : Bytes :=
  print_stat 108 st path ++ linkFields target

section Lines

variable (sha256 : Bytes → Digest)

mutual

/-- The lines of the manifest for a file or directory. -/
def nodeLines (path : Bytes) : Node → List Bytes
  | .file st content => [fileLine sha256 path st content]
  | .dir st entries => dirLine path st :: entriesLines path entries
  | .link st target => [linkLine path st target]
  | .special _ => []

/-- The lines of the manifest for the entries of a directory. -/
def entriesLines (d : Bytes) : List (Bytes × Node) → List Bytes
  | [] => []
  | (name, node) :: entries => nodeLines (d ++ 47 :: name) node ++ entriesLines d entries

end

mutual

theorem nodeText_eq (path : Bytes) : ∀ node : Node,
    nodeText sha256 [] path node = (nodeLines sha256 path node).flatten
  | .file st content => by simp [nodeText, nodeLines, fileLine]
  | .dir st entries => by
    simp [nodeText, nodeLines, dirLine, entriesText_eq path entries]
  | .link st target => by simp [nodeText, nodeLines, linkLine]
  | .special st => by simp [nodeText, nodeLines]

theorem entriesText_eq (d : Bytes) : ∀ entries : List (Bytes × Node),
    entriesText sha256 [] d entries = (entriesLines sha256 d entries).flatten
  | [] => by simp [entriesText, entriesLines]
  | (name, node) :: entries => by
    simp [entriesText, entriesLines, nodeText_eq (d ++ 47 :: name) node, entriesText_eq d entries]

end

end Lines

/-! ## Fields of a line -/

/-- A string that can be a field. -/
def FieldText (s : Bytes) : Prop := tab ∉ s ∧ 10 ∉ s ∧ 0 ∉ s

instance (s : Bytes) : Decidable (FieldText s) :=
  inferInstanceAs (Decidable (tab ∉ s ∧ 10 ∉ s ∧ 0 ∉ s))

theorem FieldText.append {s t : Bytes} (hs : FieldText s) (ht : FieldText t) :
    FieldText (s ++ t) := by
  refine ⟨fun h => ?_, fun h => ?_, fun h => ?_⟩
  · exact (List.mem_append.mp h).elim hs.1 ht.1
  · exact (List.mem_append.mp h).elim hs.2.1 ht.2.1
  · exact (List.mem_append.mp h).elim hs.2.2 ht.2.2

theorem fieldText_printNat {base n : Nat} (hbase : 1 < base) (hle : base ≤ 10) :
    FieldText (printNat base n) := by
  refine ⟨fun h => ?_, fun h => ?_, fun h => ?_⟩ <;>
    exact absurd (isDigit_of_mem_printNat hbase hle h) (by decide)

theorem fieldText_printInt (n : Int) : FieldText (printInt n) := by
  refine ⟨fun h => ?_, fun h => ?_, fun h => ?_⟩ <;>
    exact absurd (mem_printInt h) (by decide)

theorem fieldText_hex (sum : Bytes) : FieldText (hex sum) := by
  have hchar : ∀ d < 16, hexChar d ≠ tab ∧ hexChar d ≠ 10 ∧ hexChar d ≠ 0 := by decide
  have hmem : ∀ c ∈ hex sum, ∃ d < 16, c = hexChar d := by
    intro c hc
    obtain ⟨b, -, hb⟩ := List.mem_flatMap.mp hc
    have hlt := b.toNat_lt
    rcases List.mem_pair.mp hb with rfl | rfl
    · exact ⟨_, by omega, rfl⟩
    · exact ⟨_, by omega, rfl⟩
  refine ⟨fun h => ?_, fun h => ?_, fun h => ?_⟩
  · obtain ⟨d, hd, hc⟩ := hmem _ h
    exact (hchar d hd).1 hc.symm
  · obtain ⟨d, hd, hc⟩ := hmem _ h
    exact (hchar d hd).2.1 hc.symm
  · obtain ⟨d, hd, hc⟩ := hmem _ h
    exact (hchar d hd).2.2 hc.symm

theorem fieldText_blobName (sha256 : Bytes → Digest) (content : Bytes) :
    FieldText (blobName sha256 content) := by
  have hhex := fieldText_hex (sha256 content).1
  rw [blobName_eq]
  unfold digestPath
  have hfront : FieldText ((hex (sha256 content).1).take 3) :=
    ⟨fun h => hhex.1 (List.mem_of_mem_take h), fun h => hhex.2.1 (List.mem_of_mem_take h),
      fun h => hhex.2.2 (List.mem_of_mem_take h)⟩
  have hback : FieldText ((hex (sha256 content).1).drop 3) :=
    ⟨fun h => hhex.1 (List.mem_of_mem_drop h), fun h => hhex.2.1 (List.mem_of_mem_drop h),
      fun h => hhex.2.2 (List.mem_of_mem_drop h)⟩
  have hslash : FieldText [47] := by decide
  exact hfront.append (hslash.append hback)

theorem blobName_length (sha256 : Bytes → Digest) (content : Bytes) :
    (blobName sha256 content).length = 65 := by
  have hlen := hex_length (sha256 content).1
  have h32 := (sha256 content).2
  rw [blobName_eq]
  simp only [digestPath, List.length_append, List.length_take, List.length_cons, List.length_drop]
  omega

/-- A field is read from the rest of the line. -/
theorem FieldText.tokenize {field : Bytes} (h : FieldText field) {size : Nat}
    (hfit : field.length < size) (rest : Bytes) :
    Dedupe.tokenize tab size (field ++ tab :: rest) = .done (field, rest) :=
  tokenize_field h.1 h.2.2 hfit rest

theorem printInt_wrap32_length (n : Int) : (printInt (wrap32 n)).length < 32 := by
  have hrange := wrap32_range n
  generalize wrap32 n = m at hrange ⊢
  have hlen : (printInt m).length ≤ 10 + 1 := printInt_length_le (by omega) (by omega)
  omega

theorem printNat_time_length {n : Nat} (h : n < 2 ^ 64) : (printNat 10 n).length < 32 := by
  have hlen : (printNat 10 n).length ≤ 20 := printNat_length_le (by omega) (by omega) (by omega)
  omega

theorem printNat_mode_length (mode : Nat) : (printNat 8 (mode &&& MODE_MASK)).length < 8 := by
  have hle : mode &&& MODE_MASK ≤ MODE_MASK := Nat.and_le_right
  have hmask : MODE_MASK < 8 ^ 4 := by decide
  have hlen : (printNat 8 (mode &&& MODE_MASK)).length ≤ 4 :=
    printNat_length_le (by omega) (by omega) (by omega)
  omega

/-- The fields of `print_stat`, with what follows each of them. -/
theorem fields_append (type : UInt8) (mode uid gid atime mtime ctime path rest : Bytes) :
    [type, tab] ++ mode ++ [tab] ++ uid ++ [tab] ++ gid ++ [tab] ++ atime ++ [tab] ++ mtime ++
      [tab] ++ ctime ++ [tab] ++ path ++ [tab] ++ rest =
    [type] ++ tab :: (mode ++ tab :: (uid ++ tab :: (gid ++ tab :: (atime ++ tab :: (mtime ++
      tab :: (ctime ++ tab :: (path ++ tab :: rest))))))) := by
  simp only [List.append_assoc, List.cons_append, List.nil_append]

/-- The fields that `print_stat` writes are read again. -/
theorem tokenizeHead_print_stat {type : UInt8} (htype : FieldText [type]) (st : Stat)
    {path : Bytes} (hpath : FieldText path) (hlen : path.length < PATH_MAX) (rest : Bytes) :
    tokenizeHead 2 (print_stat type st path ++ rest) =
      .done (⟨[type], printNat 8 (st.st_mode &&& MODE_MASK), printInt (wrap32 st.st_uid),
        printInt (wrap32 st.st_gid), [printNat 10 st.st_atime, printNat 10 st.st_mtime,
        printNat 10 st.st_ctime], path⟩, rest) := by
  have htypeRead : ∀ line, tokenize tab 4 ([type] ++ tab :: line) = .done ([type], line) :=
    htype.tokenize (by simp)
  have hmode := (fieldText_printNat (by omega) (by omega) : FieldText (printNat 8
    (st.st_mode &&& MODE_MASK))).tokenize (printNat_mode_length st.st_mode)
  have hint : ∀ (n : Int) (line : Bytes), tokenize tab 32 (printInt (wrap32 n) ++ tab :: line) =
      .done (printInt (wrap32 n), line) := fun n =>
    (fieldText_printInt _).tokenize (printInt_wrap32_length n)
  have htime : ∀ {n : Nat} (_ : n < 2 ^ 64) (line : Bytes),
      tokenize tab 32 (printNat 10 n ++ tab :: line) = .done (printNat 10 n, line) := fun hn =>
    (fieldText_printNat (by omega) le_rfl).tokenize (printNat_time_length hn)
  have hshape : print_stat type st path ++ rest = [type] ++ tab :: (printNat 8
      (st.st_mode &&& MODE_MASK) ++ tab :: (printInt (wrap32 st.st_uid) ++ tab :: (printInt
      (wrap32 st.st_gid) ++ tab :: (printNat 10 st.st_atime ++ tab :: (printNat 10 st.st_mtime ++
      tab :: (printNat 10 st.st_ctime ++ tab :: (path ++ tab :: rest))))))) := by
    unfold print_stat
    exact fields_append ..
  rw [hshape]
  unfold tokenizeHead tokenizeTimes
  rw [htypeRead, Outcome.done_bind]
  simp only
  rw [hmode, Outcome.done_bind]
  simp only
  rw [hint, Outcome.done_bind]
  simp only
  rw [hint, Outcome.done_bind]
  simp only
  rw [if_pos le_rfl, htime st.atime_lt, Outcome.done_bind]
  simp only
  rw [htime st.mtime_lt, Outcome.done_bind]
  simp only
  rw [htime st.ctime_lt, Outcome.done_bind]
  simp only [Outcome.done_bind]
  rw [hpath.tokenize hlen, Outcome.done_bind]

theorem tokenizeFile_fileFields (sha256 : Bytes → Digest) (content : Bytes) (size : Int) :
    tokenizeFile (fileFields (blobName sha256 content) (wrap32 size)) =
      .done (blobName sha256 content, printInt (wrap32 size)) := by
  have hlen := blobName_length sha256 content
  have hblob := (fieldText_blobName sha256 content).tokenize (show _ < 128 by rw [hlen]; decide)
  have hsize := (fieldText_printInt (wrap32 size)).tokenize (printInt_wrap32_length size)
  have hshape : fileFields (blobName sha256 content) (wrap32 size) = blobName sha256 content ++
      tab :: (printInt (wrap32 size) ++ tab :: [10]) := by
    simp only [fileFields, List.append_assoc, List.cons_append, List.nil_append]
  rw [hshape]
  unfold tokenizeFile
  rw [hblob, Outcome.done_bind]
  simp only
  rw [hsize, Outcome.done_bind]

/-! ## One line -/

@[simp] theorem Files.set_same (fs : Files) (path : Bytes) (entry : Entry) :
    (fs.set path entry) path = some entry := by
  simp [Files.set]

theorem Files.set_of_ne (fs : Files) {path path' : Bytes} (h : path' ≠ path) (entry : Entry) :
    (fs.set path entry) path' = fs path' := by
  simp [Files.set, h]

@[simp] theorem Files.set_set (fs : Files) (path : Bytes) (entry entry' : Entry) :
    (fs.set path entry).set path entry' = fs.set path entry' := by
  simp [Files.set]

/-- A printed user or group number is the owner again. -/
theorem newOwner_wrap32 {n : Nat} (h : n < 2 ^ 32 - 1) (old : Nat) :
    newOwner old (wrap32 n) = n := by
  unfold newOwner
  rw [toU32_wrap32 (lt_of_lt_of_le h (Nat.sub_le _ _)), if_neg (ne_of_lt h)]

theorem and_mode_mask (mode : Nat) : (mode &&& MODE_MASK) &&& 0o7777 = mode &&& MODE_MASK := by
  rw [Nat.and_assoc]
  rfl

/-- The entry that a file or link of the input has after it was extracted. Of a
mode, the permissions and the set-id bits are kept. -/
def fileEntry (st : Stat) (content : Bytes) : Entry :=
  .file (st.st_mode &&& MODE_MASK) st.st_uid st.st_gid content

def dirEntry (st : Stat) : Entry := .dir (st.st_mode &&& MODE_MASK) st.st_uid st.st_gid

def linkEntry (st : Stat) (target : Bytes) : Entry := .link st.st_uid st.st_gid target

theorem atoi_wrap32 (n : Nat) : atoi (printInt (wrap32 n)) = wrap32 n := by
  have hread : atoi (printInt (wrap32 n) ++ []) = wrap32 n := atoi_printInt _ (by simp)
  rwa [List.append_nil] at hread

theorem dec_to_oct_mode (st : Stat) :
    dec_to_oct (atoi (printNat 8 (st.st_mode &&& MODE_MASK))) =
      ((st.st_mode &&& MODE_MASK : Nat) : Int) := by
  have hread : dec_to_oct (atoi (printNat 8 (st.st_mode &&& MODE_MASK) ++ [])) = _ :=
    dec_to_oct_printed _ (by simp)
  rwa [List.append_nil] at hread

/-- `chown` and `chmod` on a new file give it the mode and owner of the input. -/
theorem chmod_chown_file (fs : Files) (path content : Bytes) (mode uid gid : Nat) (st : Stat) :
    chmod (chown (fs.set path (.file mode uid gid content)) path (wrap32 st.st_uid)
      (wrap32 st.st_gid)) path ((st.st_mode &&& MODE_MASK : Nat) : Int) =
      fs.set path (fileEntry st content) := by
  unfold chown
  rw [Files.set_same]
  simp only [Files.set_set]
  unfold chmod
  rw [Files.set_same]
  simp only [Files.set_set]
  rw [newOwner_wrap32 st.uid_lt, newOwner_wrap32 st.gid_lt, Int.toNat_natCast, and_mode_mask]
  rfl

theorem chmod_chown_dir (fs : Files) (path : Bytes) (mode uid gid : Nat) (st : Stat) :
    chmod (chown (fs.set path (.dir mode uid gid)) path (wrap32 st.st_uid)
      (wrap32 st.st_gid)) path ((st.st_mode &&& MODE_MASK : Nat) : Int) =
      fs.set path (dirEntry st) := by
  unfold chown
  rw [Files.set_same]
  simp only [Files.set_set]
  unfold chmod
  rw [Files.set_same]
  simp only [Files.set_set]
  rw [newOwner_wrap32 st.uid_lt, newOwner_wrap32 st.gid_lt, Int.toNat_natCast, and_mode_mask]
  rfl

theorem lchown_link (fs : Files) (path target : Bytes) (uid gid : Nat) (st : Stat) :
    lchown (fs.set path (.link uid gid target)) path (wrap32 st.st_uid) (wrap32 st.st_gid) =
      fs.set path (linkEntry st target) := by
  unfold lchown
  rw [Files.set_same]
  simp only [Files.set_set]
  rw [newOwner_wrap32 st.uid_lt, newOwner_wrap32 st.gid_lt]
  rfl

section Line

variable {sha256 : Bytes → Digest} (blobs : Bytes → Option Bytes) (umask : Nat) {fs : Files}
  {path : Bytes}

theorem extractLine_file (hpath : FieldText path) (hlen : path.length < PATH_MAX)
    (hparent : isDir fs (parent path) = true) (hfresh : fs path = none) (st : Stat)
    {content : Bytes} (hblob : blobs (blobName sha256 content) = some content) :
    extractLine blobs umask 2 fs (fileLine sha256 path st content) =
      .done (0, fs.set path (fileEntry st content)) := by
  have hcopy : copyOut blobs umask (blobName sha256 content) path fs =
      (0, fs.set path (.file (masked umask 0o666) 0 0 content)) := by
    simp [copyOut, creat, hblob, hparent, hfresh]
  unfold extractLine fileLine
  rw [tokenizeHead_print_stat (by decide) st hpath hlen, Outcome.done_bind]
  simp only
  rw [if_pos (show [(102 : UInt8)] = ascii "f" by decide), tokenizeFile_fileFields,
    Outcome.done_bind]
  simp only
  rw [hcopy]
  simp only
  rw [if_neg (by simp), atoi_wrap32, atoi_wrap32, dec_to_oct_mode, chmod_chown_file]

theorem extractLine_dir (hpath : FieldText path) (hlen : path.length < PATH_MAX)
    (hparent : isDir fs (parent path) = true) (hfresh : fs path = none) (st : Stat) :
    extractLine blobs umask 2 fs (dirLine path st) = .done (0, fs.set path (dirEntry st)) := by
  have hmkdir : ∀ mode, mkdir umask fs path mode =
      fs.set path (.dir (masked umask (mode.toNat &&& 0o1777)) 0 0) := fun mode =>
    if_pos ⟨hparent, hfresh⟩
  unfold extractLine dirLine
  rw [tokenizeHead_print_stat (by decide) st hpath hlen, Outcome.done_bind]
  simp only
  rw [if_neg (show [(100 : UInt8)] ≠ ascii "f" by decide),
    if_neg (show [(100 : UInt8)] ≠ ascii "l" by decide),
    if_pos (show [(100 : UInt8)] = ascii "d" by decide), hmkdir, atoi_wrap32, atoi_wrap32,
    dec_to_oct_mode, chmod_chown_dir]

/-- The line of a link, up to the token that is copied into `link`. -/
theorem extractLine_linkLine (hpath : FieldText path) (hlen : path.length < PATH_MAX) (st : Stat)
    (target : Bytes) :
    extractLine blobs umask 2 fs (linkLine path st target) = (do
      let (link, _) ← tokenize tab 41 (linkFields target)
      .done (0, lchown (symlink fs link path) path (wrap32 st.st_uid) (wrap32 st.st_gid))) := by
  unfold extractLine linkLine
  rw [tokenizeHead_print_stat (by decide) st hpath hlen, Outcome.done_bind]
  simp only
  rw [if_neg (show [(108 : UInt8)] ≠ ascii "f" by decide),
    if_pos (show [(108 : UInt8)] = ascii "l" by decide), atoi_wrap32, atoi_wrap32]

theorem extractLine_link (hpath : FieldText path) (hlen : path.length < PATH_MAX)
    (hparent : isDir fs (parent path) = true) (hfresh : fs path = none) (st : Stat)
    {target : Bytes} (htarget : FieldText target) (hne : target ≠ []) (hfit : target.length ≤ 40) :
    extractLine blobs umask 2 fs (linkLine path st target) =
      .done (0, fs.set path (linkEntry st target)) := by
  have hsym : symlink fs target path = fs.set path (.link 0 0 target) :=
    if_pos ⟨hparent, hfresh, hne⟩
  have hread : tokenize tab 41 (linkFields target) = .done (target, [10]) :=
    htarget.tokenize (by omega) [10]
  rw [extractLine_linkLine blobs umask hpath hlen, hread, Outcome.done_bind]
  simp only
  rw [hsym, lchown_link]

/-- A target of more than 40 bytes is written over the end of `link`. -/
theorem extractLine_long (hpath : FieldText path) (hlen : path.length < PATH_MAX) (st : Stat)
    {target : Bytes} (htarget : FieldText target) (hlong : 40 < target.length) :
    extractLine blobs umask 2 fs (linkLine path st target) = .fault := by
  have hread : tokenize tab 41 (linkFields target) = .fault :=
    tokenize_long htarget.1 hlong [10]
  rw [extractLine_linkLine blobs umask hpath hlen, hread, Outcome.fault_bind]

end Line

/-! ## The tree that is rebuilt -/

mutual

/-- The entries that a file or directory at a path stands for. -/
def nodeListing (path : Bytes) : Node → List (Bytes × Entry)
  | .file st content => [(path, fileEntry st content)]
  | .dir st entries => (path, dirEntry st) :: entriesListing path entries
  | .link st target => [(path, linkEntry st target)]
  | .special _ => []

def entriesListing (d : Bytes) : List (Bytes × Node) → List (Bytes × Entry)
  | [] => []
  | (name, node) :: entries => nodeListing (d ++ 47 :: name) node ++ entriesListing d entries

end

mutual

/-- The targets of all links. -/
def nodeTargets : Node → List Bytes
  | .file _ _ => []
  | .dir _ entries => entriesTargets entries
  | .link _ target => [target]
  | .special _ => []

def entriesTargets : List (Bytes × Node) → List Bytes
  | [] => []
  | (_, node) :: entries => nodeTargets node ++ entriesTargets entries

end

/-- A name in a directory, without tab and newline. -/
def ValidName (name : Bytes) : Prop := name ≠ [] ∧ 47 ∉ name ∧ FieldText name

mutual

/-- Files, directories and links, whose names and targets have no tab or
newline. -/
def ValidNode : Node → Prop
  | .file _ _ => True
  | .dir _ entries => ValidEntries entries
  | .link _ target => target ≠ [] ∧ FieldText target
  | .special _ => False

/-- The names of a directory are different. -/
def ValidEntries : List (Bytes × Node) → Prop
  | [] => True
  | (name, node) :: entries =>
    ValidName name ∧ ValidNode node ∧ (∀ entry ∈ entries, entry.1 ≠ name) ∧ ValidEntries entries

end

/-- All the entries of the tree are there, and nothing else is. -/
def Rebuilt (fs : Files) (entries : List (Bytes × Node)) : Prop :=
  ∀ path entry, fs path = some entry ↔ (path, entry) ∈ entriesListing (ascii ".") entries

/-! ### Paths -/

/-- The path `q` is `p` or lies below it. -/
def Under (p q : Bytes) : Prop := ∃ rest, q = p ++ rest ∧ (rest = [] ∨ rest.head? = some 47)

theorem Under.refl (p : Bytes) : Under p p := ⟨[], by simp, .inl rfl⟩

theorem Under.of_child {d name q : Bytes} (h : Under (d ++ 47 :: name) q) : Under d q := by
  obtain ⟨rest, rfl, -⟩ := h
  exact ⟨47 :: name ++ rest, by simp, .inr rfl⟩

/-- Below a directory there is not the directory itself. -/
theorem not_under_child (d name : Bytes) : ¬ Under (d ++ 47 :: name) d := by
  rintro ⟨rest, heq, -⟩
  have hlen := congrArg List.length heq
  simp at hlen

theorem takeWhile_name {name rest : Bytes} (hname : 47 ∉ name)
    (hrest : rest = [] ∨ rest.head? = some 47) : (name ++ rest).takeWhile (· ≠ 47) = name := by
  have hall : ∀ c ∈ name, (decide (c ≠ 47)) = true := by
    intro c hc
    simp only [ne_eq, decide_not, Bool.not_eq_true', decide_eq_false_iff_not]
    rintro rfl
    exact hname hc
  rw [List.takeWhile_append_of_pos hall]
  cases rest with
  | nil => simp
  | cons c rest =>
    obtain rfl : c = 47 := by simpa using hrest
    simp

/-- No path lies below two entries of one directory. -/
theorem Under.child_inj {d name name' q : Bytes} (hname : 47 ∉ name) (hname' : 47 ∉ name')
    (h : Under (d ++ 47 :: name) q) (h' : Under (d ++ 47 :: name') q) : name = name' := by
  obtain ⟨rest, rfl, hrest⟩ := h
  obtain ⟨rest', heq, hrest'⟩ := h'
  have hcancel : name ++ rest = name' ++ rest' := by simpa using heq
  rw [← takeWhile_name hname hrest, ← takeWhile_name hname' hrest', hcancel]

theorem parent_child {d name : Bytes} (hname : 47 ∉ name) : parent (d ++ 47 :: name) = d := by
  have hall : ∀ c ∈ name.reverse, (decide (c ≠ 47)) = true := by
    intro c hc
    simp only [ne_eq, decide_not, Bool.not_eq_true', decide_eq_false_iff_not]
    rintro rfl
    exact hname (List.mem_reverse.mp hc)
  have hrev : (d ++ 47 :: name).reverse = name.reverse ++ 47 :: d.reverse := by simp
  unfold parent
  rw [hrev, List.dropWhile_append_of_pos hall]
  simp

mutual

theorem under_of_mem_nodeListing {path : Bytes} {x : Bytes × Entry} : ∀ node : Node,
    x ∈ nodeListing path node → Under path x.1
  | .file st content, h => by
    rw [nodeListing, List.mem_singleton] at h
    exact h ▸ Under.refl path
  | .dir st entries, h => by
    rw [nodeListing] at h
    rcases List.mem_cons.mp h with rfl | h
    · exact Under.refl path
    · obtain ⟨name, -, hunder⟩ := under_of_mem_entriesListing entries h
      exact hunder.of_child
  | .link st target, h => by
    rw [nodeListing, List.mem_singleton] at h
    exact h ▸ Under.refl path
  | .special st, h => by
    rw [nodeListing] at h
    exact absurd h List.not_mem_nil

theorem under_of_mem_entriesListing {d : Bytes} {x : Bytes × Entry} :
    ∀ entries : List (Bytes × Node), x ∈ entriesListing d entries →
      ∃ name ∈ entries.map Prod.fst, Under (d ++ 47 :: name) x.1
  | [], h => by
    rw [entriesListing] at h
    exact absurd h List.not_mem_nil
  | (name, node) :: entries, h => by
    rw [entriesListing] at h
    rcases List.mem_append.mp h with h | h
    · exact ⟨name, by simp, under_of_mem_nodeListing node h⟩
    · obtain ⟨name', hmem, hunder⟩ := under_of_mem_entriesListing entries h
      exact ⟨name', List.mem_cons_of_mem _ hmem, hunder⟩

end

theorem ValidEntries.name_mem {entries : List (Bytes × Node)} (h : ValidEntries entries)
    {name : Bytes} (hmem : name ∈ entries.map Prod.fst) : ValidName name := by
  induction entries with
  | nil => exact absurd hmem List.not_mem_nil
  | cons entry entries ih =>
    obtain ⟨name', node⟩ := entry
    rw [ValidEntries] at h
    rcases List.mem_cons.mp hmem with rfl | hmem
    · exact h.1
    · exact ih h.2.2.2 hmem

/-- The entries of two names of a directory have different paths. -/
theorem listing_disjoint {d name : Bytes} {node : Node} {entries : List (Bytes × Node)}
    (hname : ValidName name) (hne : ∀ entry ∈ entries, entry.1 ≠ name)
    (hentries : ValidEntries entries) {x y : Bytes × Entry}
    (hx : x ∈ nodeListing (d ++ 47 :: name) node) (hy : y ∈ entriesListing d entries) :
    x.1 ≠ y.1 := by
  intro heq
  obtain ⟨name', hmem, hunder'⟩ := under_of_mem_entriesListing entries hy
  have hunder := under_of_mem_nodeListing node hx
  rw [heq] at hunder
  have hsame := Under.child_inj hname.2.1 (hentries.name_mem hmem).2.1 hunder hunder'
  obtain ⟨entry, hentry, hentry'⟩ := List.mem_map.mp hmem
  exact hne entry hentry (hentry'.trans hsame.symm)

mutual

theorem nodup_nodeListing (path : Bytes) : ∀ node : Node, ValidNode node →
    ((nodeListing path node).map Prod.fst).Nodup
  | .file st content, _ => by simp [nodeListing]
  | .dir st entries, h => by
    rw [ValidNode] at h
    rw [nodeListing, List.map_cons, List.nodup_cons]
    refine ⟨fun hmem => ?_, nodup_entriesListing path entries h⟩
    obtain ⟨x, hx, hpath⟩ := List.mem_map.mp hmem
    obtain ⟨name, -, hunder⟩ := under_of_mem_entriesListing entries hx
    rw [hpath] at hunder
    exact not_under_child path name hunder
  | .link st target, _ => by simp [nodeListing]
  | .special st, _ => by simp [nodeListing]

theorem nodup_entriesListing (d : Bytes) : ∀ entries : List (Bytes × Node),
    ValidEntries entries → ((entriesListing d entries).map Prod.fst).Nodup
  | [], _ => by simp [entriesListing]
  | (name, node) :: entries, h => by
    rw [ValidEntries] at h
    obtain ⟨hname, hnode, hne, hentries⟩ := h
    rw [entriesListing, List.map_append, List.nodup_append]
    refine ⟨nodup_nodeListing _ node hnode, nodup_entriesListing d entries hentries, ?_⟩
    intro p hp q hq
    obtain ⟨x, hx, rfl⟩ := List.mem_map.mp hp
    obtain ⟨y, hy, rfl⟩ := List.mem_map.mp hq
    exact listing_disjoint hname hne hentries hx hy

end

/-! ### Making the entries one after another -/

/-- The files after the entries of a list have been made. -/
def applyAll (fs : Files) (l : List (Bytes × Entry)) : Files :=
  l.foldl (fun fs x => fs.set x.1 x.2) fs

theorem applyAll_append (fs : Files) (l l' : List (Bytes × Entry)) :
    applyAll fs (l ++ l') = applyAll (applyAll fs l) l' :=
  List.foldl_append

theorem applyAll_of_notMem {fs : Files} {l : List (Bytes × Entry)} {path : Bytes}
    (h : ∀ x ∈ l, x.1 ≠ path) : applyAll fs l path = fs path := by
  induction l generalizing fs with
  | nil => rfl
  | cons x l ih =>
    have hx : path ≠ x.1 := (h x (List.mem_cons_self ..)).symm
    have hl : applyAll (fs.set x.1 x.2) l path = fs.set x.1 x.2 path :=
      ih fun y hy => h y (List.mem_cons_of_mem _ hy)
    rw [applyAll, List.foldl_cons, ← applyAll, hl, Files.set_of_ne fs hx]

/-- When the paths are different, every entry of the list is there at the end. -/
theorem applyAll_eq_some {l : List (Bytes × Entry)} (hnodup : (l.map Prod.fst).Nodup)
    (fs : Files) (path : Bytes) (entry : Entry) : applyAll fs l path = some entry ↔
      (path, entry) ∈ l ∨ (∀ x ∈ l, x.1 ≠ path) ∧ fs path = some entry := by
  induction l generalizing fs with
  | nil => simp [applyAll]
  | cons x l ih =>
    rw [List.map_cons, List.nodup_cons] at hnodup
    obtain ⟨hx, hl⟩ := hnodup
    rw [applyAll, List.foldl_cons, ← applyAll, ih hl]
    rcases eq_or_ne path x.1 with rfl | hne
    · have hnot : ∀ y ∈ l, y.1 ≠ x.1 := fun y hy heq => hx (List.mem_map.mpr ⟨y, hy, heq⟩)
      have hnotMem : (x.1, entry) ∉ l := fun hmem => hnot _ hmem rfl
      rw [Files.set_same]
      constructor
      · rintro (hmem | ⟨-, heq⟩)
        · exact absurd hmem hnotMem
        · exact .inl (by rw [← Option.some.inj heq]; exact List.mem_cons_self ..)
      · rintro (hmem | ⟨hall, -⟩)
        · rcases List.mem_cons.mp hmem with heq | hmem
          · exact .inr ⟨hnot, by rw [← heq]⟩
          · exact absurd hmem hnotMem
        · exact absurd rfl (hall x (List.mem_cons_self ..))
    · rw [Files.set_of_ne fs hne]
      have hneq : (path, entry) ≠ x := fun heq => hne (congrArg Prod.fst heq)
      simp only [List.mem_cons, hneq, false_or, forall_eq_or_imp, ne_eq, Ne.symm hne,
        not_false_eq_true, true_and]

theorem isDir_congr {fs fs' : Files} {path : Bytes} (h : fs path = fs' path) :
    isDir fs path = isDir fs' path := by
  unfold isDir
  rw [h]

theorem isDir_set_dir (fs : Files) (path : Bytes) (st : Stat) :
    isDir (fs.set path (dirEntry st)) path = true := by
  unfold isDir
  rw [Files.set_same]
  simp [dirEntry]

/-- The path is a part of the line. -/
theorem path_length_lt {type : UInt8} {st : Stat} {path rest : Bytes}
    (h : (print_stat type st path ++ rest).length < PATH_MAX) : path.length < PATH_MAX := by
  have hpart : path <:+: print_stat type st path := ⟨_, [tab], rfl⟩
  have hle := (hpart.trans (List.prefix_append _ rest).isInfix).length_le
  exact lt_of_le_of_lt hle h

theorem FieldText.child {d name : Bytes} (hd : FieldText d) (hname : ValidName name) :
    FieldText (d ++ 47 :: name) := by
  have hslash : FieldText [47] := by decide
  exact hd.append (hslash.append hname.2.2)

theorem entriesContents_cons (d name : Bytes) (node : Node) (entries : List (Bytes × Node)) :
    entriesContents [] d ((name, node) :: entries) =
      nodeContents [] (d ++ 47 :: name) node ++ entriesContents [] d entries := by
  simp [entriesContents]

section Rebuild

variable {sha256 : Bytes → Digest} {blobs : Bytes → Option Bytes} {umask : Nat}

theorem extractLines_cons {fs fs' : Files} {line : Bytes} (lines : List Bytes)
    (h : extractLine blobs umask 2 fs line = .done (0, fs')) :
    extractLines blobs umask 2 fs (line :: lines) = extractLines blobs umask 2 fs' lines := by
  rw [extractLines, h, Outcome.done_bind]
  simp only
  rw [if_neg (by simp)]

/-- The facts about a part of the tree that its extraction rests on: its lines
and the targets of its links fit, and its blobs are there. -/
structure Extractable (sha256 : Bytes → Digest) (blobs : Bytes → Option Bytes)
    (lines targets contents : List Bytes) : Prop where
  lines : ∀ line ∈ lines, line.length < PATH_MAX
  targets : ∀ target ∈ targets, target.length ≤ 40
  contents : ∀ content ∈ contents, blobs (blobName sha256 content) = some content

theorem Extractable.left {lines lines' targets targets' contents contents' : List Bytes}
    (h : Extractable sha256 blobs (lines ++ lines') (targets ++ targets')
      (contents ++ contents')) : Extractable sha256 blobs lines targets contents where
  lines line hmem := h.lines line (List.mem_append_left _ hmem)
  targets target hmem := h.targets target (List.mem_append_left _ hmem)
  contents content hmem := h.contents content (List.mem_append_left _ hmem)

theorem Extractable.right {lines lines' targets targets' contents contents' : List Bytes}
    (h : Extractable sha256 blobs (lines ++ lines') (targets ++ targets')
      (contents ++ contents')) : Extractable sha256 blobs lines' targets' contents' where
  lines line hmem := h.lines line (List.mem_append_right _ hmem)
  targets target hmem := h.targets target (List.mem_append_right _ hmem)
  contents content hmem := h.contents content (List.mem_append_right _ hmem)

mutual

/-- The lines of a part of the tree make its entries, when its directory is there
and nothing stands at its paths. -/
theorem extract_nodeLines {fs : Files} {path : Bytes} (hpath : FieldText path)
    (hparent : isDir fs (parent path) = true) (hfresh : ∀ q, Under path q → fs q = none)
    (more : List Bytes) : ∀ node : Node, ValidNode node →
      Extractable sha256 blobs (nodeLines sha256 path node) (nodeTargets node)
        (nodeContents [] path node) →
      extractLines blobs umask 2 fs (nodeLines sha256 path node ++ more) =
        extractLines blobs umask 2 (applyAll fs (nodeListing path node)) more
  | .file st content, _, h => by
    rw [nodeLines, nodeTargets, nodeContents] at h
    have hlen := path_length_lt (h.lines _ (List.mem_singleton_self _))
    have hline := extractLine_file blobs umask hpath hlen hparent (hfresh _ (.refl path)) st
      (h.contents content (List.mem_singleton_self _))
    rw [nodeLines, nodeListing, List.singleton_append, extractLines_cons more hline]
    rfl
  | .dir st entries, hvalid, h => by
    rw [nodeLines, nodeTargets, nodeContents] at h
    rw [ValidNode] at hvalid
    have hlen := path_length_lt (h.lines _ (List.mem_cons_self ..))
    have hline := extractLine_dir blobs umask hpath hlen hparent
      (hfresh _ (.refl path)) st
    have hbelow : ∀ name ∈ entries.map Prod.fst, ∀ q, Under (path ++ 47 :: name) q →
        (fs.set path (dirEntry st)) q = none := by
      intro name _ q hq
      have hne : q ≠ path := fun heq => not_under_child path name (heq ▸ hq)
      rw [Files.set_of_ne fs hne, hfresh q hq.of_child]
    rw [nodeLines, nodeListing, List.cons_append, extractLines_cons _ hline,
      extract_entriesLines hpath (isDir_set_dir fs path st) more entries hvalid hbelow
        ⟨fun line hmem => h.lines line (List.mem_cons_of_mem _ hmem), h.targets, h.contents⟩]
    rfl
  | .link st target, hvalid, h => by
    rw [nodeLines, nodeTargets, nodeContents] at h
    rw [ValidNode] at hvalid
    have hlen := path_length_lt (h.lines _ (List.mem_singleton_self _))
    have hline := extractLine_link blobs umask hpath hlen hparent
      (hfresh _ (.refl path)) st hvalid.2 hvalid.1 (h.targets target (List.mem_singleton_self _))
    rw [nodeLines, nodeListing, List.singleton_append, extractLines_cons more hline]
    rfl
  | .special st, hvalid, _ => by
    rw [ValidNode] at hvalid
    exact hvalid.elim

theorem extract_entriesLines {fs : Files} {d : Bytes} (hd : FieldText d)
    (hdir : isDir fs d = true) (more : List Bytes) : ∀ entries : List (Bytes × Node),
      ValidEntries entries →
      (∀ name ∈ entries.map Prod.fst, ∀ q, Under (d ++ 47 :: name) q → fs q = none) →
      Extractable sha256 blobs (entriesLines sha256 d entries) (entriesTargets entries)
        (entriesContents [] d entries) →
      extractLines blobs umask 2 fs (entriesLines sha256 d entries ++ more) =
        extractLines blobs umask 2 (applyAll fs (entriesListing d entries)) more
  | [], _, _, _ => by
    rw [entriesLines, entriesListing]
    rfl
  | (name, node) :: entries, hvalid, hfresh, h => by
    rw [entriesLines, entriesTargets, entriesContents_cons] at h
    rw [ValidEntries] at hvalid
    obtain ⟨hname, hnode, hne, hentries⟩ := hvalid
    -- The first entry touches only paths below its own name.
    have hother : ∀ q, ¬ Under (d ++ 47 :: name) q →
        applyAll fs (nodeListing (d ++ 47 :: name) node) q = fs q := fun q hq =>
      applyAll_of_notMem fun x hx heq => hq (heq ▸ under_of_mem_nodeListing node hx)
    have hdir' : isDir (applyAll fs (nodeListing (d ++ 47 :: name) node)) d = true := by
      rw [isDir_congr (hother d (not_under_child d name)), hdir]
    have hfresh' : ∀ name' ∈ entries.map Prod.fst, ∀ q, Under (d ++ 47 :: name') q →
        applyAll fs (nodeListing (d ++ 47 :: name) node) q = none := by
      intro name' hmem q hq
      rw [hother q fun hq' => ?_]
      · exact hfresh name' (List.mem_cons_of_mem _ hmem) q hq
      · have hsame := Under.child_inj hname.2.1 (hentries.name_mem hmem).2.1 hq' hq
        obtain ⟨entry, hentry, hentry'⟩ := List.mem_map.mp hmem
        exact hne entry hentry (hentry'.trans hsame.symm)
    have hparent : isDir fs (parent (d ++ 47 :: name)) = true := by
      rw [parent_child hname.2.1, hdir]
    rw [entriesLines, entriesListing, List.append_assoc, applyAll_append,
      extract_nodeLines (hd.child hname) hparent (hfresh name (List.mem_cons_self ..)) _ node hnode
        h.left,
      extract_entriesLines hd hdir' more entries hentries hfresh' h.right]

end

/-- Every line that was passed was read without a fault. -/
theorem extractLines_all {lines : List Bytes} : ∀ {fs fs' : Files},
    extractLines blobs umask 2 fs lines = .done (0, fs') →
      ∀ line ∈ lines, ∃ fs₁, extractLine blobs umask 2 fs₁ line ≠ .fault := by
  induction lines with
  | nil => exact fun _ line hmem => absurd hmem List.not_mem_nil
  | cons line lines ih =>
    intro fs fs' h line' hmem
    rw [extractLines] at h
    obtain ⟨⟨ret, fs₁⟩, hline, hrest⟩ := Outcome.bind_eq_done.mp h
    rcases List.mem_cons.mp hmem with rfl | hmem
    · exact ⟨fs, by rw [hline]; simp⟩
    · simp only at hrest
      split at hrest
      · rename_i hne
        exact absurd (congrArg Prod.fst (Outcome.done.inj hrest)) hne
      · exact ih hrest line' hmem

mutual

/-- Every link has its line. -/
theorem linkLine_mem_nodeLines {path target : Bytes} (hpath : FieldText path) : ∀ node : Node,
    ValidNode node → target ∈ nodeTargets node → ∃ p st, FieldText p ∧ FieldText target ∧
      linkLine p st target ∈ nodeLines sha256 path node
  | .file st content, _, h => by
    rw [nodeTargets] at h
    exact absurd h List.not_mem_nil
  | .dir st entries, hvalid, h => by
    rw [ValidNode] at hvalid
    rw [nodeTargets] at h
    obtain ⟨p, st', hp, htarget, hmem⟩ := linkLine_mem_entriesLines hpath entries hvalid h
    rw [nodeLines]
    exact ⟨p, st', hp, htarget, List.mem_cons_of_mem _ hmem⟩
  | .link st target', hvalid, h => by
    rw [ValidNode] at hvalid
    rw [nodeTargets, List.mem_singleton] at h
    subst h
    rw [nodeLines]
    exact ⟨path, st, hpath, hvalid.2, List.mem_singleton_self _⟩
  | .special st, _, h => by
    rw [nodeTargets] at h
    exact absurd h List.not_mem_nil

theorem linkLine_mem_entriesLines {d target : Bytes} (hd : FieldText d) :
    ∀ entries : List (Bytes × Node), ValidEntries entries → target ∈ entriesTargets entries →
      ∃ p st, FieldText p ∧ FieldText target ∧
        linkLine p st target ∈ entriesLines sha256 d entries
  | [], _, h => by
    rw [entriesTargets] at h
    exact absurd h List.not_mem_nil
  | (name, node) :: entries, hvalid, h => by
    rw [ValidEntries] at hvalid
    obtain ⟨hname, hnode, -, hentries⟩ := hvalid
    rw [entriesTargets] at h
    rw [entriesLines]
    rcases List.mem_append.mp h with h | h
    · obtain ⟨p, st, hp, htarget, hmem⟩ := linkLine_mem_nodeLines (hd.child hname) node hnode h
      exact ⟨p, st, hp, htarget, List.mem_append_left _ hmem⟩
    · obtain ⟨p, st, hp, htarget, hmem⟩ := linkLine_mem_entriesLines hd entries hentries h
      exact ⟨p, st, hp, htarget, List.mem_append_right _ hmem⟩

end

end Rebuild

/-! ## The manifest of a run -/

/-- A line that `fgets` reads as a whole. -/
def IsLine (line : Bytes) : Prop := ∃ body, 10 ∉ body ∧ line = body ++ [10]

theorem newline_notMem_fields {type : UInt8} {mode uid gid atime mtime ctime path : Bytes}
    (h : FieldText [type] ∧ FieldText mode ∧ FieldText uid ∧ FieldText gid ∧ FieldText atime ∧
      FieldText mtime ∧ FieldText ctime ∧ FieldText path) :
    10 ∉ [type, tab] ++ mode ++ [tab] ++ uid ++ [tab] ++ gid ++ [tab] ++ atime ++ [tab] ++ mtime ++
      [tab] ++ ctime ++ [tab] ++ path ++ [tab] := by
  obtain ⟨htype, hmode, huid, hgid, hatime, hmtime, hctime, hpath⟩ := h
  have htypeNe : ¬ 10 = type := by simpa using htype.2.1
  have htab : ¬ (10 : UInt8) = tab := by decide
  simp [htypeNe, htab, hmode.2.1, huid.2.1, hgid.2.1, hatime.2.1, hmtime.2.1, hctime.2.1,
    hpath.2.1]

theorem newline_notMem_print_stat {type : UInt8} (htype : FieldText [type]) (st : Stat)
    {path : Bytes} (hpath : FieldText path) : 10 ∉ print_stat type st path :=
  newline_notMem_fields ⟨htype, fieldText_printNat (by omega) (by omega), fieldText_printInt _,
    fieldText_printInt _, fieldText_printNat (by omega) le_rfl,
    fieldText_printNat (by omega) le_rfl, fieldText_printNat (by omega) le_rfl, hpath⟩

/-- What follows `print_stat` ends the line. -/
theorem IsLine.print_stat {type : UInt8} (htype : FieldText [type]) (st : Stat) {path : Bytes}
    (hpath : FieldText path) {body : Bytes} (hbody : 10 ∉ body) :
    IsLine (Dedupe.print_stat type st path ++ (body ++ [10])) := by
  refine ⟨Dedupe.print_stat type st path ++ body, fun h => ?_, by rw [List.append_assoc]⟩
  rcases List.mem_append.mp h with h | h
  · exact newline_notMem_print_stat htype st hpath h
  · exact hbody h

theorem fileFields_eq (out_key : Bytes) (size : Int) :
    fileFields out_key size = (out_key ++ (tab :: printInt size ++ [tab])) ++ [10] := by
  unfold fileFields
  generalize printInt size = text
  simp

theorem newline_notMem_fileFields {out_key : Bytes} (h : FieldText out_key) (size : Int) :
    10 ∉ out_key ++ (tab :: printInt size ++ [tab]) := by
  have hsize := fieldText_printInt size
  intro hmem
  rcases List.mem_append.mp hmem with hmem | hmem
  · exact h.2.1 hmem
  · rcases List.mem_append.mp hmem with hmem | hmem
    · rcases List.mem_cons.mp hmem with hmem | hmem
      · exact absurd hmem (by decide)
      · exact hsize.2.1 hmem
    · exact absurd hmem (by decide)

theorem isLine_fileLine (sha256 : Bytes → Digest) {path : Bytes} (hpath : FieldText path)
    (st : Stat) (content : Bytes) : IsLine (fileLine sha256 path st content) := by
  have hbody := newline_notMem_fileFields (fieldText_blobName sha256 content) (wrap32 st.st_size)
  unfold fileLine
  rw [fileFields_eq]
  exact .print_stat (by decide) st hpath hbody

theorem isLine_linkLine {path target : Bytes} (hpath : FieldText path) (st : Stat)
    (htarget : FieldText target) : IsLine (linkLine path st target) := by
  have hbody : 10 ∉ target ++ [tab] := by
    intro h
    rcases List.mem_append.mp h with h | h
    · exact htarget.2.1 h
    · exact absurd h (by decide)
  have hfields : linkFields target = (target ++ [tab]) ++ [10] := by simp [linkFields]
  unfold linkLine
  rw [hfields]
  exact .print_stat (by decide) st hpath hbody

mutual

theorem isLine_of_mem_nodeLines {sha256 : Bytes → Digest} {path line : Bytes}
    (hpath : FieldText path) : ∀ node : Node, ValidNode node →
      line ∈ nodeLines sha256 path node → IsLine line
  | .file st content, _, h => by
    rw [nodeLines, List.mem_singleton] at h
    exact h ▸ isLine_fileLine sha256 hpath st content
  | .dir st entries, hvalid, h => by
    rw [ValidNode] at hvalid
    rw [nodeLines] at h
    rcases List.mem_cons.mp h with rfl | h
    · exact ⟨_, newline_notMem_print_stat (by decide) st hpath, rfl⟩
    · exact isLine_of_mem_entriesLines hpath entries hvalid h
  | .link st target, hvalid, h => by
    rw [ValidNode] at hvalid
    rw [nodeLines, List.mem_singleton] at h
    exact h ▸ isLine_linkLine hpath st hvalid.2
  | .special st, _, h => by
    rw [nodeLines] at h
    exact absurd h List.not_mem_nil

theorem isLine_of_mem_entriesLines {sha256 : Bytes → Digest} {d line : Bytes} (hd : FieldText d) :
    ∀ entries : List (Bytes × Node), ValidEntries entries →
      line ∈ entriesLines sha256 d entries → IsLine line
  | [], _, h => by
    rw [entriesLines] at h
    exact absurd h List.not_mem_nil
  | (name, node) :: entries, hvalid, h => by
    rw [ValidEntries] at hvalid
    obtain ⟨hname, hnode, -, hentries⟩ := hvalid
    rw [entriesLines] at h
    rcases List.mem_append.mp h with h | h
    · exact isLine_of_mem_nodeLines (hd.child hname) node hnode h
    · exact isLine_of_mem_entriesLines hd entries hentries h

end

/-- The version line is read first. -/
theorem readVersion_header (text : Bytes) : readVersion (header ++ text) = .done (2, text) := by
  have hheader : header = ascii "dedupe\t2" ++ [10] := by decide
  have htake : takeLine (PATH_MAX - 1) (ascii "dedupe\t2" ++ 10 :: text) =
      (ascii "dedupe\t2" ++ [10], text) := takeLine_line (by decide) (by decide) text
  have hget : fgets PATH_MAX (header ++ text) = some (header, text) := by
    unfold fgets
    rw [if_neg (by rw [hheader]; simp), hheader, List.append_assoc, List.singleton_append, htake]
  have hversion : scanVersion (cstr header) = some 2 := by decide
  unfold readVersion
  rw [hget]
  simp only
  rw [hversion]

/-- `dedupe x` on the manifest of a tree works on its lines. -/
theorem dedupe_x_manifest {sha256 : Bytes → Digest} (blobs : Bytes → Option Bytes) (umask : Nat)
    {entries : List (Bytes × Node)} (hvalid : ValidEntries entries)
    (hlines : ∀ line ∈ entriesLines sha256 (ascii ".") entries, line.length < PATH_MAX)
    (fs : Files) :
    dedupe_x blobs umask (header ++ entriesText sha256 [] (ascii ".") entries) fs =
      extractLines blobs umask 2 fs (entriesLines sha256 (ascii ".") entries) := by
  have hall : ∀ line ∈ entriesLines sha256 (ascii ".") entries,
      line.length < PATH_MAX ∧ ∃ body, 10 ∉ body ∧ line = body ++ [10] := fun line hmem =>
    ⟨hlines line hmem, isLine_of_mem_entriesLines (by decide) entries hvalid hmem⟩
  unfold dedupe_x
  rw [readVersion_header, Outcome.done_bind]
  simp only
  rw [if_neg (by decide), entriesText_eq, fgetsAll_flatten hall]

/-! ## The round trip -/

theorem hexChar_inj {a b : Nat} (ha : a < 16) (hb : b < 16) (h : hexChar a = hexChar b) :
    a = b := by
  have hall : ∀ a < 16, ∀ b < 16, hexChar a = hexChar b → a = b := by decide
  exact hall a ha b hb h

theorem hex_inj {a b : Bytes} (h : hex a = hex b) : a = b := by
  induction a generalizing b with
  | nil =>
    cases b with
    | nil => rfl
    | cons y b => simp [hex] at h
  | cons x a ih =>
    cases b with
    | nil => simp [hex] at h
    | cons y b =>
      simp only [hex, List.flatMap_cons, List.cons_append, List.nil_append, List.cons.injEq] at h
      obtain ⟨hhigh, hlow, hrest⟩ := h
      have hx := x.toNat_lt
      have hy := y.toNat_lt
      have hdiv := hexChar_inj (by omega) (by omega) hhigh
      have hmod := hexChar_inj (Nat.mod_lt _ (by omega)) (Nat.mod_lt _ (by omega)) hlow
      obtain rfl : x = y := UInt8.toNat_inj.mp (by omega)
      rw [ih hrest]

theorem blobName_inj {sha256 : Bytes → Digest} {c c' : Bytes}
    (h : blobName sha256 c = blobName sha256 c') : sha256 c = sha256 c' := by
  have hlen := hex_length (sha256 c).1
  have hlen' := hex_length (sha256 c').1
  have h32 := (sha256 c).2
  have h32' := (sha256 c').2
  rw [blobName_eq, blobName_eq] at h
  have htake : ((hex (sha256 c).1).take 3).length = ((hex (sha256 c').1).take 3).length := by
    rw [List.length_take, List.length_take]
    omega
  obtain ⟨hfront, hback⟩ := List.append_inj h htake
  refine Subtype.ext (hex_inj ?_)
  rw [← List.take_append_drop 3 (hex (sha256 c).1), hfront, (List.cons.inj hback).2,
    List.take_append_drop]

section RoundTrip

variable {sha256 : Bytes → Digest} {st : Stat} {entries : List (Bytes × Node)} {d d' : Disk}

/-- After a run that succeeded the contents of the tree are in their blobs. -/
theorem blobs_of_runs (haddr : Addressed sha256 d)
    (hinj : ∀ c ∈ entriesContents [] (ascii ".") entries, ∀ c',
      (c' ∈ entriesContents [] (ascii ".") entries ∨
        ∃ name, ¬ ascii ".tmp" <:+ name ∧ d.blobs name = some c') →
      sha256 c = sha256 c' → c = c')
    (hrun : (dedupe_c sha256 [] (.dir st entries)).Runs Step d (.done 0) d') :
    d'.manifest = header ++ entriesText sha256 [] (ascii ".") entries ∧
      ∀ c ∈ entriesContents [] (ascii ".") entries, d'.blobs (blobName sha256 c) = some c := by
  obtain ⟨haddr', hpost⟩ := (dedupe_c_always sha256 [] _ haddr).of_runs hrun
  obtain ⟨st', entries', htree, hstored⟩ := hpost rfl
  obtain ⟨rfl, rfl⟩ := Node.dir.inj htree
  refine ⟨by simpa using hstored.manifest, fun c hc => ?_⟩
  obtain ⟨c', hblob⟩ := Option.ne_none_iff_exists'.mp (hstored.has c hc)
  have htmp := blobName_not_tmp sha256 c
  have hname := haddr' _ c' hblob htmp
  rw [← blobName_eq] at hname
  have hsame := hinj c hc c' ?_ (blobName_inj hname)
  · rw [hblob, hsame]
  · rcases hstored.origin _ c' htmp hblob with hold | hmem
    · exact .inr ⟨_, htmp, hold⟩
    · exact .inl hmem

/-- The lines of a tree whose links are short rebuild it. -/
theorem extract_rebuilt {blobs : Bytes → Option Bytes} (umask : Nat)
    (hvalid : ValidEntries entries)
    (h : Extractable sha256 blobs (entriesLines sha256 (ascii ".") entries)
      (entriesTargets entries) (entriesContents [] (ascii ".") entries)) :
    ∃ fs, extractLines blobs umask 2 (fun _ => none) (entriesLines sha256 (ascii ".") entries) =
      .done (0, fs) ∧ Rebuilt fs entries := by
  have hlines : extractLines blobs umask 2 (fun _ => none)
      (entriesLines sha256 (ascii ".") entries ++ []) = extractLines blobs umask 2
      (applyAll (fun _ => none) (entriesListing (ascii ".") entries)) [] :=
    extract_entriesLines (by decide) rfl [] entries hvalid (fun _ _ _ _ => rfl) h
  rw [List.append_nil] at hlines
  refine ⟨_, hlines, fun path entry => ?_⟩
  rw [applyAll_eq_some (nodup_entriesListing _ entries hvalid)]
  simp

/-- A link with a long target ends the extraction. -/
theorem extract_long {blobs : Bytes → Option Bytes} {umask : Nat} (hvalid : ValidEntries entries)
    (hlines : ∀ line ∈ entriesLines sha256 (ascii ".") entries, line.length < PATH_MAX)
    {fs fs' : Files} (h : extractLines blobs umask 2 fs (entriesLines sha256 (ascii ".") entries) =
      .done (0, fs')) {target : Bytes} (htarget : target ∈ entriesTargets entries) :
    target.length ≤ 40 := by
  by_contra hlong
  obtain ⟨p, st, hp, htext, hmem⟩ :=
    linkLine_mem_entriesLines (show FieldText (ascii ".") by decide) entries hvalid htarget
  obtain ⟨fs₁, hne⟩ := extractLines_all h _ hmem
  exact hne (extractLine_long blobs umask hp (path_length_lt (hlines _ hmem)) st htext (by omega))

/-- When `dedupe c` has stored a tree, `dedupe x` rebuilds it without writing over
the end of a buffer if and only if no link has a target of more than 40 bytes. -/
theorem dedupe_roundtrip_iff (hvalid : ValidEntries entries)
    (hlines : ∀ line ∈ entriesLines sha256 (ascii ".") entries, line.length < PATH_MAX)
    (haddr : Addressed sha256 d)
    (hinj : ∀ c ∈ entriesContents [] (ascii ".") entries, ∀ c',
      (c' ∈ entriesContents [] (ascii ".") entries ∨
        ∃ name, ¬ ascii ".tmp" <:+ name ∧ d.blobs name = some c') →
      sha256 c = sha256 c' → c = c')
    (hrun : (dedupe_c sha256 [] (.dir st entries)).Runs Step d (.done 0) d') (umask : Nat) :
    (∃ fs, dedupe_x d'.blobs umask d'.manifest (fun _ => none) = .done (0, fs) ∧
      Rebuilt fs entries) ↔ ∀ target ∈ entriesTargets entries, target.length ≤ 40 := by
  obtain ⟨hmanifest, hblobs⟩ := blobs_of_runs haddr hinj hrun
  rw [hmanifest, dedupe_x_manifest d'.blobs umask hvalid hlines]
  constructor
  · rintro ⟨fs, hextract, -⟩ target htarget
    exact extract_long hvalid hlines hextract htarget
  · exact fun htargets => extract_rebuilt umask hvalid ⟨hlines, htargets, hblobs⟩

end RoundTrip

/-- A directory with one empty file is rebuilt from an empty blob directory. -/
theorem dedupe_roundtrip_empty_file : ∃ d', (dedupe_c emptySha256 [] emptyFile).Runs Step
    emptyMachine.state (.done 0) d' ∧
    ∃ fs, dedupe_x d'.blobs 0o22 d'.manifest (fun _ => none) = .done (0, fs) ∧
      Rebuilt fs [(ascii "a", .file rootStat [])] := by
  obtain ⟨d', -, hruns⟩ := emptyFile_runs
  have hvalid : ValidEntries [(ascii "a", .file rootStat [])] := by
    simp only [ValidEntries, ValidNode, ValidName]
    decide
  have hlines : ∀ line ∈ entriesLines emptySha256 (ascii ".") [(ascii "a", .file rootStat [])],
      line.length < PATH_MAX := by decide +kernel
  refine ⟨d', hruns, (dedupe_roundtrip_iff hvalid hlines (fun _ _ h => ?_) ?_ hruns 0o22).mpr ?_⟩
  · simp [emptyMachine] at h
  · intro c hc c' hc' _
    have hnil : c = [] := by simpa [entriesContents, nodeContents] using hc
    rcases hc' with hc' | ⟨name, -, hblob⟩
    · have hnil' : c' = [] := by simpa [entriesContents, nodeContents] using hc'
      rw [hnil, hnil']
    · simp [emptyMachine] at hblob
  · simp [entriesTargets, nodeTargets]

/-- A link with a target of 41 bytes. -/
def longLink : List (Bytes × Node) := [(ascii "a", .link rootStat (List.replicate 41 120))]

theorem longLink_runs : ∃ d, (dedupe_c emptySha256 [] (.dir rootStat longLink)).Runs Step
    emptyMachine.state (.done 0) d := by
  apply Exists.intro
  apply Prog.Runs.op (.input .lstat 0)
  apply Prog.Runs.op .fopenManifest
  apply Prog.Runs.op (.fprintf _)
  apply Prog.Runs.op .mkdir
  apply Prog.Runs.op (.input .opendir 0)
  apply Prog.Runs.op (.input .lstat 0)
  apply Prog.Runs.op (.fprintf _)
  apply Prog.Runs.op (.input .readlink 0)
  apply Prog.Runs.op (.fprintf _)
  exact ⟨rfl, rfl⟩

theorem longLink_valid : ValidEntries longLink := by
  simp only [longLink, ValidEntries, ValidNode, ValidName]
  decide

theorem longLink_lines : ∀ line ∈ entriesLines emptySha256 (ascii ".") longLink,
    line.length < PATH_MAX := by decide +kernel

/-- The link is stored, and extracting it writes over the end of a buffer. -/
theorem dedupe_roundtrip_long_link : ValidEntries longLink ∧
    (∀ line ∈ entriesLines emptySha256 (ascii ".") longLink, line.length < PATH_MAX) ∧
    ∃ d', (dedupe_c emptySha256 [] (.dir rootStat longLink)).Runs Step emptyMachine.state
      (.done 0) d' ∧ dedupe_x d'.blobs 0o22 d'.manifest (fun _ => none) = .fault := by
  obtain ⟨d', hruns⟩ := longLink_runs
  have hmanifest := (blobs_of_runs (fun _ _ h => by simp [emptyMachine] at h)
    (fun c hc => by simp [longLink, entriesContents, nodeContents] at hc) hruns).1
  refine ⟨longLink_valid, longLink_lines, d', hruns, ?_⟩
  have hline : extractLine d'.blobs 0o22 2 (fun _ => none)
      (linkLine (ascii "./a") rootStat (List.replicate 41 120)) = .fault :=
    extractLine_long d'.blobs 0o22 (by decide) (by decide) rootStat (by decide) (by decide)
  have hlines : entriesLines emptySha256 (ascii ".") longLink =
      [linkLine (ascii "./a") rootStat (List.replicate 41 120)] := rfl
  rw [hmanifest, dedupe_x_manifest d'.blobs 0o22 longLink_valid longLink_lines, hlines,
    extractLines, hline, Outcome.fault_bind]

end BootableRecovery.Dedupe
