import BootableRecovery.Applypatch.Storage

/-!
# `freecache.c`: making room on `/cache`

* `makeFreeSpaceOnCache` and `findExpendableFiles` model the functions of these names.
* `Disk` has what they look at: names with the files they refer to, directories,
  the descriptors of the processes, and the free space. `DiskStep` is what the operations
  do to it, and a `CacheState` notes what was deleted.
* `makeFreeSpaceOnCache_frees`: when the system calls tell what the function takes from
  them (`Tells`), only unopened regular files are deleted, none while there is enough
  space, and success means that there is. A `statfs` that fails is read as plenty of
  space (`makeFreeSpaceOnCache_statfs_fails`).
-/

namespace BootableRecovery.Applypatch

/-! ## `FindExpendableFiles` -/

/-- The directories in which unopened regular files can be deleted. -/
def dirs : List Bytes := [ascii "/cache", ascii "/cache/recovery/otatest"]

/-- A name directly in one of the two directories. -/
def InDirs (path : Bytes) : Prop :=
  ∃ dir ∈ dirs, ∃ d_name : Bytes, 47 ∉ d_name ∧ path = dir ++ ascii "/" ++ d_name

/-- The regular files in a directory, without `CACHE_TEMP_SOURCE`. -/
def regularFiles (dir : Bytes) : List Bytes → Run (List Bytes)
  | [] => Prog.ret []
  | d_name :: names => do
    let path := dir ++ ascii "/" ++ d_name
    if path = CACHE_TEMP_SOURCE then regularFiles dir names
    else
      let regular ← perform (.isRegular path)
      let rest ← regularFiles dir names
      Prog.ret (if regular then path :: rest else rest)

/-- The loop over the directories. One that cannot be opened is left out. -/
def expendableIn : List Bytes → Run (List Bytes)
  | [] => Prog.ret []
  | dir :: dirs => do
    let names ← perform (.opendir dir)
    let files ← regularFiles dir (names.getD [])
    let rest ← expendableIn dirs
    Prog.ret (files ++ rest)

/-- What a link of a descriptor does to the list: a file that is open becomes NULL. -/
def dropOpen (files : List (Option Bytes)) : Option Bytes → List (Option Bytes)
  | none => files
  | some link =>
    if (ascii "/cache/").isPrefixOf link then
      files.map fun file => if file = some link then none else file
    else files

/-- The loop over the descriptors of a process. -/
def eliminateFds (path : Bytes) : List Bytes → List (Option Bytes) → Run (List (Option Bytes))
  | [], files => Prog.ret files
  | fdde :: fds, files => do
    let link ← perform (.readlink (path ++ fdde))
    eliminateFds path fds (dropOpen files link)

/-- The directory with the descriptors of a process. -/
def fdPath (d_name : Bytes) : Bytes := ascii "/proc/" ++ d_name ++ ascii "/fd/"

/-- The loop over the processes. One whose descriptors cannot be listed is left out. -/
def eliminateProcs : List Bytes → List (Option Bytes) → Run (List (Option Bytes))
  | [], files => Prog.ret files
  | d_name :: names, files =>
    if d_name.all isDigit then do
      let fdd ← perform (.opendir (fdPath d_name))
      let files ← eliminateFds (fdPath d_name) (fdd.getD []) files
      eliminateProcs names files
    else eliminateProcs names files

/-- The processes are those in `names`, or `/proc` cannot be opened. -/
def eliminateIn (files : List (Option Bytes)) :
    Option (List Bytes) → Run (Option (List (Option Bytes)))
  | none => Prog.ret none
  | some names => do
    let files ← eliminateProcs names files
    Prog.ret (some files)

/-- `EliminateOpenFiles`; `none` is the return value -1. -/
def eliminateOpenFiles (files : List (Option Bytes)) : Run (Option (List (Option Bytes))) := do
  let names ← perform (.opendir (ascii "/proc"))
  eliminateIn files names

/-- `FindExpendableFiles`; `none` is the return value -1. -/
def findExpendableFiles : Run (Option (List (Option Bytes))) := do
  let files ← expendableIn dirs
  eliminateOpenFiles (files.map some)

/-! ## `MakeFreeSpaceOnCache` -/

/-- The loop over the expendable files. -/
def deleteFiles (bytes_needed : Nat) : List (Option Bytes) → Nat → Run Nat
  | [], free_now => Prog.ret free_now
  | file :: files, free_now =>
    if bytes_needed ≤ free_now then Prog.ret free_now
    else
      match file with
      | none => deleteFiles bytes_needed files free_now
      | some name => do
        perform (.unlink name)
        let free_now ← freeSpaceForFile (ascii "/cache")
        deleteFiles bytes_needed files free_now

/-- `MakeFreeSpaceOnCache` behind `FindExpendableFiles`. -/
def deleteExpendable (bytes_needed free_now : Nat) : Option (List (Option Bytes)) → Run Int
  | none => Prog.ret (-1)
  | some [] => Prog.ret (-1)
  | some names => do
    let free_now ← deleteFiles bytes_needed names free_now
    Prog.ret (if bytes_needed ≤ free_now then 0 else -1)

/-- `MakeFreeSpaceOnCache` with the free space that `/cache` has. -/
def makeRoom (bytes_needed free_now : Nat) : Run Int :=
  if bytes_needed ≤ free_now then Prog.ret 0
  else do
    let names ← findExpendableFiles
    deleteExpendable bytes_needed free_now names

/-- `MakeFreeSpaceOnCache` -/
def makeFreeSpaceOnCache (bytes_needed : Nat) : Run Int := do
  let free_now ← freeSpaceForFile (ascii "/cache")
  makeRoom bytes_needed free_now

/-! ## The file system -/

/-- What a name refers to: a regular file, a symbolic link that `stat` follows to a regular
file or to something else, or something else. -/
inductive Kind where
  | regular (ino : Nat)
  | symlink (to_regular : Bool)
  | other
  deriving DecidableEq, Repr

/-- What `stat` finds behind a name is a regular file. -/
def Kind.isReg : Option Kind → Bool
  | some (.regular _) => true
  | some (.symlink to_regular) => to_regular
  | _ => false

/-- The names with what they refer to, the entries of directories, the files that are open
as descriptors with the texts of their links, and the free bytes on `/cache`. -/
structure Disk where
  kind : Bytes → Option Kind
  entries : Bytes → List Bytes
  fd : Bytes → Option Nat
  link : Bytes → Bytes
  free : Nat
  no_slash : ∀ dir, ∀ d_name ∈ entries dir, 47 ∉ d_name

/-- A name is deleted, with `free` bytes free then. -/
def Disk.unlink (d : Disk) (path : Bytes) (free : Nat) : Disk :=
  { d with kind := Function.update d.kind path none, free := free }

/-- The disk, and the names that were deleted with the free bytes right before. -/
structure CacheState where
  disk : Disk
  deleted : List (Bytes × Nat)

/-- One operation. Every call can fail. Deleting a file changes the free space in any way. -/
inductive DiskStep (s : CacheState) : (o : Op) → Ans o → CacheState → Prop where
  | statfs_ok (name : Bytes) {f_bsize f_bfree : Nat} (h : f_bsize * f_bfree = s.disk.free) :
      DiskStep s (.statfs name) (some (f_bsize, f_bfree)) s
  | statfs_fails (name : Bytes) : DiskStep s (.statfs name) none s
  | opendir_ok (dir : Bytes) : DiskStep s (.opendir dir) (some (s.disk.entries dir)) s
  | opendir_fails (dir : Bytes) : DiskStep s (.opendir dir) none s
  | stat_ok (path : Bytes) : DiskStep s (.isRegular path) (Kind.isReg (s.disk.kind path)) s
  | stat_fails (path : Bytes) : DiskStep s (.isRegular path) false s
  | readlink_ok (path : Bytes) : DiskStep s (.readlink path) (some (s.disk.link path)) s
  | readlink_fails (path : Bytes) : DiskStep s (.readlink path) none s
  | unlink_ok {path : Bytes} (free : Nat) (h : s.disk.kind path ≠ none) :
      DiskStep s (.unlink path) ()
        ⟨s.disk.unlink path free, s.deleted ++ [(path, s.disk.free)]⟩
  | unlink_fails (path : Bytes) : DiskStep s (.unlink path) () s

/-! ## What may be deleted -/

/-- A regular file that can be deleted unless it is open. -/
structure Candidate (d : Disk) (path : Bytes) : Prop where
  regular : ∃ ino, d.kind path = some (.regular ino)
  in_dirs : InDirs path
  not_copy : path ≠ CACHE_TEMP_SOURCE

/-- The descriptor `fd` has the file `path` open. -/
def OpenAs (d : Disk) (fd path : Bytes) : Prop :=
  ∃ ino, d.kind path = some (.regular ino) ∧ d.fd fd = some ino

/-- A process has the file open. -/
def Open (d : Disk) (path : Bytes) : Prop :=
  ∃ d_name ∈ d.entries (ascii "/proc"), d_name.all isDigit = true ∧
    ∃ fd ∈ d.entries (fdPath d_name), OpenAs d (fdPath d_name ++ fd) path

/-- An unopened regular file directly in one of the directories, and not
`CACHE_TEMP_SOURCE`. -/
def Deletable (d : Disk) (path : Bytes) : Prop := Candidate d path ∧ ¬Open d path

/-- Only such files were deleted, and only with too little space. -/
def DeletedRight (bytes_needed : Nat) (d : Disk) (s : CacheState) : Prop :=
  ∀ x ∈ s.deleted, Deletable d x.1 ∧ x.2 < bytes_needed

/-! ## What the calls have to tell -/

/-- `statfs` fails only with enough space, or it succeeds, and the space still is enough as a
`size_t` when it is enough. -/
def SpaceTold (bytes_needed free : Nat) : Option (Nat × Nat) → Prop
  | none => bytes_needed ≤ free
  | some _ => bytes_needed ≤ free → bytes_needed ≤ free % 2 ^ 32

/-- The calls tell what is taken from them. A name that `stat` finds to be a regular file is
one itself. The descriptors of a process that has a candidate open can be listed, and
their links can be read and have its name. -/
def Tells (bytes_needed : Nat) (d : Disk) : (o : Op) → Ans o → Prop
  | .statfs _, sf => SpaceTold bytes_needed d.free sf
  | .isRegular path, regular => regular = true → ∃ ino, d.kind path = some (.regular ino)
  | .opendir dir, names => names = none → ∀ d_name, dir = fdPath d_name →
      ∀ fd ∈ d.entries dir, ∀ path, Candidate d path → ¬OpenAs d (dir ++ fd) path
  | .readlink fd, link => ∀ path, Candidate d path → OpenAs d fd path → link = some path
  | _, _ => True

/-- An operation that tells what is taken from it. -/
def TellingStep (bytes_needed : Nat) (s : CacheState) (o : Op) (x : Ans o) (s' : CacheState) :
    Prop :=
  DiskStep s o x s' ∧ Tells bytes_needed s.disk o x

section Find

variable {n : Nat} {s : CacheState}

theorem onCache_of_dir {dir : Bytes} (hdir : dir ∈ dirs) (d_name : Bytes) :
    ascii "/cache/" <+: dir ++ ascii "/" ++ d_name := by
  have hpre : ascii "/cache/" <+: dir ++ ascii "/" := by
    simp only [dirs, List.mem_cons, List.not_mem_nil, or_false] at hdir
    rcases hdir with rfl | rfl
    · decide
    · decide
  exact hpre.trans (List.prefix_append _ _)

theorem Candidate.on_cache {d : Disk} {path : Bytes} (h : Candidate d path) :
    (ascii "/cache/").isPrefixOf path = true := by
  obtain ⟨dir, hdir, d_name, -, rfl⟩ := h.in_dirs
  exact List.isPrefixOf_iff_prefix.mpr (onCache_of_dir hdir d_name)

theorem regularFiles_candidates {dir : Bytes} (hdir : dir ∈ dirs) {names : List Bytes}
    (hnames : ∀ d_name ∈ names, 47 ∉ d_name) :
    (regularFiles dir names).Always (TellingStep n) (· = s)
      (fun paths _ => ∀ p ∈ paths, Candidate s.disk p) s := by
  induction names with
  | nil => exact ⟨rfl, fun p hp => by cases hp⟩
  | cons d_name names ih =>
    have hrest := ih fun d hd => hnames d (List.mem_cons_of_mem d_name hd)
    rw [regularFiles]
    split_ifs with hcopy
    · exact hrest
    refine ⟨rfl, fun regular s' hstep => ?_⟩
    obtain ⟨hstep, htells⟩ := hstep
    obtain rfl : s' = s := by cases hstep <;> rfl
    refine hrest.bind_const rfl fun rest hpaths => ⟨rfl, ?_⟩
    cases regular with
    | false => exact hpaths
    | true =>
      rintro p (_ | ⟨_, hp⟩)
      · exact ⟨htells rfl, ⟨dir, hdir, d_name, hnames d_name List.mem_cons_self, rfl⟩, hcopy⟩
      · exact hpaths p hp

theorem expendableIn_candidates {ds : List Bytes} (hds : ∀ d ∈ ds, d ∈ dirs) :
    (expendableIn ds).Always (TellingStep n) (· = s)
      (fun paths _ => ∀ p ∈ paths, Candidate s.disk p) s := by
  induction ds with
  | nil => exact ⟨rfl, fun p hp => by cases hp⟩
  | cons dir ds ih =>
    have hdir := hds dir List.mem_cons_self
    refine ⟨rfl, fun names s' hstep => ?_⟩
    obtain ⟨hstep, -⟩ := hstep
    have hnames : s' = s ∧ ∀ d_name ∈ names.getD [], 47 ∉ d_name := by
      cases hstep with
      | opendir_ok => exact ⟨rfl, s.disk.no_slash dir⟩
      | opendir_fails => exact ⟨rfl, fun _ h => by cases h⟩
    obtain ⟨rfl, hnames⟩ := hnames
    refine (regularFiles_candidates hdir hnames).bind_const rfl fun files hfiles => ?_
    refine (ih fun d hd => hds d (List.mem_cons_of_mem dir hd)).bind_const rfl fun rest hrest => ?_
    refine ⟨rfl, fun p hp => ?_⟩
    rcases List.mem_append.mp hp with hp | hp
    · exact hfiles p hp
    · exact hrest p hp

theorem mem_of_mem_dropOpen {files : List (Option Bytes)} {link : Option Bytes} {p : Bytes}
    (h : some p ∈ dropOpen files link) : some p ∈ files := by
  cases link with
  | none => exact h
  | some link =>
    simp only [dropOpen] at h
    split_ifs at h
    · obtain ⟨file, hfile, heq⟩ := List.mem_map.mp h
      split_ifs at heq
      exact heq ▸ hfile
    · exact h

/-- The file that a link names is taken out. -/
theorem notMem_dropOpen {files : List (Option Bytes)} {p : Bytes}
    (hcache : (ascii "/cache/").isPrefixOf p = true) : some p ∉ dropOpen files (some p) := by
  intro h
  simp only [dropOpen, hcache, if_true] at h
  obtain ⟨file, -, heq⟩ := List.mem_map.mp h
  split_ifs at heq with hfile
  exact hfile heq

/-- What is left of the candidates is not open as one of these descriptors. -/
theorem eliminateFds_closed (path : Bytes) {fds : List Bytes} {files : List (Option Bytes)}
    (hfiles : ∀ p, some p ∈ files → Candidate s.disk p) :
    (eliminateFds path fds files).Always (TellingStep n) (· = s)
      (fun files' _ => ∀ p, some p ∈ files' →
        some p ∈ files ∧ ∀ fd ∈ fds, ¬OpenAs s.disk (path ++ fd) p) s := by
  induction fds generalizing files with
  | nil => exact ⟨rfl, fun p hp => ⟨hp, fun fd hfd => by cases hfd⟩⟩
  | cons fdde fds ih =>
    refine ⟨rfl, fun link s' hstep => ?_⟩
    obtain ⟨hstep, htells⟩ := hstep
    obtain rfl : s' = s := by cases hstep <;> rfl
    have hdropped : ∀ p, some p ∈ dropOpen files link → Candidate s'.disk p := fun p hp =>
      hfiles p (mem_of_mem_dropOpen hp)
    refine (ih hdropped).mono fun files' _ _ hleft p hp => ?_
    obtain ⟨hmem, hclosed⟩ := hleft p hp
    refine ⟨mem_of_mem_dropOpen hmem, fun fd hfd hopen => ?_⟩
    rcases List.mem_cons.mp hfd with rfl | hfd
    · have hcand := hdropped p hmem
      have hlink : link = some p := htells p hcand hopen
      rw [hlink] at hmem
      exact notMem_dropOpen hcand.on_cache hmem
    · exact hclosed fd hfd hopen

/-- What is left of the candidates is not open in one of these processes. -/
theorem eliminateProcs_closed {names : List Bytes} {files : List (Option Bytes)}
    (hfiles : ∀ p, some p ∈ files → Candidate s.disk p) :
    (eliminateProcs names files).Always (TellingStep n) (· = s)
      (fun files' _ => ∀ p, some p ∈ files' → some p ∈ files ∧
        ∀ d_name ∈ names, d_name.all isDigit = true →
          ∀ fd ∈ s.disk.entries (fdPath d_name), ¬OpenAs s.disk (fdPath d_name ++ fd) p) s := by
  induction names generalizing files with
  | nil => exact ⟨rfl, fun p hp => ⟨hp, fun _ h => by cases h⟩⟩
  | cons d_name names ih =>
    rw [eliminateProcs]
    split_ifs with hdigits
    · refine ⟨rfl, fun fdd s' hstep => ?_⟩
      obtain ⟨hstep, htells⟩ := hstep
      obtain rfl : s' = s := by cases hstep <;> rfl
      refine (eliminateFds_closed (fdPath d_name) hfiles).bind_const rfl fun left hleft => ?_
      refine (ih fun p hp => hfiles p (hleft p hp).1).mono fun files' _ _ hmem p hp => ?_
      obtain ⟨hp, hnames⟩ := hmem p hp
      obtain ⟨hfile, hfds⟩ := hleft p hp
      refine ⟨hfile, fun d hd => ?_⟩
      rcases List.mem_cons.mp hd with rfl | hd
      · intro _ fd hfd
        cases hstep with
        | opendir_ok => exact hfds fd hfd
        | opendir_fails => exact htells rfl d rfl fd hfd p (hfiles p hfile)
      · exact hnames d hd
    · refine (ih hfiles).mono fun files' _ _ hmem p hp => ?_
      obtain ⟨hfile, hnames⟩ := hmem p hp
      refine ⟨hfile, fun d hd hall => ?_⟩
      rcases List.mem_cons.mp hd with rfl | hd
      · exact absurd hall hdigits
      · exact hnames d hd hall

/-- `FindExpendableFiles` finds deletable files only. -/
theorem findExpendableFiles_deletable :
    findExpendableFiles.Always (TellingStep n) (· = s)
      (fun r _ => ∀ files, r = some files → ∀ p, some p ∈ files → Deletable s.disk p) s := by
  unfold findExpendableFiles
  refine (expendableIn_candidates fun _ h => h).bind_const rfl fun paths hpaths => ?_
  refine ⟨rfl, fun names s' hstep => ?_⟩
  obtain ⟨hstep, -⟩ := hstep
  show (eliminateIn (paths.map some) names).Always _ _ _ _
  have hcand : ∀ p, some p ∈ paths.map some → Candidate s.disk p := fun p hp => by
    obtain ⟨q, hq, heq⟩ := List.mem_map.mp hp
    obtain rfl := Option.some.inj heq
    exact hpaths q hq
  cases hstep with
  | opendir_fails => exact ⟨rfl, fun _ h => by cases h⟩
  | opendir_ok =>
    refine (eliminateProcs_closed hcand).bind_const rfl fun files hleft => ⟨rfl, ?_⟩
    intro files' heq p hp
    obtain rfl := Option.some.inj heq
    obtain ⟨hmem, hclosed⟩ := hleft p hp
    refine ⟨hcand p hmem, ?_⟩
    rintro ⟨d_name, hname, hdigits, fd, hfd, hopen⟩
    exact hclosed d_name hname hdigits fd hfd hopen

end Find

/-! ## `MakeFreeSpaceOnCache` makes room -/

section Delete

variable {bytes_needed : Nat} {d : Disk} {s : CacheState}

theorem freeSpace_none : freeSpace none = 2 ^ 32 - 1 := by
  unfold freeSpace toU32
  rfl

theorem freeSpace_some (f_bsize f_bfree : Nat) :
    freeSpace (some (f_bsize, f_bfree)) = f_bsize * f_bfree % 2 ^ 32 := by
  show toU32 ((f_bsize * f_bfree : Nat) : Int) = _
  generalize f_bsize * f_bfree = free
  unfold toU32
  omega

/-- The value of `FreeSpaceForFile` and the free bytes are on one side of what is needed. -/
theorem freeSpaceForFile_tells (hneeded : bytes_needed < 2 ^ 32) {name : Bytes} :
    (freeSpaceForFile name).Always (TellingStep bytes_needed) (· = s)
      (fun free_now _ => bytes_needed ≤ free_now ↔ bytes_needed ≤ s.disk.free) s := by
  refine ⟨rfl, fun sf s' hstep => ?_⟩
  obtain ⟨hstep, htells⟩ := hstep
  cases hstep with
  | statfs_ok _ h =>
    refine ⟨rfl, ?_⟩
    show bytes_needed ≤ freeSpace (some _) ↔ _
    rw [freeSpace_some, h]
    exact ⟨fun hle => hle.trans (Nat.mod_le _ _), htells⟩
  | statfs_fails =>
    refine ⟨rfl, ?_⟩
    show bytes_needed ≤ freeSpace none ↔ _
    rw [freeSpace_none]
    exact iff_of_true (Nat.le_pred_of_lt hneeded) htells

theorem deleteFiles_frees (hneeded : bytes_needed < 2 ^ 32) {files : List (Option Bytes)}
    (hfiles : ∀ p, some p ∈ files → Deletable d p) (hs : DeletedRight bytes_needed d s)
    {free_now : Nat} (hfree : bytes_needed ≤ free_now ↔ bytes_needed ≤ s.disk.free) :
    (deleteFiles bytes_needed files free_now).Always (TellingStep bytes_needed)
      (DeletedRight bytes_needed d)
      (fun free_now s' => bytes_needed ≤ free_now ↔ bytes_needed ≤ s'.disk.free) s := by
  induction files generalizing free_now s with
  | nil => exact ⟨hs, hfree⟩
  | cons file files ih =>
    have hrest : ∀ p, some p ∈ files → Deletable d p := fun p hp =>
      hfiles p (List.mem_cons_of_mem file hp)
    rw [deleteFiles.eq_def]
    dsimp only
    split_ifs with henough
    · exact ⟨hs, hfree⟩
    cases file with
    | none => exact ih hrest hs hfree
    | some name =>
      refine ⟨hs, fun _ s₁ hstep => ?_⟩
      obtain ⟨hstep, -⟩ := hstep
      have hs₁ : DeletedRight bytes_needed d s₁ := by
        cases hstep with
        | unlink_fails => exact hs
        | unlink_ok free _ =>
          intro x hx
          rcases List.mem_append.mp hx with hx | hx
          · exact hs x hx
          · obtain rfl := List.mem_singleton.mp hx
            exact ⟨hfiles name List.mem_cons_self, Nat.lt_of_not_le (henough ∘ hfree.mpr)⟩
      exact (freeSpaceForFile_tells hneeded).bind_const hs₁ fun free hfree => ih hrest hs₁ hfree

/-- When the calls tell what is taken from them, `MakeFreeSpaceOnCache` deletes only unopened
regular files in the two directories, and only with too little space, and it returns 0 only
with enough. -/
theorem makeFreeSpaceOnCache_frees (bytes_needed : UInt32) (d : Disk) :
    (makeFreeSpaceOnCache bytes_needed.toNat).Always (TellingStep bytes_needed.toNat)
      (DeletedRight bytes_needed.toNat d)
      (fun r s => r = 0 → bytes_needed.toNat ≤ s.disk.free) ⟨d, []⟩ := by
  have hneeded : bytes_needed.toNat < 2 ^ 32 := bytes_needed.toNat_lt
  have hnone : DeletedRight bytes_needed.toNat d ⟨d, []⟩ := fun x hx => by cases hx
  refine (freeSpaceForFile_tells hneeded).bind_const hnone fun free_now hfree => ?_
  unfold makeRoom
  split_ifs with henough
  · exact ⟨hnone, fun _ => hfree.mp henough⟩
  refine findExpendableFiles_deletable.bind_const hnone fun names hnames => ?_
  match names, hnames with
  | none, _ => exact ⟨hnone, fun h => absurd h (by decide)⟩
  | some [], _ => exact ⟨hnone, fun h => absurd h (by decide)⟩
  | some (file :: files), hnames =>
    refine (deleteFiles_frees hneeded (hnames _ rfl) hnone hfree).bind fun free s hs hfree => ?_
    refine ⟨hs, fun h => ?_⟩
    split_ifs at h with hdone
    exact hfree.mp hdone

/-- An empty file system without free space. -/
def fullDisk : Disk where
  kind _ := none
  entries _ := []
  fd _ := none
  link _ := []
  free := 0
  no_slash _ _ h := by cases h

/-- When `statfs` fails, the function returns 0, however little space there is. -/
theorem makeFreeSpaceOnCache_statfs_fails :
    ¬∀ (bytes_needed : UInt32) (d : Disk) (r : Int) (s : CacheState),
      (makeFreeSpaceOnCache bytes_needed.toNat).Runs DiskStep ⟨d, []⟩ r s →
        DeletedRight bytes_needed.toNat d s ∧ (r = 0 → bytes_needed.toNat ≤ s.disk.free) := by
  intro h
  have hrun : (makeFreeSpaceOnCache (1 : UInt32).toNat).Runs DiskStep ⟨fullDisk, []⟩ 0
      ⟨fullDisk, []⟩ := by
    refine ⟨none, _, .statfs_fails _, ?_⟩
    show (makeRoom 1 (freeSpace none)).Runs _ _ _ _
    rw [makeRoom, freeSpace_none, if_pos (by decide)]
    exact ⟨rfl, rfl⟩
  exact absurd ((h 1 fullDisk 0 _ hrun).2 rfl) (by decide)

end Delete

end BootableRecovery.Applypatch
