import BootableRecovery.Lib.Blocks
import BootableRecovery.Lib.Prog
import BootableRecovery.Dedupe.Manifest

/-!
# `dedupe.c`: the blob directory

`dedupe c` stores the contents of files in the blob directory, under names that
are made from their digests, and `dedupe gc` removes the blobs that no manifest
names. Both can fail at every operation, and both can be killed between any two
of them.

The state has the files below the blob directory and the manifest that is being
written, which the callers keep in another directory. What a run reads of its
input does not change, so the tree is a parameter of the program; only the calls
that read it can fail. The errors and names that are printed are left out.

Main results:
* `store_file_always`, `store_dir_always`: what storing a file and a directory
  does, at every point.
* `gc_always`: `gc` only removes.
* `blobs_addressed`: the content of every blob has the digest that its name
  tells, after any number of runs that were cut off anywhere.
-/

namespace BootableRecovery.Dedupe

/-! ## Operations -/

/-- Calls that read the input directory. They change nothing and can fail. -/
inductive InputCall where
  | lstat
  | opendir
  | fopen
  | open
  | readlink
  deriving DecidableEq, Repr

/-- The file operations of `c` and `gc`. The names are those below the blob
directory. -/
inductive Op where
  | input (call : InputCall)
  | fopenManifest
  | fprintf (text : Bytes)
  | mkdir
  | stat (name : Bytes)
  | openTrunc (name : Bytes)
  | write (name data : Bytes)
  | rename (name name' : Bytes)
  | check_file
  | readManifest
  | recursive_list_dir
  | remove (name : Bytes)

/-- The answers. A call on the input has its error number, 0 for success; the
other calls that can only fail or not answer with `true` when they succeed. -/
@[reducible] def Ans : Op → Type
  | .input _ => Nat
  | .fopenManifest => Bool
  | .stat _ => Option Nat
  | .openTrunc _ => Bool
  | .write _ _ => Option Nat
  | .rename _ _ => Bool
  | .check_file => Bool
  | .readManifest => Option Bytes
  | .recursive_list_dir => List Bytes
  | .remove _ => Bool
  | _ => Unit

/-- The blobs and the manifest of the running `c`. -/
structure Disk where
  blobs : Bytes → Option Bytes
  manifest : Bytes

/-- A file is written, created or removed. -/
def Disk.set (d : Disk) (name : Bytes) (content : Option Bytes) : Disk :=
  { d with blobs := Function.update d.blobs name content }

/-- One operation. A call that failed has changed nothing, except that a write
can be short. -/
inductive Step (d : Disk) : (o : Op) → Ans o → Disk → Prop where
  | input (call : InputCall) (errno : Nat) : Step d (.input call) errno d
  | fopenManifest : Step d .fopenManifest true { d with manifest := [] }
  | fopenManifestFailed : Step d .fopenManifest false d
  | fprintf (text : Bytes) : Step d (.fprintf text) () { d with manifest := d.manifest ++ text }
  | mkdir : Step d .mkdir () d
  | stat (name : Bytes) : Step d (.stat name) ((d.blobs name).map List.length) d
  | statFailed (name : Bytes) : Step d (.stat name) none d
  | openTrunc (name : Bytes) : Step d (.openTrunc name) true (d.set name (some []))
  | openTruncFailed (name : Bytes) : Step d (.openTrunc name) false d
  | write (name data : Bytes) {old : Bytes} (n : Nat) (hn : n ≤ data.length)
      (h : d.blobs name = some old) :
      Step d (.write name data) (some n) (d.set name (some (old ++ data.take n)))
  | writeFailed (name data : Bytes) : Step d (.write name data) none d
  | rename (name name' : Bytes) {content : Bytes} (h : d.blobs name = some content) :
      Step d (.rename name name') true ((d.set name none).set name' (some content))
  | renameFailed (name name' : Bytes) : Step d (.rename name name') false d
  | check_file (found : Bool) : Step d .check_file found d
  | readManifest (text : Option Bytes) : Step d .readManifest text d
  | recursive_list_dir (names : List Bytes) (h : ∀ name ∈ names, d.blobs name ≠ none) :
      Step d .recursive_list_dir names d
  | remove (name : Bytes) (h : d.blobs name ≠ none) :
      Step d (.remove name) true (d.set name none)
  | removeFailed (name : Bytes) : Step d (.remove name) false d

/-! ## `dedupe c` -/

/-- A run returns a status, or it accesses memory that it should not. -/
abbrev Run := Prog Op Ans (Outcome Int)

def perform (o : Op) : Prog Op Ans (Ans o) := Prog.perform o

/-- Go on when the status is 0, and return it otherwise. -/
def whenZero (p q : Run) : Run := do
  match ← p with
  | .done 0 => q
  | r => pure r

/-- A call on the input whose failure is the status `failed errno`. -/
def input (call : InputCall) (failed : Nat → Int) : Run := do
  let errno ← perform (.input call)
  if errno = 0 then pure (.done 0) else pure (.done (failed errno))

/-- What the calls of `read` with a buffer of 4096 bytes return, up to the end of
the file. -/
def readChunks (content : Bytes) : List Bytes :=
  wholeBlocks 4096 content ++
    if partialBlock 4096 content = [] then [] else [partialBlock 4096 content]

/-- The loop of `copy_file`, for the chunks that `read` returns. -/
def copyLoop (dst : Bytes) : List Bytes → Run
  | [] => pure (.done 0)
  | chunk :: chunks => do
    let written ← perform (.write dst chunk)
    if written = some chunk.length then copyLoop dst chunks else pure (.done 5)

/-- `copy_file`, from an input file to a blob. -/
def copy_file (content dst : Bytes) : Run :=
  whenZero (input .open fun _ => 3) do
    let opened ← perform (.openTrunc dst)
    if opened then copyLoop dst (readChunks content) else pure (.done 4)

/-- The copy to the temporary file, and its renaming. -/
def copyBlob (content out_blob : Bytes) : Run :=
  whenZero (copy_file content (tmpName out_blob)) do
    let renamed ← perform (.rename (tmpName out_blob) out_blob)
    if renamed then pure (.done 0) else pure (.done (-1))

section Create

variable (sha256 : Bytes → Digest)

/-- The name of the blob of a content. -/
def blobName (content : Bytes) : Bytes := key (hex (sha256 content).1)

/-- A blob of the same size is not copied again. -/
def store_blob (st : Stat) (content : Bytes) : Run := do
  let out_blob := blobName sha256 content
  perform .mkdir
  let file_info ← perform (.stat out_blob)
  if file_info.map (fun n => wrap32 n) = some (wrap32 st.st_size) then pure (.done 0)
  else copyBlob content out_blob

def store_file (st : Stat) (content : Bytes) : Run :=
  whenZero (input .fopen fun _ => 1) <|
    whenZero (store_blob sha256 st content) do
      perform (.fprintf (fileFields (blobName sha256 content) (wrap32 st.st_size)))
      pure (.done 0)

/-- `readlink` returns at most `PATH_MAX` bytes, and the terminator is written
behind them. -/
def store_link (target : Bytes) : Run :=
  whenZero (input .readlink fun errno => errno) do
    if PATH_MAX ≤ target.length then pure .fault
    else do
      perform (.fprintf (linkFields target))
      pure (.done 0)

variable (excludes : List Bytes)

mutual

/-- `store_st`. -/
def store_st (path : Bytes) : Node → Run
  | .file st content => do
    perform (.fprintf (print_stat 102 st path))
    store_file sha256 st content
  | .dir st entries => do
    perform (.fprintf (print_stat 100 st path))
    perform (.fprintf [10])
    whenZero (input .opendir fun _ => 1) (store_entries path entries)
  | .link st target => do
    perform (.fprintf (print_stat 108 st path))
    store_link target
  | .special _ => pure (.done 0)

/-- The loop of `store_dir` in the directory `d`. -/
def store_entries (d : Bytes) : List (Bytes × Node) → Run
  | [] => pure (.done 0)
  | (name, node) :: entries =>
    let full_path := d ++ 47 :: name
    if PATH_MAX ≤ full_path.length then pure .fault
    else if full_path ∈ excludes then store_entries d entries
    else
      whenZero (input .lstat fun _ => -1) <|
        whenZero (store_st full_path node) (store_entries d entries)

end

/-- `store_dir`. -/
def store_dir (d : Bytes) (entries : List (Bytes × Node)) : Run :=
  whenZero (input .opendir fun _ => 1) (store_entries sha256 excludes d entries)

/-- `dedupe c`. The manifest is written to before the pointer is checked. -/
def dedupe_c (tree : Node) : Run :=
  whenZero (input .lstat fun _ => -1) <|
    match tree with
    | .dir _ entries => do
      let opened ← perform .fopenManifest
      if opened then do
        perform (.fprintf header)
        perform .mkdir
        store_dir sha256 excludes (ascii ".") entries
      else pure .fault
    | _ => pure (.done 1)

end Create

/-! ## `dedupe gc` -/

/-- The blobs that the lines of a manifest name. -/
def usedFiles (version : Int) : List Bytes → Outcome (List Bytes)
  | [] => .done []
  | line :: lines => do
    let (head, line) ← tokenizeHead version line
    if head.type = ascii "f" then do
      let (used, _) ← tokenizeFile line
      let rest ← usedFiles version lines
      .done (used :: rest)
    else usedFiles version lines

/-- What a manifest tells `gc`; `none` when its version is too new. -/
def gcManifest (text : Bytes) : Outcome (Option (List Bytes)) := do
  let (version, rest) ← readVersion text
  if DEDUPE_VERSION < version then .done none
  else do
    let used ← usedFiles version (fgetsAll PATH_MAX rest)
    .done (some used)

/-- How the loop over the manifests ended: with `goto out` when one could not be
opened, else with the blobs that are used, and `failure` if it was left early. -/
inductive Scan where
  | out
  | used (names : List Bytes) (failure : Bool)

/-- The loop over `n` manifests. -/
def scanManifests : Nat → List Bytes → Prog Op Ans (Outcome Scan)
  | 0, used_files => pure (.done (.used used_files false))
  | n + 1, used_files => do
    match ← perform .readManifest with
    | none => pure (.done .out)
    | some text =>
      match gcManifest text with
      | .done (some used) => scanManifests n (used_files ++ used)
      | .done none => pure (.done (.used used_files true))
      | .fault => pure .fault
      | .spin => pure .spin

/-- The sorted names, as `qsort` with `string_compare` leaves them. -/
def sorted (names : List Bytes) : List Bytes := names.mergeSort fun a b => decide (a ≤ b)

/-- The walk through the two sorted lists. -/
def removeUnused : List Bytes → List Bytes → Prog Op Ans Unit
  | _, [] => pure ()
  | used_files, name :: all_files =>
    let used_files := used_files.dropWhile fun used => decide (used < name)
    if used_files.head? = some name then removeUnused used_files all_files
    else do
      let _ ← perform (.remove name)
      removeUnused used_files all_files

/-- The search for unused files, after the manifests. -/
def collect : Outcome Scan → Run
  | .done .out => pure (.done 1)
  | .done (.used used_files failure) => do
    let all_files ← perform .recursive_list_dir
    removeUnused (sorted used_files) (sorted all_files)
    pure (.done (if failure then 1 else 0))
  | .fault => pure .fault
  | .spin => pure .spin

/-- `dedupe gc` with `n` manifests. -/
def dedupe_gc (n : Nat) : Run := do
  let found ← perform .check_file
  if found then do
    let scan ← scanManifests n []
    collect scan
  else pure (.done 1)

/-! ## The blobs have the names of their contents -/

/-- The path of the blob with a digest: a slash follows the third character. -/
def digestPath (digest : Digest) : Bytes := (hex digest.1).take 3 ++ 47 :: (hex digest.1).drop 3

/-- Every file whose name does not end in `.tmp` has a content with the digest
that its path tells. -/
def Addressed (sha256 : Bytes → Digest) (d : Disk) : Prop :=
  ∀ name content, d.blobs name = some content → ¬ ascii ".tmp" <:+ name →
    name = digestPath (sha256 content)

theorem key_eq {psum : Bytes} (h : 4 ≤ psum.length) :
    key psum = psum.take 3 ++ 47 :: psum.drop 3 := by
  match psum, h with
  | a :: b :: c :: d :: rest, _ => rfl

theorem hex_length (sum : Bytes) : (hex sum).length = 2 * sum.length := by
  induction sum with
  | nil => rfl
  | cons b sum ih =>
    simp only [hex, List.flatMap_cons, List.length_append, List.length_cons, List.length_nil] at *
    omega

theorem blobName_eq (sha256 : Bytes → Digest) (content : Bytes) :
    blobName sha256 content = digestPath (sha256 content) := by
  have hlen := hex_length (sha256 content).1
  have h32 := (sha256 content).2
  exact key_eq (by omega)

section Always

variable {sha256 : Bytes → Digest}

theorem Addressed.set_tmp {d : Disk} (h : Addressed sha256 d) (name : Bytes)
    (content : Option Bytes) : Addressed sha256 (d.set (tmpName name) content) := by
  intro name' content' hblob htmp
  have hne : name' ≠ tmpName name := fun he => htmp (he ▸ List.suffix_append name _)
  exact h name' content' (by simpa [Disk.set, Function.update_of_ne hne] using hblob) htmp

theorem Addressed.set_blob {d : Disk} (h : Addressed sha256 d) (content : Bytes) :
    Addressed sha256 (d.set (blobName sha256 content) (some content)) := by
  intro name' content' hblob htmp
  rcases eq_or_ne name' (blobName sha256 content) with rfl | hne
  · obtain rfl : content = content' := by simpa [Disk.set] using hblob
    exact blobName_eq sha256 content
  · exact h name' content' (by simpa [Disk.set, Function.update_of_ne hne] using hblob) htmp

theorem Addressed.set_none {d : Disk} (h : Addressed sha256 d) (name : Bytes) :
    Addressed sha256 (d.set name none) := by
  intro name' content' hblob htmp
  rcases eq_or_ne name' name with rfl | hne
  · simp [Disk.set] at hblob
  · exact h name' content' (by simpa [Disk.set, Function.update_of_ne hne] using hblob) htmp

theorem Addressed.manifest {d : Disk} (h : Addressed sha256 d) (text : Bytes) :
    Addressed sha256 { d with manifest := text } := h

/-- The status of `p` decides whether `q` runs. -/
theorem always_whenZero {I : Disk → Prop} {Q R : Outcome Int → Disk → Prop} {p q : Run} {d : Disk}
    (hp : p.Always Step I Q d) (hq : ∀ d', I d' → Q (.done 0) d' → q.Always Step I R d')
    (hr : ∀ r d', I d' → Q r d' → r ≠ .done 0 → R r d') :
    (whenZero p q).Always Step I R d := by
  refine hp.bind fun r d' hI hQ => ?_
  split
  · exact hq d' hI hQ
  · rename_i hne
    exact ⟨hI, hr r d' hI hQ hne⟩

theorem always_pure {I : Disk → Prop} {Q : Outcome Int → Disk → Prop} {r : Outcome Int} {d : Disk}
    (hI : I d) (hQ : Q r d) : (pure r : Run).Always Step I Q d :=
  ⟨hI, hQ⟩

/-- A call on the input changes nothing. -/
theorem input_always {I : Disk → Prop} {d : Disk} (hI : I d) (call : InputCall)
    (failed : Nat → Int) : (input call failed).Always Step I (fun _ d' => d' = d) d := by
  refine .perform hI fun errno d' hstep => ?_
  cases hstep
  split
  · exact always_pure hI rfl
  · exact always_pure hI rfl

/-! ### Copying -/

@[simp] theorem Disk.set_blobs (d : Disk) (name : Bytes) (a : Option Bytes) :
    (d.set name a).blobs name = a := by
  simp [Disk.set]

theorem Disk.set_blobs_of_ne (d : Disk) {name name' : Bytes} (h : name' ≠ name)
    (a : Option Bytes) : (d.set name a).blobs name' = d.blobs name' := by
  simp [Disk.set, h]

theorem Disk.set_set (d : Disk) (name : Bytes) (a b : Option Bytes) :
    (d.set name a).set name b = d.set name b := by
  simp [Disk.set]

theorem Disk.set_same {d : Disk} {name : Bytes} {a : Option Bytes} (h : d.blobs name = a) :
    d.set name a = d := by
  simp [Disk.set, ← h]

theorem readChunks_flatten (content : Bytes) : (readChunks content).flatten = content := by
  unfold readChunks
  split
  · rename_i hnil
    have hflat := wholeBlocks_flatten 4096 content
    rw [hnil] at hflat
    simpa using hflat
  · simpa using wholeBlocks_flatten 4096 content

/-- The temporary file gets all the chunks, or the status is not 0. -/
theorem copyLoop_always (name : Bytes) (chunks : List Bytes) {d : Disk} (hd : Addressed sha256 d)
    {old : Bytes} (hold : d.blobs (tmpName name) = some old) :
    (copyLoop (tmpName name) chunks).Always Step (Addressed sha256)
      (fun r d' => r = .done 0 → d' = d.set (tmpName name) (some (old ++ chunks.flatten))) d := by
  induction chunks generalizing d old with
  | nil =>
    refine always_pure hd fun _ => ?_
    simpa using (Disk.set_same hold).symm
  | cons chunk chunks ih =>
    refine .perform hd fun written d' hstep => ?_
    cases hstep with
    | write _ _ n hn h =>
      obtain rfl := Option.some.inj (hold.symm.trans h)
      have hd' := hd.set_tmp name (some (old ++ chunk.take n))
      split
      · rename_i hall
        obtain rfl : n = chunk.length := Option.some.inj hall
        rw [List.take_length] at hd' ⊢
        refine (ih hd' (Disk.set_blobs ..)).mono fun r d'' _ hr h0 => ?_
        rw [hr h0, Disk.set_set, List.flatten_cons, List.append_assoc]
      · exact always_pure hd' fun h0 => by cases h0
    | writeFailed =>
      rw [if_neg (by simp)]
      exact always_pure hd fun h0 => by cases h0

theorem copy_file_always (content name : Bytes) {d : Disk} (hd : Addressed sha256 d) :
    (copy_file content (tmpName name)).Always Step (Addressed sha256)
      (fun r d' => r = .done 0 → d' = d.set (tmpName name) (some content)) d := by
  refine always_whenZero (input_always hd _ _) ?_ fun r d' _ _ hne h0 => absurd h0 hne
  rintro d' - rfl
  refine .perform hd fun opened d'' hstep => ?_
  cases hstep with
  | openTrunc =>
    rw [if_pos rfl]
    refine (copyLoop_always name _ (hd.set_tmp name (some []))
      (Disk.set_blobs ..)).mono fun r d₁ _ hr h0 => ?_
    rw [hr h0, Disk.set_set, List.nil_append, readChunks_flatten]
  | openTruncFailed =>
    rw [if_neg (by simp)]
    exact always_pure hd fun h0 => by cases h0

/-- The blob is complete when it gets its name. -/
theorem copyBlob_always (content : Bytes) {d : Disk} (hd : Addressed sha256 d) :
    (copyBlob content (blobName sha256 content)).Always Step (Addressed sha256)
      (fun r d' => r = .done 0 →
        d' = (d.set (tmpName (blobName sha256 content)) none).set (blobName sha256 content)
          (some content)) d := by
  refine always_whenZero (copy_file_always content _ hd) ?_ fun r d' _ _ hne h0 => absurd h0 hne
  rintro d' hd' hcopied
  obtain rfl := hcopied rfl
  refine .perform hd' fun renamed d'' hstep => ?_
  cases hstep with
  | rename _ _ h =>
    obtain rfl := Option.some.inj ((Disk.set_blobs ..).symm.trans h)
    rw [if_pos rfl, Disk.set_set]
    exact always_pure ((hd.set_none _).set_blob content) fun _ => rfl
  | renameFailed =>
    rw [if_neg (by simp)]
    exact always_pure hd' fun h0 => by cases h0

/-! ### The tree -/

theorem hexChar_ne {d : Nat} (h : d < 16) : hexChar d ≠ 112 := by
  interval_cases d <;> decide

/-- The name of a blob ends in a digit of its digest. -/
theorem blobName_not_tmp (sha256 : Bytes → Digest) (content : Bytes) :
    ¬ ascii ".tmp" <:+ blobName sha256 content := by
  rw [blobName_eq]
  rintro ⟨front, heq⟩
  have hmem : ∀ c ∈ hex (sha256 content).1, c ≠ 112 := by
    intro c hc
    obtain ⟨b, -, hb⟩ := List.mem_flatMap.mp hc
    have hlt := b.toNat_lt
    rcases List.mem_pair.mp hb with rfl | rfl
    · exact hexChar_ne (by omega)
    · exact hexChar_ne (by omega)
  have hlen := hex_length (sha256 content).1
  have h32 := (sha256 content).2
  have hne : (hex (sha256 content).1).drop 3 ≠ [] := by
    rw [ne_eq, List.drop_eq_nil_iff]
    omega
  have hlast : (digestPath (sha256 content)).getLast? = some 112 := by
    rw [← heq, List.getLast?_append]
    rfl
  unfold digestPath at hlast
  rw [List.getLast?_append, List.getLast?_cons, List.getLast?_eq_some_getLast hne] at hlast
  have h112 : ((hex (sha256 content).1).drop 3).getLast hne = 112 := by simpa using hlast
  exact hmem _ (List.mem_of_mem_drop (List.getLast_mem hne)) h112

/-- What a successful part of `dedupe c` has done: it wrote `text`, the contents
have blobs, no blob went away, and the new ones hold some of the contents. -/
structure Stored (sha256 : Bytes → Digest) (d d' : Disk) (text : Bytes) (contents : List Bytes) :
    Prop where
  manifest : d'.manifest = d.manifest ++ text
  keeps : ∀ name, ¬ ascii ".tmp" <:+ name → d.blobs name ≠ none → d'.blobs name ≠ none
  has : ∀ content ∈ contents, d'.blobs (blobName sha256 content) ≠ none
  origin : ∀ name content, ¬ ascii ".tmp" <:+ name → d'.blobs name = some content →
    d.blobs name = some content ∨ content ∈ contents

theorem Stored.refl (d : Disk) : Stored sha256 d d [] [] where
  manifest := by simp
  keeps _ _ h := h
  has _ h := absurd h List.not_mem_nil
  origin _ _ _ h := .inl h

theorem Stored.trans {d d' d'' : Disk} {text text' : Bytes} {contents contents' : List Bytes}
    (h : Stored sha256 d d' text contents) (h' : Stored sha256 d' d'' text' contents') :
    Stored sha256 d d'' (text ++ text') (contents ++ contents') where
  manifest := by rw [h'.manifest, h.manifest, List.append_assoc]
  keeps name htmp hne := h'.keeps name htmp (h.keeps name htmp hne)
  has content hmem := by
    rcases List.mem_append.mp hmem with hmem | hmem
    · exact h'.keeps _ (blobName_not_tmp sha256 content) (h.has content hmem)
    · exact h'.has content hmem
  origin name content htmp hblob := by
    rcases h'.origin name content htmp hblob with hblob | hmem
    · exact (h.origin name content htmp hblob).imp_right (List.mem_append_left _)
    · exact .inr (List.mem_append_right _ hmem)

theorem Stored.fprintf (d : Disk) (text : Bytes) :
    Stored sha256 d { d with manifest := d.manifest ++ text } text [] where
  manifest := rfl
  keeps _ _ h := h
  has _ h := absurd h List.not_mem_nil
  origin _ _ _ h := .inl h

/-- Something is stored from `d` on, if the status is 0. -/
def Stores (sha256 : Bytes → Digest) (text : Bytes) (contents : List Bytes) (p : Run) : Prop :=
  ∀ d, Addressed sha256 d → p.Always Step (Addressed sha256)
    (fun r d' => r = .done 0 → Stored sha256 d d' text contents) d

theorem Stores.pure_zero : Stores sha256 [] [] (pure (.done 0)) :=
  fun d hd => always_pure hd fun _ => .refl d

/-- A status that is not 0 ends `dedupe c`. -/
theorem Stores.pure_of_ne {r : Outcome Int} (h : r ≠ .done 0) (text : Bytes)
    (contents : List Bytes) : Stores sha256 text contents (pure r) :=
  fun _ hd => always_pure hd fun h0 => absurd h0 h

theorem Stores.whenZero {text text' : Bytes} {contents contents' : List Bytes} {p q : Run}
    (hp : Stores sha256 text contents p) (hq : Stores sha256 text' contents' q) :
    Stores sha256 (text ++ text') (contents ++ contents') (whenZero p q) := by
  intro d hd
  refine always_whenZero (hp d hd) (fun d' hd' hs => ?_) fun r d' _ _ hne h0 => absurd h0 hne
  exact (hq d' hd').mono fun r d'' _ hs' h0 => (hs rfl).trans (hs' h0)

theorem Stores.input (call : InputCall) (failed : Nat → Int) {text : Bytes}
    {contents : List Bytes} {q : Run} (hq : Stores sha256 text contents q) :
    Stores sha256 text contents (Dedupe.whenZero (Dedupe.input call failed) q) := by
  intro d hd
  refine always_whenZero (input_always hd call failed) ?_ fun r d' _ _ hne h0 => absurd h0 hne
  rintro d' - rfl
  exact hq d' hd

theorem Stores.perform_fprintf {text' : Bytes} {contents : List Bytes} {q : Run} (text : Bytes)
    (hq : Stores sha256 text' contents q) :
    Stores sha256 (text ++ text') contents (do perform (.fprintf text); q) := by
  intro d hd
  refine .perform hd fun _ d' hstep => ?_
  cases hstep
  exact (hq _ (hd.manifest _)).mono fun r d'' _ hs h0 => (Stored.fprintf d text).trans (hs h0)

/-- After the blob is there, by a copy or from an earlier time. -/
theorem store_blob_stores (st : Stat) (content : Bytes) :
    Stores sha256 [] [content] (store_blob sha256 st content) := by
  intro d hd
  refine .perform hd fun _ d' hstep => ?_
  cases hstep
  refine .perform hd fun file_info d' hstep => ?_
  have hsame : d' = d := by cases hstep <;> rfl
  subst hsame
  split
  · rename_i hsize
    refine always_pure hd fun _ => ⟨by simp, fun _ _ h => h, fun c hc hnone => ?_,
      fun _ _ _ h => .inl h⟩
    obtain rfl := List.mem_singleton.mp hc
    cases hstep with
    | stat => simp [hnone] at hsize
    | statFailed => simp at hsize
  · refine (copyBlob_always content hd).mono fun r d'' _ hr h0 => ?_
    obtain rfl := hr h0
    have hother : ∀ name, ¬ ascii ".tmp" <:+ name → name ≠ blobName sha256 content →
        ((d'.set (tmpName (blobName sha256 content)) none).set (blobName sha256 content)
          (some content)).blobs name = d'.blobs name := by
      intro name htmp hname
      have hnt : name ≠ tmpName (blobName sha256 content) := fun he =>
        htmp (he ▸ List.suffix_append _ _)
      rw [Disk.set_blobs_of_ne _ hname, Disk.set_blobs_of_ne _ hnt]
    refine ⟨by simp [Disk.set], fun name htmp hne => ?_, fun c hc => ?_, fun name c htmp hblob => ?_⟩
    · rcases eq_or_ne name (blobName sha256 content) with rfl | hname
      · simp
      · rwa [hother name htmp hname]
    · obtain rfl := List.mem_singleton.mp hc
      simp
    · rcases eq_or_ne name (blobName sha256 content) with rfl | hname
      · obtain rfl : content = c := by simpa using hblob
        exact .inr (List.mem_singleton_self _)
      · exact .inl (by rwa [hother name htmp hname] at hblob)

theorem store_file_stores (st : Stat) (content : Bytes) :
    Stores sha256 (fileFields (blobName sha256 content) (wrap32 st.st_size)) [content]
      (store_file sha256 st content) := by
  refine Stores.input _ _ ?_
  have hprint := Stores.perform_fprintf (fileFields (blobName sha256 content) (wrap32 st.st_size))
    (.pure_zero : Stores sha256 [] [] _)
  simpa using (store_blob_stores st content).whenZero hprint

theorem store_link_stores (target : Bytes) :
    Stores sha256 (linkFields target) [] (store_link target) := by
  refine Stores.input _ _ ?_
  split
  · exact .pure_of_ne (by simp) _ _
  · simpa using Stores.perform_fprintf (linkFields target) (.pure_zero : Stores sha256 [] [] _)

variable (sha256) (excludes : List Bytes)

mutual

/-- What `store_st` writes to the manifest. -/
def nodeText (path : Bytes) : Node → Bytes
  | .file st content =>
    print_stat 102 st path ++ fileFields (blobName sha256 content) (wrap32 st.st_size)
  | .dir st entries => print_stat 100 st path ++ ([10] ++ entriesText path entries)
  | .link st target => print_stat 108 st path ++ linkFields target
  | .special _ => []

/-- What `store_dir` writes to the manifest. -/
def entriesText (d : Bytes) : List (Bytes × Node) → Bytes
  | [] => []
  | (name, node) :: entries =>
    if d ++ 47 :: name ∈ excludes then entriesText d entries
    else nodeText (d ++ 47 :: name) node ++ entriesText d entries

end

mutual

/-- The contents of the files that are stored. -/
def nodeContents (path : Bytes) : Node → List Bytes
  | .file _ content => [content]
  | .dir _ entries => entriesContents path entries
  | .link _ _ => []
  | .special _ => []

/-- The contents of the files in the entries of a directory. -/
def entriesContents (d : Bytes) : List (Bytes × Node) → List Bytes
  | [] => []
  | (name, node) :: entries =>
    if d ++ 47 :: name ∈ excludes then entriesContents d entries
    else nodeContents (d ++ 47 :: name) node ++ entriesContents d entries

end

mutual

theorem store_st_stores (path : Bytes) : ∀ node : Node,
    Stores sha256 (nodeText sha256 excludes path node) (nodeContents excludes path node)
      (store_st sha256 excludes path node)
  | .file st content => by
    rw [nodeText, nodeContents, store_st]
    exact .perform_fprintf _ (store_file_stores st content)
  | .dir st entries => by
    rw [nodeText, nodeContents, store_st]
    exact .perform_fprintf _ (.perform_fprintf _ (.input _ _ (store_entries_stores path entries)))
  | .link st target => by
    rw [nodeText, nodeContents, store_st]
    exact .perform_fprintf _ (store_link_stores target)
  | .special st => by
    rw [nodeText, nodeContents, store_st]
    exact .pure_zero

theorem store_entries_stores (d : Bytes) : ∀ entries : List (Bytes × Node),
    Stores sha256 (entriesText sha256 excludes d entries) (entriesContents excludes d entries)
      (store_entries sha256 excludes d entries)
  | [] => by
    rw [entriesText, entriesContents, store_entries]
    exact .pure_zero
  | (name, node) :: entries => by
    have hrest := store_entries_stores d entries
    have hnode := store_st_stores (d ++ 47 :: name) node
    rw [entriesText, entriesContents, store_entries]
    generalize d ++ 47 :: name = full_path at hnode ⊢
    rcases Nat.lt_or_ge full_path.length PATH_MAX with hlt | hlong
    · rw [if_neg (Nat.not_le.mpr hlt)]
      split
      · exact hrest
      · exact .input _ _ (hnode.whenZero hrest)
    · rw [if_pos hlong]
      exact .pure_of_ne (by simp) _ _

end

/-- `dedupe c` keeps the blobs addressed, and a run that succeeds has written the
lines of the whole tree behind the header. -/
theorem dedupe_c_always (tree : Node) {d : Disk} (hd : Addressed sha256 d) :
    (dedupe_c sha256 excludes tree).Always Step (Addressed sha256)
      (fun r d' => r = .done 0 → ∃ st entries, tree = .dir st entries ∧
        Stored sha256 { d with manifest := [] } d'
          (header ++ entriesText sha256 excludes (ascii ".") entries)
          (entriesContents excludes (ascii ".") entries)) d := by
  refine always_whenZero (input_always hd _ _) ?_ fun r d' _ _ hne h0 => absurd h0 hne
  rintro d' - rfl
  cases tree with
  | dir st entries =>
    refine .perform hd fun opened d' hstep => ?_
    cases hstep with
    | fopenManifest =>
      have hstores : Stores sha256 (header ++ entriesText sha256 excludes (ascii ".") entries)
          (entriesContents excludes (ascii ".") entries) (do
            perform (.fprintf header)
            perform .mkdir
            store_dir sha256 excludes (ascii ".") entries) := by
        refine .perform_fprintf _ fun d₁ hd₁ => .perform hd₁ fun _ d₂ hstep => ?_
        cases hstep
        exact Stores.input _ _ (store_entries_stores sha256 excludes _ entries) d₁ hd₁
      exact (hstores _ (hd.manifest [])).mono fun r d'' _ hs h0 => ⟨st, entries, rfl, hs h0⟩
    | fopenManifestFailed => exact always_pure hd fun h0 => by cases h0
  | file st content => exact always_pure hd fun h0 => by cases h0
  | link st target => exact always_pure hd fun h0 => by cases h0
  | special st => exact always_pure hd fun h0 => by cases h0

/-! ### Collecting -/

variable {sha256}

theorem scanManifests_always {d : Disk} (hd : Addressed sha256 d) (n : Nat) :
    ∀ used_files, (scanManifests n used_files).Always Step (Addressed sha256)
      (fun _ d' => d' = d) d := by
  induction n with
  | zero => exact fun used_files => ⟨hd, rfl⟩
  | succ n ih =>
    intro used_files
    refine .perform hd fun text d' hstep => ?_
    cases hstep
    cases text with
    | none => exact ⟨hd, rfl⟩
    | some text =>
      simp only
      split
      · exact ih _
      · exact ⟨hd, rfl⟩
      · exact ⟨hd, rfl⟩
      · exact ⟨hd, rfl⟩

theorem removeUnused_always (all_files : List Bytes) : ∀ {d : Disk}, Addressed sha256 d →
    ∀ used_files, (removeUnused used_files all_files).Always Step (Addressed sha256)
      (fun _ _ => True) d := by
  induction all_files with
  | nil => exact fun hd used_files => ⟨hd, trivial⟩
  | cons name all_files ih =>
    intro d hd used_files
    rw [removeUnused]
    split
    · exact ih hd _
    · refine .perform hd fun removed d' hstep => ?_
      cases hstep with
      | remove _ _ => exact ih (hd.set_none name) _
      | removeFailed => exact ih hd _

theorem dedupe_gc_always (n : Nat) {d : Disk} (hd : Addressed sha256 d) :
    (dedupe_gc n).Always Step (Addressed sha256) (fun _ _ => True) d := by
  refine .perform hd fun found d' hstep => ?_
  cases hstep
  cases found with
  | false => exact ⟨hd, trivial⟩
  | true =>
    refine (scanManifests_always hd n []).bind ?_
    rintro scan d' - rfl
    cases scan with
    | fault => exact ⟨hd, trivial⟩
    | spin => exact ⟨hd, trivial⟩
    | done scan =>
      cases scan with
      | out => exact ⟨hd, trivial⟩
      | used used_files failure =>
        refine .perform hd fun all_files d'' hstep => ?_
        cases hstep
        exact (removeUnused_always _ hd _).bind fun _ _ hd₁ _ => ⟨hd₁, trivial⟩

end Always

/-! ## Any sequence of runs -/

/-- What can be started: `dedupe c` on any tree with any excludes, or `dedupe gc`
with any number of manifests. -/
inductive Starts (sha256 : Bytes → Digest) : Run → Prop where
  | c (excludes : List Bytes) (tree : Node) : Starts sha256 (dedupe_c sha256 excludes tree)
  | gc (n : Nat) : Starts sha256 (dedupe_gc n)

/-- A blob directory in which a run is going on, or has been cut off, or has
ended. -/
abbrev Machine := Prog.Config Op Ans (Outcome Int) Disk

/-- One operation of the run, or the start of another one. -/
abbrev MachineStep (sha256 : Bytes → Digest) : Machine → Machine → Prop :=
  Prog.CrashStep Step id (Starts sha256)

/-- Nothing runs and nothing is stored. -/
def emptyMachine : Machine := ⟨⟨fun _ => none, []⟩, pure (.done 0)⟩

theorem starts_always {sha256 : Bytes → Digest} {p : Run} (hp : Starts sha256 p) {d : Disk}
    (hd : Addressed sha256 d) : p.Always Step (Addressed sha256) (fun _ _ => True) d := by
  cases hp with
  | c excludes tree => exact (dedupe_c_always sha256 excludes tree hd).mono fun _ _ _ _ => trivial
  | gc n => exact dedupe_gc_always n hd

/-- From an empty blob directory on, whatever runs of `dedupe c` and `dedupe gc`
are made and wherever they fail or are killed, every blob has the name of its
content. -/
theorem blobs_addressed (sha256 : Bytes → Digest) {m : Machine}
    (h : Relation.ReflTransGen (MachineStep sha256) emptyMachine m) :
    ∀ name content, m.state.blobs name = some content → ¬ ascii ".tmp" <:+ name →
      name = (hex (sha256 content).1).take 3 ++ 47 :: (hex (sha256 content).1).drop 3 := by
  have hstart : ∀ (p : Run) (d : Disk), Starts sha256 p → Addressed sha256 d →
      p.Always Step (Addressed sha256) (fun _ _ => True) (id d) := fun p d hp hd =>
    starts_always hp hd
  have hempty : emptyMachine.prog.Always Step (Addressed sha256) (fun _ _ => True)
      emptyMachine.state := ⟨fun _ _ h => absurd h (by simp [emptyMachine]), trivial⟩
  exact Prog.always_of_crashSteps hstart hempty h

/-- An empty file of root. -/
def rootStat : Stat where
  st_mode := 0o644
  st_uid := 0
  st_gid := 0
  st_atime := 0
  st_mtime := 0
  st_ctime := 0
  st_size := 0
  uid_lt := by decide
  gid_lt := by decide
  atime_lt := by decide
  mtime_lt := by decide
  ctime_lt := by decide

/-- SHA-256 on the empty string. -/
def emptySha256 : Bytes → Digest := fun _ =>
  ⟨[0xe3, 0xb0, 0xc4, 0x42, 0x98, 0xfc, 0x1c, 0x14, 0x9a, 0xfb, 0xf4, 0xc8, 0x99, 0x6f, 0xb9, 0x24,
    0x27, 0xae, 0x41, 0xe4, 0x64, 0x9b, 0x93, 0x4c, 0xa4, 0x95, 0x99, 0x1b, 0x78, 0x52, 0xb8, 0x55],
    rfl⟩

/-- A directory with one empty file. -/
def emptyFile : Node := .dir rootStat [(ascii "a", .file rootStat [])]

theorem emptyFile_runs : ∃ d, d.blobs (blobName emptySha256 []) = some [] ∧
    (dedupe_c emptySha256 [] emptyFile).Runs Step emptyMachine.state (.done 0) d := by
  apply Exists.intro
  apply And.intro
  swap
  · apply Prog.Runs.op (.input .lstat 0)
    apply Prog.Runs.op .fopenManifest
    apply Prog.Runs.op (.fprintf _)
    apply Prog.Runs.op .mkdir
    apply Prog.Runs.op (.input .opendir 0)
    apply Prog.Runs.op (.input .lstat 0)
    apply Prog.Runs.op (.fprintf _)
    apply Prog.Runs.op (.input .fopen 0)
    apply Prog.Runs.op .mkdir
    apply Prog.Runs.op (.statFailed _)
    apply Prog.Runs.op (.input .open 0)
    apply Prog.Runs.op (.openTrunc _)
    apply Prog.Runs.op (.rename _ _ (Disk.set_blobs ..))
    apply Prog.Runs.op (.fprintf _)
    exact ⟨rfl, rfl⟩
  · simp

/-- The blob of the empty file after a run. -/
theorem blobs_addressed_empty_file :
    ∃ m : Machine, Relation.ReflTransGen (MachineStep emptySha256) emptyMachine m ∧
      m.state.blobs (blobName emptySha256 []) = some [] ∧ blobName emptySha256 [] =
        ascii "e3b/0c44298fc1c149afbf4c8996fb92427ae41e4649b934ca495991b7852b855" := by
  obtain ⟨d, hblob, hruns⟩ := emptyFile_runs
  have hsteps : Relation.ReflTransGen (MachineStep emptySha256) emptyMachine ⟨d, .ret (.done 0)⟩ :=
    .head (.start (.c [] emptyFile)) (Prog.crashSteps_of_runs hruns)
  refine ⟨_, hsteps, hblob, ?_⟩
  have hname := blobs_addressed emptySha256 hsteps _ _ hblob (blobName_not_tmp emptySha256 [])
  rw [hname]
  decide

end BootableRecovery.Dedupe
