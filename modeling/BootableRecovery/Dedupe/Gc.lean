import BootableRecovery.Lib.SortedDiff
import BootableRecovery.Dedupe.Extract

/-!
# `dedupe.c`: collecting garbage

`dedupe gc` on the files below a blob directory and on the manifests of its
arguments. The paths are whole, as they are put into the arrays, and a path that
does not fit into its buffer is a fault. A directory or a file that `opendir` or
`lstat` fails on is passed over by the source, so the tree is what these calls
show; the removals succeed.

Main results:
* `unused_eq`: the walk through the two arrays finds the files that are not used,
  whatever `cmp` was before its first assignment.
* `gc_failure_iff`: a run that fails has removed nothing if and only if no
  manifest of a newer version comes up while there is something to remove.
-/

namespace BootableRecovery.Dedupe

/-! ## The code -/

/-- `sprintf(blob, "%s/%s", d, name)`. -/
def sprintfBlob (d name : Bytes) : Outcome Bytes :=
  if (d ++ 47 :: name).length < PATH_MAX then .done (d ++ 47 :: name) else .fault

/-- `S_ISDIR`. -/
def Node.isDir : Node → Bool
  | .dir _ _ => true
  | _ => false

mutual

/-- `recursive_list_dir`: what is added to the array. -/
def recursive_list_dir (d : Bytes) : Node → Outcome (List Bytes)
  | .dir _ entries => listEntries d entries
  | _ => .done []

/-- The loop over the entries of the directory `d`. -/
def listEntries (d : Bytes) : List (Bytes × Node) → Outcome (List Bytes)
  | [] => .done []
  | (name, node) :: entries => do
    let blob ← sprintfBlob d name
    let found ← (if node.isDir then recursive_list_dir blob node else .done [blob])
    let rest ← listEntries d entries
    .done (found ++ rest)

end

/-- The paths of the blobs with these names. -/
def blobPaths (blob_dir : Bytes) : List Bytes → Outcome (List Bytes)
  | [] => .done []
  | name :: names => do
    let blob ← sprintfBlob blob_dir name
    let rest ← blobPaths blob_dir names
    .done (blob :: rest)

/-- What a manifest adds to `used_files`; `none` when its version is too new. -/
def manifestBlobs (blob_dir text : Bytes) : Outcome (Option (List Bytes)) := do
  match ← gcManifest text with
  | none => .done none
  | some names => do
    let blobs ← blobPaths blob_dir names
    .done (some blobs)

/-- The loop over the manifests; `none` is one that cannot be opened. -/
def gcManifests (blob_dir : Bytes) : List (Option Bytes) → List Bytes → Outcome Scan
  | [], used_files => .done (.used used_files false)
  | none :: _, _ => .done .out
  | some text :: manifests, used_files => do
    match ← manifestBlobs blob_dir text with
    | none => .done (.used used_files true)
    | some blobs => gcManifests blob_dir manifests (used_files ++ blobs)

/-- The sign of `strcmp`. -/
def strcmp (s t : Bytes) : Int := if s < t then -1 else if s = t then 0 else 1

/-- The inner loop for a file: `cmp`, and `used_files` from `j` on. -/
def nextUsed (name : Bytes) : Int → List Bytes → Int × List Bytes
  | cmp, [] => (cmp, [])
  | _, used :: used_files =>
    if strcmp used name < 0 then nextUsed name (strcmp used name) used_files
    else (strcmp used name, used :: used_files)

/-- The search for unused files, from `j` and `i` on. Each turn declares `cmp`
without a value; `stale` is what it has then. -/
def unused (stale : Bytes → Int) : List Bytes → List Bytes → List Bytes
  | _, [] => []
  | used_files, name :: all_files =>
    let (cmp, used_files) := nextUsed name (stale name) used_files
    if 0 < cmp ∨ used_files = [] then name :: unused stale used_files all_files
    else unused stale used_files all_files

/-- `dedupe gc`: its status and the files it removes. Without a node there is
nothing at the path of the blob directory. -/
def gc (stale : Bytes → Int) (blob_dir : Bytes) (blobs : Option Node)
    (manifests : List (Option Bytes)) : Outcome (Int × List Bytes) :=
  match blobs with
  | none => .done (1, [])
  | some node => do
    match ← gcManifests blob_dir manifests [] with
    | .out => .done (1, [])
    | .used used_files failure => do
      let all_files ← recursive_list_dir blob_dir node
      .done (if failure then 1 else 0, unused stale (sorted used_files) (sorted all_files))

/-! ## The search for unused files -/

theorem strcmp_neg_iff (s t : Bytes) : strcmp s t < 0 ↔ s < t := by
  unfold strcmp
  split
  · simpa
  · split <;> simpa

theorem strcmp_pos_iff {s t : Bytes} (h : ¬ s < t) : 0 < strcmp s t ↔ s ≠ t := by
  unfold strcmp
  rw [if_neg h]
  split <;> simpa

/-- The inner loop passes over the smaller paths, and `cmp` belongs to the path
it stops at. -/
theorem nextUsed_spec (name : Bytes) (cmp : Int) (used_files : List Bytes) :
    (nextUsed name cmp used_files).2 = used_files.dropWhile (fun used => decide (used < name)) ∧
      ∀ used ∈ (nextUsed name cmp used_files).2.head?,
        ¬ used < name ∧ (nextUsed name cmp used_files).1 = strcmp used name := by
  induction used_files generalizing cmp with
  | nil => simp [nextUsed]
  | cons used used_files ih =>
    by_cases hlt : used < name
    · rw [nextUsed, if_pos ((strcmp_neg_iff used name).mpr hlt),
        List.dropWhile_cons_of_pos (by simpa using hlt)]
      exact ih _
    · rw [nextUsed, if_neg fun h => hlt ((strcmp_neg_iff used name).mp h),
        List.dropWhile_cons_of_neg (by simpa using hlt)]
      refine ⟨rfl, fun used' h => ?_⟩
      obtain rfl : used = used' := by simpa using h
      exact ⟨hlt, rfl⟩

/-- A file is removed when the inner loop does not stop at its path. -/
theorem unused_cond_iff (name : Bytes) (cmp : Int) (used_files : List Bytes) :
    (0 < (nextUsed name cmp used_files).1 ∨ (nextUsed name cmp used_files).2 = []) ↔
      (used_files.dropWhile fun used => decide (used < name)).head? ≠ some name := by
  obtain ⟨hrest, hcmp⟩ := nextUsed_spec name cmp used_files
  rw [← hrest]
  generalize nextUsed name cmp used_files = next at *
  obtain ⟨cmp, rest⟩ := next
  cases rest with
  | nil => simp
  | cons used rest =>
    obtain ⟨hge, heq⟩ := hcmp used rfl
    simp only at heq ⊢
    rw [heq, strcmp_pos_iff hge]
    simp

/-- What `cmp` was before it is assigned has no effect. -/
theorem unused_eq_sortedDiff (stale : Bytes → Int) (used_files all_files : List Bytes) :
    unused stale used_files all_files = sortedDiff used_files all_files := by
  induction all_files generalizing used_files with
  | nil => rfl
  | cons name all_files ih =>
    have hcond := unused_cond_iff name (stale name) used_files
    have hrest := (nextUsed_spec name (stale name) used_files).1
    rw [unused, sortedDiff]
    simp only
    rw [ih, hrest]
    rw [hrest] at hcond
    by_cases hhead : (used_files.dropWhile fun used => decide (used < name)).head? = some name
    · rw [if_pos hhead, if_neg fun h => hcond.mp h hhead]
    · rw [if_neg hhead, if_pos (hcond.mpr hhead)]

theorem pairwise_sorted (names : List Bytes) : (sorted names).Pairwise (· ≤ ·) := by
  have htrans : ∀ a b c : Bytes, decide (a ≤ b) = true → decide (b ≤ c) = true →
      decide (a ≤ c) = true := fun a b c hab hbc =>
    decide_eq_true (Std.le_trans (of_decide_eq_true hab) (of_decide_eq_true hbc))
  have htotal : ∀ a b : Bytes, (decide (a ≤ b) || decide (b ≤ a)) = true := fun a b => by
    simpa using Std.le_total
  exact (List.pairwise_mergeSort htrans htotal names).imp of_decide_eq_true

@[simp] theorem mem_sorted {names : List Bytes} {name : Bytes} :
    name ∈ sorted names ↔ name ∈ names :=
  List.mem_mergeSort

/-- The search finds the files whose paths are not used. -/
theorem unused_eq (stale : Bytes → Int) (used_files all_files : List Bytes) :
    unused stale (sorted used_files) (sorted all_files) =
      (sorted all_files).filter fun name => decide (name ∉ used_files) := by
  rw [unused_eq_sortedDiff, sortedDiff_eq_filter (pairwise_sorted _) (pairwise_sorted _)]
  simp only [mem_sorted]

/-! ## The files below the blob directory -/

mutual

/-- Everything below a directory at a path, with its own path. -/
def below (d : Bytes) : Node → List (Bytes × Node)
  | .dir _ entries => entriesBelow d entries
  | _ => []

def entriesBelow (d : Bytes) : List (Bytes × Node) → List (Bytes × Node)
  | [] => []
  | (name, node) :: entries =>
    (d ++ 47 :: name, node) :: (below (d ++ 47 :: name) node ++ entriesBelow d entries)

end

/-- The paths of what is not a directory. -/
def filesOf (nodes : List (Bytes × Node)) : List Bytes :=
  (nodes.filter fun x => !x.2.isDir).map Prod.fst

theorem filesOf_append (nodes nodes' : List (Bytes × Node)) :
    filesOf (nodes ++ nodes') = filesOf nodes ++ filesOf nodes' := by
  simp [filesOf]

/-- A file stands for itself, a directory for what is below it. -/
theorem filesOf_cons (path : Bytes) (node : Node) (nodes : List (Bytes × Node)) :
    filesOf ((path, node) :: nodes) =
      (if node.isDir then [] else [path]) ++ filesOf nodes := by
  cases hdir : node.isDir with
  | true => simp [filesOf, hdir]
  | false => simp [filesOf, hdir]

theorem below_of_not_dir {d : Bytes} {node : Node} (h : node.isDir = false) : below d node = [] := by
  cases node with
  | dir st entries => exact absurd h (by simp [Node.isDir])
  | file st content => rw [below]; exact fun _ _ h => by cases h
  | link st target => rw [below]; exact fun _ _ h => by cases h
  | special st => rw [below]; exact fun _ _ h => by cases h

/-- What the loop adds for one entry. -/
theorem found_eq {blob : Bytes} {node : Node} (h : recursive_list_dir blob node =
      if ∀ x ∈ below blob node, x.1.length < PATH_MAX then .done (filesOf (below blob node))
      else .fault) :
    (if node.isDir then recursive_list_dir blob node else .done [blob]) =
      if ∀ x ∈ below blob node, x.1.length < PATH_MAX then
        .done ((if node.isDir then [] else [blob]) ++ filesOf (below blob node))
      else .fault := by
  cases hdir : node.isDir with
  | true => simpa using h
  | false => simp [below_of_not_dir hdir, filesOf]

mutual

/-- The files are listed when all the paths below the directory fit, also those of
directories. -/
theorem recursive_list_dir_eq (d : Bytes) : ∀ node : Node, recursive_list_dir d node =
    if ∀ x ∈ below d node, x.1.length < PATH_MAX then .done (filesOf (below d node)) else .fault
  | .dir st entries => by
    rw [recursive_list_dir, below]
    exact listEntries_eq d entries
  | .file st content => by simp [recursive_list_dir, below, filesOf]
  | .link st target => by simp [recursive_list_dir, below, filesOf]
  | .special st => by simp [recursive_list_dir, below, filesOf]

theorem listEntries_eq (d : Bytes) : ∀ entries : List (Bytes × Node), listEntries d entries =
    if ∀ x ∈ entriesBelow d entries, x.1.length < PATH_MAX then
      .done (filesOf (entriesBelow d entries)) else .fault
  | [] => by simp [listEntries, entriesBelow, filesOf]
  | (name, node) :: entries => by
    have hnode := found_eq (recursive_list_dir_eq (d ++ 47 :: name) node)
    have hrest := listEntries_eq d entries
    rw [listEntries, entriesBelow, hrest]
    unfold sprintfBlob
    simp only [List.forall_mem_cons, List.forall_mem_append]
    generalize d ++ 47 :: name = blob at *
    by_cases hblob : blob.length < PATH_MAX
    · rw [if_pos hblob, Outcome.done_bind, hnode]
      by_cases hfit : ∀ x ∈ below blob node, x.1.length < PATH_MAX
      · by_cases hfits : ∀ x ∈ entriesBelow d entries, x.1.length < PATH_MAX
        · rw [if_pos hfit, if_pos hfits, Outcome.done_bind, Outcome.done_bind, filesOf_cons,
            filesOf_append, List.append_assoc]
          exact (if_pos ⟨hblob, hfit, hfits⟩).symm
        · rw [if_pos hfit, if_neg hfits, Outcome.done_bind, Outcome.fault_bind]
          exact (if_neg fun h => hfits h.2.2).symm
      · rw [if_neg hfit, Outcome.fault_bind]
        exact (if_neg fun h => hfit h.2.1).symm
    · rw [if_neg hblob, Outcome.fault_bind, if_neg fun h => hblob h.1]

end

theorem recursive_list_dir_eq_done {d : Bytes} {node : Node} {files : List Bytes} :
    recursive_list_dir d node = .done files ↔
      (∀ x ∈ below d node, x.1.length < PATH_MAX) ∧ files = filesOf (below d node) := by
  rw [recursive_list_dir_eq]
  split
  · rename_i hfit
    rw [Outcome.done.injEq]
    exact ⟨fun h => ⟨hfit, h.symm⟩, fun h => h.2.symm⟩
  · rename_i hfit
    exact ⟨nofun, fun h => absurd h.1 hfit⟩

/-! ## The manifests -/

theorem blobPaths_eq_done {blob_dir : Bytes} {names blobs : List Bytes} :
    blobPaths blob_dir names = .done blobs ↔
      (∀ name ∈ names, (blob_dir ++ 47 :: name).length < PATH_MAX) ∧
        blobs = names.map fun name => blob_dir ++ 47 :: name := by
  induction names generalizing blobs with
  | nil => simp [blobPaths, eq_comm]
  | cons name names ih =>
    rw [blobPaths, sprintfBlob]
    split
    · rename_i hfit
      rw [Outcome.done_bind, Outcome.bind_eq_done]
      constructor
      · rintro ⟨rest, hrest, hblobs⟩
        obtain ⟨hall, rfl⟩ := ih.mp hrest
        exact ⟨List.forall_mem_cons.mpr ⟨hfit, hall⟩, (Outcome.done.inj hblobs).symm⟩
      · rintro ⟨hall, rfl⟩
        exact ⟨_, ih.mpr ⟨(List.forall_mem_cons.mp hall).2, rfl⟩, rfl⟩
    · rename_i hlong
      rw [Outcome.fault_bind]
      exact ⟨nofun, fun h => absurd (List.forall_mem_cons.mp h.1).1 hlong⟩

/-- These manifests name these blobs. -/
def Names (blob_dir : Bytes) (texts : List Bytes) (blobs : List (List Bytes)) : Prop :=
  List.Forall₂ (fun text bs => manifestBlobs blob_dir text = .done (some bs)) texts blobs

/-- The manifests that can be read come first. -/
theorem gcManifests_append {blob_dir : Bytes} {texts : List Bytes} {blobs : List (List Bytes)}
    (h : Names blob_dir texts blobs) (manifests : List (Option Bytes)) (used_files : List Bytes) :
    gcManifests blob_dir (texts.map some ++ manifests) used_files =
      gcManifests blob_dir manifests (used_files ++ blobs.flatten) := by
  induction h generalizing used_files with
  | nil => simp
  | cons hread hrest ih =>
    rw [List.map_cons, List.cons_append, gcManifests, hread, Outcome.done_bind]
    simp only
    rw [ih, List.flatten_cons, List.append_assoc]

/-- When the loop does not leave with `goto out`, it has read all the manifests, or
it has stopped at one of a newer version. -/
theorem gcManifests_used {blob_dir : Bytes} {manifests : List (Option Bytes)}
    {used_files names : List Bytes} {failure : Bool}
    (h : gcManifests blob_dir manifests used_files = .done (.used names failure)) :
    ∃ texts blobs, Names blob_dir texts blobs ∧ names = used_files ++ blobs.flatten ∧
      (failure = false ∧ manifests = texts.map some ∨
        failure = true ∧ ∃ text after, manifests = texts.map some ++ some text :: after ∧
          manifestBlobs blob_dir text = .done none) := by
  induction manifests generalizing used_files with
  | nil =>
    rw [gcManifests] at h
    obtain ⟨rfl, rfl⟩ : used_files = names ∧ false = failure := by simpa using h
    exact ⟨[], [], .nil, by simp, .inl ⟨rfl, rfl⟩⟩
  | cons manifest manifests ih =>
    cases manifest with
    | none => exact absurd h (by simp [gcManifests])
    | some text =>
      rw [gcManifests, Outcome.bind_eq_done] at h
      obtain ⟨read, hread, h⟩ := h
      cases read with
      | none =>
        obtain ⟨rfl, rfl⟩ : used_files = names ∧ true = failure := by simpa using h
        exact ⟨[], [], .nil, by simp, .inr ⟨rfl, text, manifests, rfl, hread⟩⟩
      | some bs =>
        obtain ⟨texts, blobs, hnames, rfl, hend⟩ := ih h
        refine ⟨text :: texts, bs :: blobs, .cons hread hnames, by simp, ?_⟩
        rcases hend with ⟨hfailure, rfl⟩ | ⟨hfailure, text', after, rfl, hnewer⟩
        · exact .inl ⟨hfailure, rfl⟩
        · exact .inr ⟨hfailure, text', after, rfl, hnewer⟩

/-! ## A run that fails -/

/-- Whenever a manifest of a newer version is reached, the manifests before it name
every file below the blob directory. -/
def Covered (blob_dir : Bytes) (node : Node) (manifests : List (Option Bytes)) : Prop :=
  ∀ texts blobs text after, manifests = texts.map some ++ some text :: after →
    Names blob_dir texts blobs → manifestBlobs blob_dir text = .done none →
    (∀ x ∈ below blob_dir node, x.1.length < PATH_MAX) →
    ∀ path ∈ filesOf (below blob_dir node), path ∈ blobs.flatten

/-- `dedupe gc` that fails has removed nothing if and only if the manifests of a
newer version that are reached come after all the blobs have been named. -/
theorem gc_failure_iff (stale : Bytes → Int) (blob_dir : Bytes) (node : Node)
    (manifests : List (Option Bytes)) :
    (∀ ret removed, gc stale blob_dir (some node) manifests = .done (ret, removed) → ret ≠ 0 →
      removed = []) ↔ Covered blob_dir node manifests := by
  constructor
  · rintro h texts blobs text after rfl hnames hnewer hfit path hpath
    have hscan : gcManifests blob_dir (texts.map some ++ some text :: after) [] =
        .done (.used blobs.flatten true) := by
      rw [gcManifests_append hnames, gcManifests, hnewer]
      simp
    have hlist := recursive_list_dir_eq_done.mpr ⟨hfit, rfl⟩
    have hgc : gc stale blob_dir (some node) (texts.map some ++ some text :: after) =
        .done (1, unused stale (sorted blobs.flatten) (sorted (filesOf (below blob_dir node)))) := by
      simp [gc, hscan, hlist]
    have hnil := h _ _ hgc (by decide)
    rw [unused_eq, List.filter_eq_nil_iff] at hnil
    simpa using hnil path (mem_sorted.mpr hpath)
  · intro hcovered ret removed h hret
    simp only [gc] at h
    obtain ⟨scan, hscan, h⟩ := Outcome.bind_eq_done.mp h
    cases scan with
    | out =>
      obtain ⟨-, rfl⟩ : (1 : Int) = ret ∧ [] = removed := by simpa using h
      rfl
    | used names failure =>
      obtain ⟨files, hlist, h⟩ := Outcome.bind_eq_done.mp h
      obtain ⟨hstatus, rfl⟩ := Prod.mk.inj (Outcome.done.inj h)
      obtain ⟨hfit, rfl⟩ := recursive_list_dir_eq_done.mp hlist
      obtain ⟨texts, blobs, hnames, rfl, ⟨rfl, -⟩ | ⟨-, text, after, rfl, hnewer⟩⟩ :=
        gcManifests_used hscan
      · exact absurd hstatus.symm (by simpa using hret)
      · have hall := hcovered texts blobs text after rfl hnames hnewer hfit
        rw [unused_eq, List.filter_eq_nil_iff]
        intro path hpath
        simpa using hall path (mem_sorted.mp hpath)

/-- A directory with one blob, `abc/d`. -/
def oneBlob : Node :=
  .dir rootStat [(ascii "abc", .dir rootStat [(ascii "d", .file rootStat [])])]

/-- The manifest that names the blob stands behind one of version 3: the run fails,
and the blob is gone. -/
theorem gc_failure_newer : gc (fun _ => 0) (ascii "/b") (some oneBlob)
      [some (ascii "dedupe\t3\n"), some (ascii "f\t644\t0\t0\t./a\tabc/d\t0\t\n")] =
        .done (1, [ascii "/b/abc/d"]) ∧
    ¬ ∀ ret removed, gc (fun _ => 0) (ascii "/b") (some oneBlob)
      [some (ascii "dedupe\t3\n"), some (ascii "f\t644\t0\t0\t./a\tabc/d\t0\t\n")] =
        .done (ret, removed) → ret ≠ 0 → removed = [] := by
  have hscan : manifestBlobs (ascii "/b") (ascii "dedupe\t3\n") = .done none := by decide
  have hlist : recursive_list_dir (ascii "/b") oneBlob = .done [ascii "/b/abc/d"] := by
    decide
  have hsorted : sorted [ascii "/b/abc/d"] = [ascii "/b/abc/d"] := List.mergeSort_singleton _
  have hgc : gc (fun _ => 0) (ascii "/b") (some oneBlob)
      [some (ascii "dedupe\t3\n"), some (ascii "f\t644\t0\t0\t./a\tabc/d\t0\t\n")] =
        .done (1, [ascii "/b/abc/d"]) := by
    simp [gc, gcManifests, hscan, hlist, unused_eq, hsorted]
  exact ⟨hgc, fun h => absurd (h _ _ hgc (by decide)) (by simp)⟩

end BootableRecovery.Dedupe
