import BootableRecovery.Applypatch.Applypatch

/-!
# What the functions of `applypatch.c` change

One lemma for each function that works on storage: what holds while it runs, that is,
which files and partitions it leaves alone, and what its value says.

* `loadFileContents_always`: loading changes nothing, and what is loaded is what the
  file or partition has (`Loads`).
* `makeFreeSpaceOnCache_always`: only files on `/cache` other than the copy are deleted.
* `saveFileContents_always`, `decode_always`, `writeToPartition_always`.
-/

namespace BootableRecovery.Applypatch

/-! ## Storage up to one file -/

/-- Only the file `name` can differ. -/
structure SameBut (name : Bytes) (w w' : Storage) : Prop where
  parts : w'.parts = w.parts
  files : ∀ n, n ≠ name → w'.files n = w.files n

theorem SameBut.refl (name : Bytes) (w : Storage) : SameBut name w w := ⟨rfl, fun _ _ => rfl⟩

theorem SameBut.trans {name : Bytes} {w w₁ w₂ : Storage} (h : SameBut name w w₁)
    (h' : SameBut name w₁ w₂) : SameBut name w w₂ :=
  ⟨h'.parts.trans h.parts, fun n hn => (h'.files n hn).trans (h.files n hn)⟩

section

variable {w : Storage} {name : Bytes} {content : Option Bytes}

@[simp] theorem setFile_parts : (w.setFile name content).parts = w.parts := rfl

@[simp] theorem setFile_self : (w.setFile name content).files name = content :=
  Function.update_self ..

theorem setFile_of_ne {n : Bytes} (h : n ≠ name) :
    (w.setFile name content).files n = w.files n :=
  Function.update_of_ne h _ _

theorem SameBut.setFile (w : Storage) (name : Bytes) (content : Option Bytes) :
    SameBut name w (w.setFile name content) :=
  ⟨rfl, fun _ hn => setFile_of_ne hn⟩

@[simp] theorem setPart_files {type : PartitionType} {partition data : Bytes} :
    (w.setPart type partition data).files = w.files := rfl

@[simp] theorem setPart_self {type : PartitionType} {partition data : Bytes} :
    (w.setPart type partition data).parts type partition = data := by
  simp [Storage.setPart]

end

section

variable {α : Type} {I : Storage → Prop} {Q : α → Storage → Prop}
  {step : Storage → (o : Op) → Ans o → Storage → Prop}

/-- Nothing happens behind a crash. -/
theorem crash_always {w : Storage} (h : I w) : (crash : Run α).Always step I Q w :=
  ⟨h, fun a => a.elim⟩

end

/-! ## Loading -/

section Load

variable (sha : Bytes → Bytes)

/-- The contents that the pairs, in this order, find at the start of a partition. -/
def firstMatch (content : Bytes) : List (Nat × Option Bytes) → Option Bytes
  | [] => none
  | (size, sha1sum) :: pairs =>
    if content.length < size then none
    else
      match testPair sha (content.take size) sha1sum with
      | .matched => some (content.take size)
      | .next => firstMatch content pairs
      | _ => none

/-- What a partition can hold for its name: the order of pairs with equal sizes is not
determined. -/
def PartitionContents (filename content data : Bytes) : Prop :=
  ∃ pairs sorted,
    partitionPairs (nameTokens filename) ((filename.count 58 - 1) / 2) 0 = .done (some pairs) ∧
      sorted.Perm pairs ∧ (sorted.Pairwise fun a b => a.1 ≤ b.1) ∧
      firstMatch sha content sorted = some data

/-- Loading `filename` with retouch masking can give the contents `data`. -/
def Loads (w : Storage) (filename data : Bytes) : Prop :=
  if isPartition filename then
    ∃ partition, (nameTokens filename)[1]? = some partition ∧
      PartitionContents sha filename (w.parts (partitionType filename) partition) data
  else
    ∃ content, w.files filename = some content ∧
      Retouch.LoadFileContents sha content true = some (data, sha data)

/-- `file` holds the contents `data`. -/
structure Holds (file : FileContents) (data : Bytes) : Prop where
  data_eq : file.data = some data
  size_eq : file.size = data.length
  sha1_eq : file.sha1 = sha data

/-- What a call of `loadFileContents` comes to. -/
def LoadResult (w : Storage) (filename : Bytes) (r : Int × FileContents) : Prop :=
  (r.1 = 0 ∧ ∃ data, Holds sha r.2 data ∧ Loads sha w filename data) ∨
    (r.1 = -1 ∧ r.2.data = none)

variable {sha} {w : Storage}

/-- Reading up to `size` bytes of a partition, of which `n` were read. -/
theorem readMore_always {type : PartitionType} {partition content : Bytes}
    (hcontent : w.parts type partition = content) {n size : Nat} (hn : n ≤ content.length)
    (hsize : n ≤ size) :
    (readMore type partition n (size - n)).Always Step (· = w)
      (fun read _ => ∀ p, read = some p →
        size ≤ content.length ∧ content.take n ++ p = content.take size) w := by
  unfold readMore
  by_cases hmore : 0 < size - n
  · rw [if_pos hmore]
    refine ⟨rfl, fun read w' hstep => ?_⟩
    cases hstep with
    | readPartition_ok hin =>
      rw [hcontent] at hin ⊢
      refine ⟨rfl, fun p hp => ?_⟩
      obtain rfl := Option.some.inj hp
      refine ⟨by omega, ?_⟩
      rw [take_append_slice]
      congr 1
      omega
    | readPartition_short => exact ⟨rfl, fun p hp => by cases hp⟩
  · rw [if_neg hmore]
    refine ⟨rfl, fun p hp => ?_⟩
    obtain rfl := Option.some.inj hp
    have heq : size = n := by omega
    exact ⟨by omega, by rw [heq, List.append_nil]⟩

/-- The loop over the pairs, with the first `n` bytes of the partition read. -/
theorem partitionLoop_always {type : PartitionType} {partition content : Bytes}
    (hcontent : w.parts type partition = content) {pairs : List (Nat × Option Bytes)} {n : Nat}
    {file : FileContents} (hn : n ≤ content.length) (hle : ∀ p ∈ pairs, n ≤ p.1)
    (hsorted : pairs.Pairwise fun a b => a.1 ≤ b.1) (hfile : file.data = none) :
    (partitionLoop sha type partition pairs (content.take n) file).Always Step (· = w)
      (fun r _ => (r.1 = 0 ∧ ∃ data, Holds sha r.2 data ∧
        firstMatch sha content pairs = some data) ∨ (r.1 = -1 ∧ r.2.data = none)) w := by
  induction pairs generalizing n file with
  | nil => exact ⟨rfl, .inr ⟨rfl, hfile⟩⟩
  | cons pair pairs ih =>
    obtain ⟨size, sha1sum⟩ := pair
    obtain ⟨hhead, htail⟩ := List.pairwise_cons.mp hsorted
    have hlen : (content.take n).length = n := List.length_take_of_le hn
    rw [partitionLoop, hlen]
    refine (readMore_always hcontent hn (hle _ List.mem_cons_self)).bind fun read w' hw hread => ?_
    subst hw
    cases read with
    | none => exact ⟨rfl, .inr ⟨rfl, hfile⟩⟩
    | some p =>
      obtain ⟨hsize, happ⟩ := hread p rfl
      simp only [happ]
      rw [firstMatch, if_neg (by omega)]
      cases htest : testPair sha (content.take size) sha1sum with
      | matched => exact ⟨rfl, .inl ⟨rfl, _, ⟨rfl, rfl, rfl⟩, rfl⟩⟩
      | next => exact ih hsize (fun q hq => hhead q hq) htail hfile
      | bad => exact ⟨rfl, .inr ⟨rfl, hfile⟩⟩
      | crash => exact crash_always rfl

theorem compareSizeIndices_le_zero {size_array : List Nat} {aa bb : Nat} :
    compareSizeIndices size_array aa bb ≤ 0 ↔ size_array.getD aa 0 ≤ size_array.getD bb 0 := by
  unfold compareSizeIndices
  split_ifs with hlt hgt
  · exact iff_of_true (by decide) (Nat.le_of_lt hlt)
  · exact iff_of_false (by decide) (Nat.not_le_of_lt hgt)
  · exact iff_of_true (by decide) (Nat.le_of_not_lt hgt)

/-- Picking each index once gives a permutation. -/
theorem filterMap_getElem?_perm {β : Type} {l : List β} {index : List Nat}
    (h : index.Perm (List.range l.length)) : (index.filterMap (l[·]?)).Perm l := by
  have hget : (List.range l.length).map (l[·]?) = l.map some := by
    refine List.ext_getElem (by simp) fun i hi _ => ?_
    simp only [List.length_map, List.length_range] at hi
    simp [hi]
  have hall : (List.range l.length).filterMap (l[·]?) = l :=
    calc (List.range l.length).filterMap (l[·]?)
        = ((List.range l.length).map (l[·]?)).filterMap id := by
          rw [List.filterMap_map]
          rfl
      _ = l := by
          rw [hget, List.filterMap_map]
          exact List.filterMap_some
  have hperm := h.filterMap (l[·]?)
  rwa [hall] at hperm

/-- The sorted indexes put the pairs by increasing size. -/
theorem inOrder_sorted {pairs : List (Nat × Option Bytes)} {index : List Nat}
    (h : index.Pairwise fun aa bb => compareSizeIndices (pairs.map (·.1)) aa bb ≤ 0) :
    (inOrder pairs index).Pairwise fun a b => a.1 ≤ b.1 := by
  refine h.filterMap _ fun aa bb hle a ha b hb => ?_
  rw [compareSizeIndices_le_zero] at hle
  simpa [List.getD_eq_getElem?_getD, Option.mem_def.mp ha, Option.mem_def.mp hb] using hle

theorem loadPartitionContents_always {filename : Bytes} {file : FileContents}
    (hpart : isPartition filename = true) (hfile : file.data = none) :
    (loadPartitionContents sha filename file).Always Step (· = w)
      (fun r _ => LoadResult sha w filename r) w := by
  unfold loadPartitionContents
  cases htoken : (nameTokens filename)[1]? with
  | none => exact crash_always rfl
  | some partition =>
    dsimp only
    cases hpairs : partitionPairs (nameTokens filename) ((filename.count 58 - 1) / 2) 0 with
    | fault => exact crash_always rfl
    | spin => exact crash_always rfl
    | done pairs =>
      cases pairs with
      | none => exact ⟨rfl, .inr ⟨rfl, hfile⟩⟩
      | some pairs =>
        refine ⟨rfl, fun index w' hstep => ?_⟩
        cases hstep with
        | qsort hperm hsorted =>
        rw [List.length_map] at hperm
        have hpairs_sorted := inOrder_sorted hsorted
        refine ⟨rfl, fun found w' hstep => ?_⟩
        cases hstep
        cases found with
        | false => exact ⟨rfl, .inr ⟨rfl, hfile⟩⟩
        | true =>
          show (readPairs sha (partitionType filename) partition (inOrder pairs index)
            file).Always _ _ _ _
          unfold readPairs
          split_ifs with hnil
          · exact crash_always rfl
          have hloop := @partitionLoop_always sha w (partitionType filename) partition _ rfl
            (inOrder pairs index) 0 { file with size := 0 } (Nat.zero_le _)
            (fun _ _ => Nat.zero_le _) hpairs_sorted hfile
          rw [List.take_zero] at hloop
          refine hloop.mono fun r w' _ h => h.imp_left ?_
          rintro ⟨hret, data, hholds, hfirst⟩
          refine ⟨hret, data, hholds, ?_⟩
          rw [Loads, if_pos hpart]
          exact ⟨partition, htoken, pairs, _, hpairs, filterMap_getElem?_perm hperm, hpairs_sorted, hfirst⟩

/-- Loading changes nothing. It succeeds with contents that are there, or leaves no data. -/
theorem loadFileContents_always {filename : Bytes} {file : FileContents} :
    (loadFileContents sha filename file true).Always Step (· = w)
      (fun r _ => LoadResult sha w filename r) w := by
  unfold loadFileContents
  by_cases hpart : isPartition filename = true
  · simp only [hpart, if_true]
    exact loadPartitionContents_always hpart rfl
  · simp only [hpart]
    refine ⟨rfl, fun read w' hstep => ?_⟩
    cases hstep with
    | readFile_statFails => exact ⟨rfl, .inr ⟨rfl, rfl⟩⟩
    | readFile_readFails => exact ⟨rfl, .inr ⟨rfl, rfl⟩⟩
    | @readFile_ok _ content st hcontent =>
      refine ⟨rfl, ?_⟩
      show LoadResult sha w filename (loadedFile sha true { file with data := none } (.ok content st))
      cases hload : Retouch.LoadFileContents sha content true with
      | none =>
        simp only [loadedFile, hload]
        exact .inr ⟨rfl, rfl⟩
      | some r =>
        obtain ⟨data, sha1⟩ := r
        obtain rfl := Retouch.loadFileContents_sha hload
        simp only [loadedFile, hload]
        refine .inl ⟨rfl, data, ⟨rfl, rfl, rfl⟩, ?_⟩
        rw [Loads, if_neg hpart]
        exact ⟨content, hcontent, hload⟩

end Load

/-! ## Making room on the cache -/

/-- A file that can be deleted for more room. -/
def Expendable (name : Bytes) : Prop := InDirs name ∧ name ≠ CACHE_TEMP_SOURCE

/-- Only expendable files can differ. -/
structure CacheOnly (w w' : Storage) : Prop where
  parts : w'.parts = w.parts
  files : ∀ n, ¬Expendable n → w'.files n = w.files n

section Cache

variable {w : Storage}

theorem CacheOnly.refl (w : Storage) : CacheOnly w w := ⟨rfl, fun _ _ => rfl⟩

theorem CacheOnly.unlink {w' : Storage} (h : CacheOnly w w') {name : Bytes}
    (hname : Expendable name) : CacheOnly w (w'.setFile name none) := by
  refine ⟨h.parts, fun n hn => ?_⟩
  have hne : n ≠ name := fun heq => hn (heq ▸ hname)
  rw [setFile_of_ne hne, h.files n hn]

theorem regularFiles_always {dir : Bytes} (hdir : dir ∈ dirs) {names : List Bytes}
    (hnames : ∀ d_name ∈ names, 47 ∉ d_name) :
    (regularFiles dir names).Always Step (· = w) (fun paths _ => ∀ p ∈ paths, Expendable p) w := by
  induction names with
  | nil => exact ⟨rfl, fun p hp => by cases hp⟩
  | cons d_name names ih =>
    have ih := ih fun d hd => hnames d (List.mem_cons_of_mem d_name hd)
    rw [regularFiles]
    split_ifs with hcopy
    · exact ih
    refine ⟨rfl, fun regular w' hstep => ?_⟩
    cases hstep
    refine ih.bind fun rest w' hw hrest => ?_
    refine ⟨hw, ?_⟩
    cases regular with
    | false => exact hrest
    | true =>
      rintro p (_ | ⟨_, hp⟩)
      · exact ⟨⟨dir, hdir, d_name, hnames d_name List.mem_cons_self, rfl⟩, hcopy⟩
      · exact hrest p hp

theorem expendableIn_always (ds : List Bytes) (hdirs : ∀ d ∈ ds, d ∈ dirs) :
    (expendableIn ds).Always Step (· = w) (fun paths _ => ∀ p ∈ paths, Expendable p) w := by
  induction ds with
  | nil => exact ⟨rfl, fun p hp => by cases hp⟩
  | cons dir ds ih =>
    have hdir := hdirs dir List.mem_cons_self
    refine ⟨rfl, fun names w' hstep => ?_⟩
    have hnames : w' = w ∧ ∀ d_name ∈ names.getD [], 47 ∉ d_name := by
      cases hstep with
      | opendir_ok _ h => exact ⟨rfl, h⟩
      | opendir_fails => exact ⟨rfl, fun _ h => by cases h⟩
    obtain ⟨rfl, hnames⟩ := hnames
    refine (regularFiles_always hdir hnames).bind_const rfl fun files hfiles => ?_
    refine (ih fun d hd => hdirs d (List.mem_cons_of_mem dir hd)).bind_const rfl fun rest hrest => ?_
    refine ⟨rfl, fun p hp => ?_⟩
    rcases List.mem_append.mp hp with hp | hp
    · exact hfiles p hp
    · exact hrest p hp

theorem eliminateFds_always (path : Bytes) (fds : List Bytes) (files : List (Option Bytes)) :
    (eliminateFds path fds files).Always Step (· = w)
      (fun files' _ => ∀ p, some p ∈ files' → some p ∈ files) w := by
  induction fds generalizing files with
  | nil => exact ⟨rfl, fun _ hp => hp⟩
  | cons fdde fds ih =>
    refine ⟨rfl, fun link w' hstep => ?_⟩
    cases hstep
    exact (ih _).mono fun files' _ _ hmem p hp => mem_of_mem_dropOpen (hmem p hp)

theorem eliminateProcs_always (names : List Bytes) (files : List (Option Bytes)) :
    (eliminateProcs names files).Always Step (· = w)
      (fun files' _ => ∀ p, some p ∈ files' → some p ∈ files) w := by
  induction names generalizing files with
  | nil => exact ⟨rfl, fun _ hp => hp⟩
  | cons d_name names ih =>
    rw [eliminateProcs]
    split_ifs with hdigits
    · refine ⟨rfl, fun fdd w' hstep => ?_⟩
      obtain rfl : w' = w := by cases hstep <;> rfl
      refine (eliminateFds_always _ _ files).bind_const rfl fun files' hfds => ?_
      exact (ih files').mono fun _ _ _ hmem p hp => hfds p (hmem p hp)
    · exact ih files

theorem findExpendableFiles_always :
    findExpendableFiles.Always Step (· = w)
      (fun r _ => ∀ files, r = some files → ∀ p, some p ∈ files → Expendable p) w := by
  unfold findExpendableFiles
  refine (expendableIn_always dirs fun _ h => h).bind_const rfl fun paths hpaths => ?_
  refine ⟨rfl, fun names w' hstep => ?_⟩
  obtain rfl : w' = w := by cases hstep <;> rfl
  show (eliminateIn (paths.map some) names).Always _ _ _ _
  cases names with
  | none => exact ⟨rfl, fun _ h => by cases h⟩
  | some names =>
    refine (eliminateProcs_always names _).bind_const rfl fun files hmem => ⟨rfl, ?_⟩
    intro files' heq p hp
    obtain rfl := Option.some.inj heq
    obtain ⟨q, hq, hqp⟩ := List.mem_map.mp (hmem p hp)
    obtain rfl := Option.some.inj hqp
    exact hpaths q hq

theorem deleteFiles_always {bytes_needed : Nat} {files : List (Option Bytes)}
    (hfiles : ∀ p, some p ∈ files → Expendable p) {free_now : Nat} {w' : Storage}
    (hw : CacheOnly w w') :
    (deleteFiles bytes_needed files free_now).Always Step (CacheOnly w) (fun _ _ => True) w' := by
  induction files generalizing free_now w' with
  | nil => exact ⟨hw, trivial⟩
  | cons file files ih =>
    have hrest : ∀ p, some p ∈ files → Expendable p := fun p hp =>
      hfiles p (List.mem_cons_of_mem file hp)
    rw [deleteFiles.eq_def]
    dsimp only
    split_ifs with hdone
    · exact ⟨hw, trivial⟩
    cases file with
    | none => exact ih hrest hw
    | some name =>
      refine ⟨hw, fun _ w₁ hstep => ?_⟩
      have hw₁ : CacheOnly w w₁ := by
        cases hstep with
        | unlink_ok => exact hw.unlink (hfiles name List.mem_cons_self)
        | unlink_fails => exact hw
      refine ⟨hw₁, fun free w₂ hstep => ?_⟩
      cases hstep
      exact ih hrest hw₁

/-- Only expendable files are deleted for more room. -/
theorem makeFreeSpaceOnCache_always (bytes_needed : Nat) :
    (makeFreeSpaceOnCache bytes_needed).Always Step (CacheOnly w) (fun _ _ => True) w := by
  refine ⟨.refl w, fun free w' hstep => ?_⟩
  cases hstep
  show (makeRoom bytes_needed (freeSpace free)).Always _ _ _ _
  unfold makeRoom
  split_ifs with henough
  · exact ⟨.refl w, trivial⟩
  refine (findExpendableFiles_always.weaken fun w' hw => hw ▸ .refl w).bind fun names w' hw hr => ?_
  match names, hr with
  | none, _ => exact ⟨hw, trivial⟩
  | some [], _ => exact ⟨hw, trivial⟩
  | some (file :: files), hr =>
    refine (deleteFiles_always (hr _ rfl) hw).bind fun free w₁ hw₁ _ => ?_
    exact ⟨hw₁, trivial⟩

end Cache

/-! ## Writing files -/

/-- `FileSink` writes a first part of the data. -/
theorem fileWrites_prefix (script : List Int) (data : Bytes) :
    (fileWrites data script).1.flatten <+: data := by
  induction script generalizing data with
  | nil => exact List.nil_prefix
  | cons wrote script ih =>
    unfold fileWrites
    split_ifs
    · exact List.nil_prefix
    · exact List.nil_prefix
    · rw [List.flatten_cons]
      have hrest := (List.prefix_append_right_inj (data.take wrote.toNat)).mpr
        (ih (data.drop wrote.toNat))
      rwa [List.take_append_drop] at hrest

section Write

variable {w : Storage} {name : Bytes}

theorem appendAll_always {writes : List Bytes} {c : Bytes} {w' : Storage}
    (hw : SameBut name w w') (hc : w'.files name = some c) :
    (appendAll name writes).Always Step (SameBut name w)
      (fun _ w' => w'.files name = some (c ++ writes.flatten)) w' := by
  induction writes generalizing c w' with
  | nil => exact ⟨hw, by simpa using hc⟩
  | cons data writes ih =>
    refine ⟨hw, fun _ w₁ hstep => ?_⟩
    cases hstep
    have hnow : (w'.setFile name ((w'.files name).map (· ++ data))).files name =
        some (c ++ data) := by
      rw [setFile_self, hc]
      rfl
    refine (ih (hw.trans (.setFile w' name _)) hnow).mono fun _ w₂ _ h => ?_
    rw [h, List.flatten_cons, List.append_assoc]

/-- What a saved file has: the data, or the first part of it that has the right size. -/
def Saved (name : Bytes) (file : FileContents) (w : Storage) : Prop :=
  ∃ c, w.files name = some c ∧ c <+: file.data.getD [] ∧ c.length = file.size

theorem saveFileContents_always (file : FileContents) :
    (saveFileContents name file).Always Step (SameBut name w)
      (fun r w' => ¬r < 0 → Saved name file w') w := by
  refine ⟨.refl name w, fun opened w₁ hstep => ?_⟩
  cases hstep with
  | openTrunc_fails => exact ⟨.refl name w, fun h => absurd (by decide) h⟩
  | openTrunc_ok =>
    have hopen := SameBut.setFile w name (some [])
    refine ⟨hopen, fun script w₂ hstep => ?_⟩
    cases hstep
    refine (appendAll_always hopen setFile_self).bind fun _ w₂ hw₂ hfile => ?_
    rw [List.nil_append] at hfile
    split_ifs with hsize
    · exact ⟨hw₂, fun h => absurd (by decide) h⟩
    have hsaved : Saved name file w₂ := ⟨_, hfile, fileWrites_prefix _ _, not_not.mp hsize⟩
    refine ⟨hw₂, fun _ w₃ hstep => ?_⟩
    cases hstep
    refine ⟨hw₂, fun moded w₃ hstep => ?_⟩
    cases hstep
    cases moded with
    | false => exact ⟨hw₂, fun h => absurd (by decide) h⟩
    | true =>
      refine ⟨hw₂, fun owned w₃ hstep => ?_⟩
      cases hstep
      exact ⟨hw₂, fun _ => hsaved⟩

/-- The files do not change when a partition is written. Success means that the data is
at its start. -/
theorem writeToPartition_always (data target : Bytes) :
    (writeToPartition data target).Always Step (fun w' => w'.files = w.files)
      (fun r w' => r = 0 → ∃ partition rest, (nameTokens target)[1]? = some partition ∧
        w'.parts (partitionType target) partition = data ++ rest) w := by
  unfold writeToPartition
  cases htoken : (nameTokens target)[1]? with
  | none => exact ⟨rfl, fun h => absurd h (by decide)⟩
  | some partition =>
    refine ⟨rfl, fun opened w₁ hstep => ?_⟩
    cases hstep with
    | beginWrite_fails =>
      show (openFailed (partitionType target)).Always _ _ _ _
      cases partitionType target with
      | MTD => exact ⟨rfl, fun h => absurd h (by decide)⟩
      | EMMC => exact crash_always rfl
    | beginWrite_ok _ _ content =>
      refine ⟨rfl, fun ok w₂ hstep => ?_⟩
      cases hstep with
      | finishWrite_ok _ _ _ rest =>
        exact ⟨rfl, fun _ => ⟨partition, rest, rfl, setPart_self⟩⟩
      | finishWrite_fails => exact ⟨rfl, fun h => absurd h (by decide)⟩

end Write

/-! ## Decoding -/

section Decode

variable (env : Env) (a : Args)

/-- The decoder has returned `ret`, with the hash of `d.ctx`, and the output has what
it has written. -/
def FileDecoded (source patch : Bytes) (ret : Int) (d : Decoded) (w : Storage) : Prop :=
  ∃ script out, patchAttempt env.bz env.z .file env.fuel source patch a.bonus_data
      (startFile script) = .done (some (ret, out)) ∧ d.ctx = out.ctx ∧
    w.files (outname a.target_filename) = some (FileToken.stored out.token)

/-- The decoder has returned `ret`, with the hash of `d.ctx`, and `d.buffer` is its output. -/
def MemoryDecoded (source patch : Bytes) (ret : Int) (d : Decoded) : Prop :=
  ∃ out, patchAttempt env.bz env.z (.memory a.target_size) env.fuel source patch a.bonus_data
      (startMemory a.target_size) = .done (some (ret, out)) ∧ d.ctx = out.ctx ∧
    d.buffer = out.token

variable {env a} {w : Storage} {source patch : Bytes}

theorem decodeToMemory_always :
    (decodeToMemory env a source patch).Always Step (· = w)
      (fun r _ => ∀ ret d, r = some (ret, d) → MemoryDecoded env a source patch ret d) w := by
  unfold decodeToMemory
  cases hrun : patchAttempt env.bz env.z (.memory a.target_size) env.fuel source patch
      a.bonus_data (startMemory a.target_size) with
  | fault => exact crash_always rfl
  | spin => exact crash_always rfl
  | done r =>
    cases r with
    | none => exact ⟨rfl, fun _ _ h => by cases h⟩
    | some r =>
      refine ⟨rfl, fun ret d h => ?_⟩
      cases h
      exact ⟨r.2, hrun, rfl, rfl⟩

theorem decodeToFile_always {w' : Storage} (hw : SameBut (outname a.target_filename) w w')
    (hempty : w'.files (outname a.target_filename) = some []) :
    (decodeToFile env a source patch).Always Step (SameBut (outname a.target_filename) w)
      (fun r w' => ∀ ret d, r = some (ret, d) → FileDecoded env a source patch ret d w') w' := by
  refine ⟨hw, fun script w₁ hstep => ?_⟩
  cases hstep
  show (fileDecoded a _).Always _ _ _ _
  cases hrun : patchAttempt env.bz env.z .file env.fuel source patch a.bonus_data
      (startFile script) with
  | fault =>
    refine ⟨hw, fun _ w₁ hstep => ?_⟩
    cases hstep
    exact crash_always (hw.trans (.setFile w' _ _))
  | spin =>
    refine ⟨hw, fun _ w₁ hstep => ?_⟩
    cases hstep
    exact crash_always (hw.trans (.setFile w' _ _))
  | done r =>
    cases r with
    | none => exact ⟨hw, fun _ _ h => by cases h⟩
    | some r =>
      refine (appendAll_always hw hempty).bind fun _ w₁ hw₁ hfile => ?_
      refine ⟨hw₁, fun _ w₂ hstep => ?_⟩
      cases hstep
      refine ⟨hw₁, fun ret d h => ?_⟩
      cases h
      exact ⟨script, r.2, hrun, rfl, hfile⟩

end Decode

end BootableRecovery.Applypatch
