import BootableRecovery.Applypatch.Replacement
import BootableRecovery.Applypatch.Rules

/-!
# What happens to a source that is not the target

`applypatch` promises to leave such a source alone. With too little space for the target
it moves the source to the cache instead, and deletes the copy after success.

* `Spares` restricts a run to the steps that do not get there: there is enough space, the
  first try does not fail, and no file with the name of the source is opened for writing.
* `applypatch_keeps_source`: in such runs success leaves the source as it was.
* `applypatch_deletes_source`: a run with little space that succeeds and deletes it.
-/

namespace BootableRecovery.Applypatch

/-! ## What a name refers to -/

/-- A file, or a partition. -/
def object (name : Bytes) : Bytes ⊕ PartitionType × Option Bytes :=
  if isPartition name then .inr (partitionType name, (nameTokens name)[1]?) else .inl name

/-- The contents of the file or the partition. -/
def contents (w : Storage) (name : Bytes) : Option Bytes :=
  match object name with
  | .inl file => w.files file
  | .inr (type, partition) => partition.map (w.parts type)

section Contents

variable {w w' : Storage} {name : Bytes}

theorem object_file (h : isPartition name = false) : object name = .inl name := by
  rw [object, h, if_neg Bool.false_ne_true]

theorem object_partition (h : isPartition name = true) :
    object name = .inr (partitionType name, (nameTokens name)[1]?) := by
  rw [object, if_pos h]

theorem contents_file (h : isPartition name = false) : contents w name = w.files name := by
  rw [contents, object_file h]

theorem contents_partition (h : isPartition name = true) :
    contents w name = (nameTokens name)[1]?.map (w.parts (partitionType name)) := by
  rw [contents, object_partition h]

/-- A change of another file. -/
theorem contents_sameBut {n : Bytes} (h : SameBut n w w') (hne : n ≠ name) :
    contents w' name = contents w name := by
  cases hpart : isPartition name with
  | false => rw [contents_file hpart, contents_file hpart, h.files name hne.symm]
  | true => rw [contents_partition hpart, contents_partition hpart, h.parts]

theorem contents_setFile {n : Bytes} {content : Option Bytes} (hne : n ≠ name) :
    contents (w.setFile n content) name = contents w name :=
  contents_sameBut (.setFile w n content) hne

/-- The deletion of expendable files. -/
theorem contents_cacheOnly (h : CacheOnly w w') (hne : isPartition name = false → ¬Expendable name) :
    contents w' name = contents w name := by
  cases hpart : isPartition name with
  | false => rw [contents_file hpart, contents_file hpart, h.files name (hne hpart)]
  | true => rw [contents_partition hpart, contents_partition hpart, h.parts]

/-- A change of another partition. -/
theorem contents_setPart {target partition content : Bytes} (htarget : isPartition target = true)
    (htoken : (nameTokens target)[1]? = some partition) (hne : object name ≠ object target) :
    contents (w.setPart (partitionType target) partition content) name = contents w name := by
  cases hpart : isPartition name with
  | false => rw [contents_file hpart, contents_file hpart, setPart_files]
  | true =>
    rw [object_partition hpart, object_partition htarget, htoken] at hne
    rw [contents_partition hpart, contents_partition hpart]
    cases hname : (nameTokens name)[1]? with
    | none => rfl
    | some p =>
      rw [hname] at hne
      simp only [Option.map_some, Storage.setPart, Option.some.injEq]
      by_cases htype : partitionType name = partitionType target
      · have hp : p ≠ partition := fun hp => hne (by rw [htype, hp])
        rw [htype, Function.update_self, Function.update_of_ne hp]
      · rw [Function.update_of_ne htype]

end Contents

/-! ## Runs that spare the source -/

section Model

variable (env : Env) (a : Args)

/-- The source can be loaded with the contents `data`, for which `patch` is listed. -/
def Listed (w : Storage) (data : Bytes) (patch : Value) : Prop :=
  Loads env.sha w a.source_filename data ∧ Matches a (env.sha data) patch

/-- The first try does not fail in the decoder, with these results of `write`. -/
def DecodesAtOnce (w : Storage) (script : List Int) : Prop :=
  ∀ data patch result out, Listed env a w data patch →
    patchAttempt env.bz env.z .file env.fuel data patch.data a.bonus_data (startFile script) =
      .done (some (result, out)) → result = 0

/-- There is enough space: for a target file on its file system, and for a partition on the
cache, when the source is a file that could be deleted there. -/
def HasSpace (w : Storage) (name : Bytes) (sf : Option (Nat × Nat)) : Prop :=
  if isPartition a.target_filename then
    Expendable a.source_filename → ∀ data patch, Listed env a w data patch →
      data.length ≤ freeSpace sf
  else name = targetFs a.target_filename → enoughSpace (freeSpace sf) a.target_size = true

/-- What is asked of the steps of a run from `w`. -/
def Spares (w : Storage) : (o : Op) → Ans o → Prop
  | .openTrunc name, _ => name ≠ a.source_filename
  | .statfs name, sf => (∃ data patch, Listed env a w data patch) →
      isPartition a.source_filename = false → HasSpace env a w name sf
  | .writeResults, script => isPartition a.target_filename = false →
      isPartition a.source_filename = false → DecodesAtOnce env a w script
  | _, _ => True

def SparingStep (w₀ : Storage) (w : Storage) (o : Op) (x : Ans o) (w' : Storage) : Prop :=
  Step w o x w' ∧ Spares env a w₀ o x

end Model

variable {env : Env} {a : Args} {s : Sources} {w₀ w : Storage}

theorem sparing_step : ∀ (w : Storage) (o : Op) (x : Ans o) (w' : Storage),
    SparingStep env a w₀ w o x w' → Step w o x w' :=
  fun _ _ _ _ h => h.1

/-- The source has the contents `v`. -/
def SourceHas (a : Args) (v : Option Bytes) (w : Storage) : Prop :=
  contents w a.source_filename = v

/-! ### A target file -/

section File

variable {v : Option Bytes} (hfile : isPartition a.target_filename = false)

include hfile

/-- The output is not the source, and nothing else is written. -/
theorem decodeSource_spares (hv : SourceHas a v w) :
    (decodeSource env a s).Always (SparingStep env a w₀) (SourceHas a v)
      (fun r _ => r ≠ none → outname a.target_filename ≠ a.source_filename) w := by
  have hdecode := @decodeSource_output env a s w hfile (SparingStep env a w₀) sparing_step
    (outname a.target_filename ≠ a.source_filename) fun _ _ hstep => hstep.2
  refine (hdecode.weaken fun w' hw' => ?_).mono fun r w' _ hr hne => ?_
  · rcases hw' with rfl | ⟨hne, hsame⟩
    · exact hv
    · exact (contents_sameBut hsame hne).trans hv
  · obtain ⟨⟨ret, d⟩, hrd⟩ := Option.ne_none_iff_exists'.mp hne
    exact (hr ret d hrd).1

/-- The decoder does not fail for a listed source. -/
theorem decodeSource_zero (hsource : isPartition a.source_filename = false)
    (hlisted : ∀ f patch, s.toUse = (f, some patch) → Listed env a w₀ (f.data.getD []) patch) :
    (decodeSource env a s).Always (SparingStep env a w₀) (fun _ => True)
      (fun r _ => ∀ ret d, r = some (ret, d) → ret = 0) w := by
  unfold decodeSource
  rcases huse : s.toUse with ⟨source_to_use, _ | patch⟩
  · exact crash_always trivial
  have hsrc := hlisted _ _ huse
  dsimp only
  split_ifs with hblob
  · unfold decode
    rw [hfile, if_neg Bool.false_ne_true]
    refine ⟨trivial, fun opened w₁ _ => ?_⟩
    cases opened with
    | false => exact ⟨trivial, fun _ _ h => by cases h⟩
    | true =>
      refine ⟨trivial, fun script w₂ hstep => ?_⟩
      have hzero := hstep.2 hfile hsource
      show (fileDecoded a _).Always _ _ _ _
      cases hrun : patchAttempt env.bz env.z .file env.fuel (source_to_use.data.getD []) patch.data
          a.bonus_data (startFile script) with
      | fault => exact ⟨trivial, fun _ _ _ => crash_always trivial⟩
      | spin => exact ⟨trivial, fun _ _ _ => crash_always trivial⟩
      | done r =>
        rcases r with _ | ⟨result, out⟩
        · exact ⟨trivial, fun _ _ h => by cases h⟩
        refine (Prog.Always.trivial (appendAll _ _) w₂).bind fun _ w₃ _ _ => ?_
        refine ⟨trivial, fun _ w₄ _ => ⟨trivial, fun ret d h => ?_⟩⟩
        cases h
        exact hzero _ _ _ _ hsrc hrun
  · exact ⟨trivial, fun _ _ h => by cases h⟩

/-- There is enough space for the first try. -/
theorem prepare_enough (hsource : isPartition a.source_filename = false)
    (hlisted : ∃ data patch, Listed env a w₀ data patch) :
    (prepare a s 1 false).Always (SparingStep env a w₀) (· = w)
      (fun r _ => ∀ p, r = some p → p.2 = false) w := by
  unfold prepare
  rw [hfile, if_neg Bool.false_ne_true]
  refine ⟨rfl, fun sf w₁ hstep => ?_⟩
  obtain ⟨hstep, hspares⟩ := hstep
  cases hstep
  have henough : enoughSpace (freeSpace sf) a.target_size = true := by
    have hspace := hspares hlisted hsource
    rw [HasSpace, hfile, if_neg Bool.false_ne_true] at hspace
    exact hspace rfl
  show Prog.Always _ _ _ (if enoughSpace (freeSpace sf) a.target_size = true
    then Prog.ret (some (1, false)) else _) _
  rw [if_pos henough]
  refine ⟨rfl, fun p hp => ?_⟩
  cases hp
  rfl

/-- The source is not used, or it cannot be deleted. -/
theorem prepare_other {retry : Nat}
    (h : s.source_patch_value = none ∨ isPartition a.source_filename = true) :
    (prepare a s retry false).Always Step (· = w) (fun r _ => ∀ p, r = some p → p.2 = false) w := by
  unfold prepare
  rw [hfile, if_neg Bool.false_ne_true]
  refine askSpace_always.bind_const rfl fun enough _ => ?_
  split_ifs with henough hsome
  · refine ⟨rfl, fun p hp => ?_⟩
    cases hp
    rfl
  · rcases h with hnone | hpart
    · rw [hnone] at hsome
      cases hsome
    · unfold moveToCache
      rw [if_pos hpart]
      exact ⟨rfl, fun p hp => by cases hp⟩
  · refine ⟨rfl, fun p hp => ?_⟩
    cases hp
    rfl

/-- No copy was made, and the output is not the source. -/
def Spared (a : Args) (r : Option (Decoded × Bool)) : Prop :=
  ∀ d made_copy, r = some (d, made_copy) →
    made_copy = false ∧ outname a.target_filename ≠ a.source_filename

theorem turn_spares {retry : Nat} {again : Run (Option (Decoded × Bool))}
    (hv : SourceHas a v w)
    (hprepare : (prepare a s retry false).Always (SparingStep env a w₀) (· = w)
      (fun r _ => ∀ p, r = some p → p.2 = false) w)
    (hagain : (∀ w, SourceHas a v w → again.Always (SparingStep env a w₀) (SourceHas a v)
        (fun r _ => Spared a r) w) ∨
      ∀ w, (decodeSource env a s).Always (SparingStep env a w₀) (fun _ => True)
        (fun r _ => ∀ ret d, r = some (ret, d) → ret = 0) w) :
    (turn env a s retry false again).Always (SparingStep env a w₀) (SourceHas a v)
      (fun r _ => Spared a r) w := by
  refine hprepare.bind_const hv fun prepared hcopy => ?_
  rcases prepared with _ | ⟨retry', made_copy⟩
  · exact ⟨hv, fun _ _ h => by cases h⟩
  obtain rfl : made_copy = false := hcopy _ rfl
  have hdecode : (decodeSource env a s).Always (SparingStep env a w₀) (SourceHas a v)
      (fun r _ => (r ≠ none → outname a.target_filename ≠ a.source_filename) ∧
        ∀ ret d, r = some (ret, d) → ret ≠ 0 → ∀ w', SourceHas a v w' →
          again.Always (SparingStep env a w₀) (SourceHas a v) (fun r _ => Spared a r) w') w := by
    have hkept := @decodeSource_spares env a s w₀ w v hfile hv
    rcases hagain with hagain | hzero
    · exact hkept.mono fun r _ _ hne => ⟨hne, fun _ _ _ _ => hagain⟩
    · refine ((hkept.and (hzero w)).weaken fun _ h => h.1).mono fun r w' _ h => ⟨h.1, ?_⟩
      exact fun ret d hr hne => absurd (h.2 ret d hr) hne
  refine hdecode.bind fun decoded w₁ hv₁ hdec => ?_
  rcases decoded with _ | ⟨result, d⟩
  · exact ⟨hv₁, fun _ _ h => by cases h⟩
  have hne := hdec.1 (Option.some_ne_none _)
  dsimp only
  split_ifs with hresult
  · unfold tryAgain
    split_ifs with hretry
    · exact ⟨hv₁, fun _ _ h => by cases h⟩
    · unfold dropOutput
      rw [hfile, if_neg Bool.false_ne_true]
      refine ⟨hv₁, fun _ w₂ hstep => hdec.2 result d rfl hresult w₂ ?_⟩
      cases hstep.1 with
      | unlink_ok => exact (contents_setFile hne).trans hv₁
      | unlink_fails => exact hv₁
  · refine ⟨hv₁, fun d' copied h => ?_⟩
    cases h
    exact ⟨rfl, hne⟩

/-- The output is moved to the target. -/
theorem finish_spares {target_sha1 : Bytes} {d : Decoded} (hv : SourceHas a v w)
    (hout : outname a.target_filename ≠ a.source_filename)
    (htarget : a.target_filename ≠ a.source_filename) :
    (finish env a s target_sha1 d false).Always Step (SourceHas a v) (fun _ _ => True) w := by
  unfold finish
  split_ifs with hsha
  · exact ⟨hv, trivial⟩
  have hinstall := (@install_always a s w hfile Step (fun _ _ _ _ h => h) d).weaken
    (J := SourceHas a v) fun w' hw' => by
      rcases hw' with rfl | hstep
      · exact hv
      · cases hstep
        exact (contents_setFile htarget).trans ((contents_setFile hout).trans hv)
  refine hinstall.bind fun r w₁ hv₁ _ => ?_
  split_ifs with hret
  · exact ⟨hv₁, trivial⟩
  · exact ⟨hv₁, trivial⟩

theorem generateTarget_spares_file {target_sha1 : Bytes} (hv : SourceHas a v w₀)
    (hs : Usable env a w₀ s) (htarget : a.target_filename ≠ a.source_filename) :
    (generateTarget env a s target_sha1).Always (SparingStep env a w₀) (SourceHas a v)
      (fun _ _ => True) w₀ := by
  have hturns : (turns env a s 1).Always (SparingStep env a w₀) (SourceHas a v)
      (fun r _ => Spared a r) w₀ := by
    have hother : (s.source_patch_value = none ∨ isPartition a.source_filename = true) →
        (turns env a s 1).Always (SparingStep env a w₀) (SourceHas a v)
          (fun r _ => Spared a r) w₀ := fun h =>
      turn_spares hfile hv ((prepare_other hfile h).of_step sparing_step) <| .inl fun w hw =>
        turn_spares hfile hw ((prepare_other hfile h).of_step sparing_step) <| .inl fun w hw =>
          ⟨hw, fun _ _ h => by cases h⟩
    cases hs with
    | copy hnone => exact hother (.inl hnone)
    | @source patch hpatch hsrc =>
      cases hsource : isPartition a.source_filename with
      | true => exact hother (.inr hsource)
      | false =>
        obtain ⟨data, hholds, hlisted⟩ := hsrc
        refine turn_spares hfile hv (prepare_enough hfile hsource ⟨data, patch, hlisted⟩)
          (.inr fun w => decodeSource_zero hfile hsource fun f patch' huse => ?_)
        rw [Sources.toUse, hpatch] at huse
        cases huse
        rw [hholds.data_eq]
        exact hlisted
  refine hturns.bind fun r w₁ hv₁ hr => ?_
  rcases r with _ | ⟨d, made_copy⟩
  · exact ⟨hv₁, trivial⟩
  obtain ⟨rfl, hout⟩ := hr d made_copy rfl
  exact (finish_spares hfile hv₁ hout htarget).of_step sparing_step

end File

/-! ### A target partition -/

section Partition

variable {v : Option Bytes} (hpartition : isPartition a.target_filename = true)

include hpartition

/-- The source is there after room was made, or the copy cannot be saved. -/
theorem makeFreeSpaceOnCache_spares (hv : SourceHas a v w₀) (hs : Usable env a w₀ s) :
    (makeFreeSpaceOnCache s.source_file.size).Always (SparingStep env a w₀) (fun _ => True)
      (fun _ w' => SourceHas a v w' ∨
        (s.source_file.data = none ∧ s.source_file.size ≠ 0)) w₀ := by
  by_cases hexp : isPartition a.source_filename = false ∧ Expendable a.source_filename
  · obtain ⟨hsource, hexp⟩ := hexp
    have henough : ∀ sf, Spares env a w₀ (.statfs (ascii "/cache")) sf →
        s.source_file.size ≤ freeSpace sf ∨
          (s.source_file.data = none ∧ s.source_file.size ≠ 0) := by
      intro sf hspares
      cases hs with
      | @source patch _ hsrc =>
        obtain ⟨data, hholds, hlisted⟩ := hsrc
        have hspace := hspares ⟨data, patch, hlisted⟩ hsource
        rw [HasSpace, if_pos hpartition] at hspace
        exact .inl (hholds.size_eq ▸ hspace hexp data patch hlisted)
      | copy _ hnone =>
        by_cases hzero : s.source_file.size = 0
        · exact .inl (hzero ▸ Nat.zero_le _)
        · exact .inr ⟨hnone, hzero⟩
    refine ⟨trivial, fun sf w₁ hstep => ?_⟩
    obtain ⟨hstep, hspares⟩ := hstep
    cases hstep
    show (makeRoom s.source_file.size (freeSpace sf)).Always _ _ _ _
    rcases henough sf hspares with hle | hlost
    · rw [makeRoom, if_pos hle]
      exact ⟨trivial, .inl hv⟩
    · exact (Prog.Always.trivial _ _).mono fun _ _ _ _ => .inr hlost
  · have hroom := (@makeFreeSpaceOnCache_always w₀ s.source_file.size).of_step
      (@sparing_step env a w₀)
    refine (hroom.mono fun _ w' hcache _ => .inl ?_).weaken fun _ _ => trivial
    exact (contents_cacheOnly hcache fun hsource h => hexp ⟨hsource, h⟩).trans hv

omit hpartition in
/-- The copy is not the source, and it cannot be saved without the data. -/
theorem saveCopy_spares (hv : SourceHas a v w ∨
    (s.source_file.data = none ∧ s.source_file.size ≠ 0)) :
    (saveFileContents CACHE_TEMP_SOURCE s.source_file).Always (SparingStep env a w₀) (fun _ => True)
      (fun r w' => ¬r < 0 → SourceHas a v w' ∧ CACHE_TEMP_SOURCE ≠ a.source_filename) w := by
  have hne : (saveFileContents CACHE_TEMP_SOURCE s.source_file).Always (SparingStep env a w₀)
      (fun _ => True) (fun _ _ => CACHE_TEMP_SOURCE ≠ a.source_filename) w :=
    ⟨trivial, fun _ _ hstep => (Prog.Always.trivial _ _).mono fun _ _ _ _ => hstep.2⟩
  have hsave := (@saveFileContents_always w CACHE_TEMP_SOURCE s.source_file).of_step
    (@sparing_step env a w₀)
  refine ((hsave.and hne).mono fun r w' hw hr hret => ?_).weaken fun _ _ => trivial
  refine ⟨?_, hr.2⟩
  rcases hv with hv | ⟨hnone, hsize⟩
  · exact (contents_sameBut hw.1 hr.2).trans hv
  · obtain ⟨c, -, hpre, hlen⟩ := hr.1 hret
    rw [hnone, Option.getD_none, List.prefix_nil] at hpre
    rw [hpre] at hlen
    exact absurd hlen.symm hsize

theorem prepare_spares (hv : SourceHas a v w₀) (hs : Usable env a w₀ s) :
    (prepare a s 1 false).Always (SparingStep env a w₀) (fun _ => True)
      (fun r w' => ∀ p, r = some p → p.1 = 0 ∧
        SourceHas a v w' ∧ CACHE_TEMP_SOURCE ≠ a.source_filename) w₀ := by
  unfold prepare
  rw [hpartition, if_pos rfl]
  have hback : (backUp s).Always (SparingStep env a w₀) (fun _ => True)
      (fun ok w' => ok = true →
        SourceHas a v w' ∧ CACHE_TEMP_SOURCE ≠ a.source_filename) w₀ := by
    refine (makeFreeSpaceOnCache_spares hpartition hv hs).bind fun r w₁ _ hv₁ => ?_
    split_ifs with hneg
    · exact ⟨trivial, fun h => by cases h⟩
    · refine (saveCopy_spares hv₁).bind fun r w₂ _ hr => ⟨trivial, fun h => ?_⟩
      exact hr (of_decide_eq_true h)
  refine ⟨trivial, fun _ w₁ hstep => ?_⟩
  obtain ⟨hstep, -⟩ := hstep
  cases hstep
  refine hback.bind fun ok w₂ _ hok => ⟨trivial, fun p hp => ?_⟩
  cases ok with
  | false => cases hp
  | true =>
    cases hp
    exact ⟨rfl, hok rfl⟩

theorem decodeSource_partition : (decodeSource env a s).Always Step (· = w) (fun _ _ => True) w := by
  unfold decodeSource
  rcases s.toUse with ⟨source_to_use, _ | patch⟩
  · exact crash_always rfl
  dsimp only
  split_ifs with hblob
  · unfold decode
    rw [hpartition, if_pos rfl]
    exact decodeToMemory_always.mono fun _ _ _ _ => trivial
  · exact ⟨rfl, trivial⟩

/-- There is one try, and the partition is not written yet. -/
theorem turns_spares (hv : SourceHas a v w₀) (hs : Usable env a w₀ s) :
    (turns env a s 1).Always (SparingStep env a w₀) (fun _ => True)
      (fun r w' => r ≠ none → SourceHas a v w' ∧ CACHE_TEMP_SOURCE ≠ a.source_filename) w₀ := by
  refine (prepare_spares hpartition hv hs).bind fun prepared w₁ _ hprepared => ?_
  rcases prepared with _ | ⟨retry, made_copy⟩
  · exact ⟨trivial, fun h => absurd rfl h⟩
  obtain ⟨rfl, hv₁, hne⟩ := hprepared _ rfl
  refine ((decodeSource_partition hpartition).of_step sparing_step).bind_const trivial
    fun decoded _ => ?_
  rcases decoded with _ | ⟨result, d⟩
  · exact ⟨trivial, fun h => absurd rfl h⟩
  dsimp only
  split_ifs with hresult
  · exact ⟨trivial, fun h => absurd rfl h⟩
  · exact ⟨trivial, fun _ => ⟨hv₁, hne⟩⟩

/-- Only the target is written. -/
theorem writeToPartition_spares (hv : SourceHas a v w) {data : Bytes}
    (hne : object a.source_filename ≠ object a.target_filename) :
    (writeToPartition data a.target_filename).Always Step (SourceHas a v) (fun _ _ => True) w := by
  unfold writeToPartition
  cases htoken : (nameTokens a.target_filename)[1]? with
  | none => exact ⟨hv, trivial⟩
  | some partition =>
    refine ⟨hv, fun opened w₁ hstep => ?_⟩
    cases hstep with
    | beginWrite_fails =>
      show (openFailed (partitionType a.target_filename)).Always _ _ _ _
      cases partitionType a.target_filename with
      | MTD => exact ⟨hv, trivial⟩
      | EMMC => exact crash_always hv
    | beginWrite_ok _ _ content =>
      have hv₁ : SourceHas a v (w.setPart (partitionType a.target_filename) partition content) :=
        (contents_setPart hpartition htoken hne).trans hv
      refine ⟨hv₁, fun ok w₂ hstep => ?_⟩
      cases hstep with
      | finishWrite_ok =>
        exact ⟨(contents_setPart hpartition htoken hne).trans hv₁, trivial⟩
      | finishWrite_fails =>
        exact ⟨(contents_setPart hpartition htoken hne).trans hv₁, trivial⟩

theorem generateTarget_spares_partition {target_sha1 : Bytes} (hv : SourceHas a v w₀)
    (hs : Usable env a w₀ s) (hne : object a.source_filename ≠ object a.target_filename) :
    (generateTarget env a s target_sha1).Always (SparingStep env a w₀) (fun _ => True)
      (fun r w' => r = 0 → SourceHas a v w') w₀ := by
  refine (turns_spares hpartition hv hs).bind fun r w₁ _ hr => ?_
  rcases r with _ | ⟨d, made_copy⟩
  · exact ⟨trivial, fun h => absurd h (by decide)⟩
  obtain ⟨hv₁, hcopy⟩ := hr (Option.some_ne_none _)
  show (finish env a s target_sha1 d made_copy).Always _ _ _ _
  unfold finish
  split_ifs with hsha
  · exact ⟨trivial, fun h => absurd h (by decide)⟩
  have hinstall : (install a s d).Always Step (SourceHas a v) (fun _ _ => True) w₁ := by
    unfold install
    rw [hpartition, if_pos rfl]
    exact (writeToPartition_spares hpartition hv₁ hne).bind fun r w₂ hv₂ _ => ⟨hv₂, trivial⟩
  refine (((hinstall.mono fun _ _ hv _ => hv).weaken fun _ _ => trivial).of_step
    sparing_step).bind fun r w₂ _ hv₂ => ?_
  split_ifs with hret
  · exact ⟨trivial, fun h => absurd h hret⟩
  unfold removeCopy
  split_ifs with hmade
  · refine ⟨trivial, fun _ w₃ hstep => ⟨trivial, fun _ => ?_⟩⟩
    cases hstep.1 with
    | unlink_ok => exact (contents_setFile hcopy).trans hv₂
    | unlink_fails => exact hv₂
  · exact ⟨trivial, fun _ => hv₂⟩

end Partition

/-! ## The source is kept -/

variable (env a) in
/-- In runs that spare it, success leaves a source that is not the target as it was. -/
theorem applypatch_keeps_source (stack : FileContents) (w : Storage)
    (hne : object (resolve a).source_filename ≠ object (resolve a).target_filename) :
    (applypatch env a stack).Always (SparingStep env (resolve a) w) (fun _ => True)
      (fun r w' => r = 0 →
        contents w' (resolve a).source_filename = contents w (resolve a).source_filename) w := by
  unfold applypatch
  cases hparse : parseSha1 a.target_sha1_str with
  | none => exact ⟨trivial, fun h => absurd h (by decide)⟩
  | some target_sha1 =>
    refine applypatchTo_always sparing_step trivial (fun _ _ _ _ => rfl)
      (fun h => absurd h (by decide)) fun s hs => ?_
    cases hpart : isPartition (resolve a).target_filename with
    | true => exact generateTarget_spares_partition hpart rfl hs hne
    | false =>
      have htarget : (resolve a).target_filename ≠ (resolve a).source_filename := fun heq =>
        hne (by rw [heq])
      have hgen := @generateTarget_spares_file env (resolve a) s w _ hpart target_sha1 rfl hs htarget
      have hkept : (generateTarget env (resolve a) s target_sha1).Always
          (SparingStep env (resolve a) w) (SourceHas (resolve a) _)
          (fun r w' => r = 0 → contents w' (resolve a).source_filename =
            contents w (resolve a).source_filename) w := hgen.mono fun _ _ hv _ _ => hv
      exact hkept.weaken fun _ _ => trivial

/-! ## A source that is deleted -/

/-- The back-up of a source, which is then deleted. -/
theorem moveToCache_runs {data : Bytes} (hsource : isPartition a.source_filename = false)
    (hdata : s.source_file.data = some data) (hsize : s.source_file.size = data.length)
    (hne : data ≠ []) {sf : Option (Nat × Nat)} (hroom : data.length ≤ freeSpace sf) :
    (moveToCache a s).Runs Step w true
      ((w.setFile CACHE_TEMP_SOURCE (some data)).setFile a.source_filename none) := by
  have hmake : (makeFreeSpaceOnCache s.source_file.size).Runs Step w 0 w := by
    refine ⟨sf, w, .statfs _ _, ?_⟩
    show (makeRoom s.source_file.size (freeSpace sf)).Runs _ _ _ _
    rw [makeRoom, if_pos (hsize ▸ hroom)]
    exact ⟨rfl, rfl⟩
  have hsave : (saveFileContents CACHE_TEMP_SOURCE s.source_file).Runs Step w 0
      (w.setFile CACHE_TEMP_SOURCE (some data)) := by
    have hwrites : (fileWrites (s.source_file.data.getD []) [(data.length : Int)]).1 = [data] := by
      rw [hdata, Option.getD_some, fileWrites_whole hne]
    refine ⟨true, _, .openTrunc_ok _, [(data.length : Int)], _, .writeResults _, ?_⟩
    show Prog.Runs Step (appendAll CACHE_TEMP_SOURCE
      (fileWrites (s.source_file.data.getD []) [(data.length : Int)]).1 >>= fun _ =>
        if (fileWrites (s.source_file.data.getD []) [(data.length : Int)]).1.flatten.length ≠
          s.source_file.size then _ else _ : Run Int) _ _ _
    rw [hwrites, List.flatten_singleton, hsize, if_neg (not_not.mpr rfl)]
    refine ⟨(), _, .append _ _, (), _, .fsync _, true, _, .chmod _ _ _, true, _, .chown _ _ _ _, rfl, ?_⟩
    rw [setFile_self, setFile_setFile]
    rfl
  have hback : (backUp s).Runs Step w true (w.setFile CACHE_TEMP_SOURCE (some data)) :=
    hmake.bind (hsave.bind ⟨rfl, rfl⟩)
  unfold moveToCache
  rw [hsource, if_neg Bool.false_ne_true]
  exact hback.bind ⟨(), _, .unlink_ok _, none, _, .statfs _ _, rfl, rfl⟩

/-- With too little space for the target the source is moved. -/
theorem prepare_moves {data : Bytes} {patch : Value} (hfile : isPartition a.target_filename = false)
    (hsource : isPartition a.source_filename = false) (hpatch : s.source_patch_value = some patch)
    (hdata : s.source_file.data = some data) (hsize : s.source_file.size = data.length)
    (hne : data ≠ []) {sf sf' : Option (Nat × Nat)}
    (hlow : enoughSpace (freeSpace sf) a.target_size = false) (hroom : data.length ≤ freeSpace sf') :
    (prepare a s 1 false).Runs Step w (some (0, true))
      ((w.setFile CACHE_TEMP_SOURCE (some data)).setFile a.source_filename none) := by
  unfold prepare
  rw [hfile, if_neg Bool.false_ne_true]
  refine ⟨sf, w, .statfs _ _, ?_⟩
  show Prog.Runs Step (if enoughSpace (freeSpace sf) a.target_size = true then _
    else if s.source_patch_value.isSome = true then (moveToCache a s >>= _) else _ : Run _) _ _ _
  rw [hlow, if_neg Bool.false_ne_true, hpatch, if_pos Option.isSome_some]
  exact (moveToCache_runs hsource hdata hsize hne hroom).bind ⟨rfl, rfl⟩

section Demo

/-- The source, and a target that is not there yet. -/
def demoSource : Bytes := ascii "/system/old"

def demoTarget : Bytes := ascii "/system/new"

def sourceStorage : Storage :=
  (⟨fun _ => none, fun _ _ => []⟩ : Storage).setFile demoSource (some [1])

def moveArgs : Args := demoArgs [7] demoSource demoTarget

/-- The storage behind the call. -/
def movedStorage : Storage :=
  installed moveArgs [7] true
    (((sourceStorage.setFile CACHE_TEMP_SOURCE (some [1])).setFile demoSource none).setFile
      (outname demoTarget) (some [7]))

theorem applypatch_move_runs :
    (applypatch (demoEnv [7] [1]) moveArgs demoStack).Runs Step sourceStorage 0 movedStorage := by
  have hload : ∀ file, loadedFile (demoEnv [7] [1]).sha true file (.ok [1] ⟨0, 0, 0⟩) =
      (0, loadedSource [1] ⟨0, 0, 0⟩) := fun file => loadedFile_source (by decide) (by decide) file _
  have hlow : enoughSpace (freeSpace (some (1, 0))) moveArgs.target_size = false := by
    rw [freeSpace_some, enoughSpace]
    rfl
  have hroom : ([1] : Bytes).length ≤ freeSpace (some (1, 1)) := by
    rw [freeSpace_some]
    decide
  have hgen := @generateTarget_runs (demoEnv [7] [1]) moveArgs
    ⟨loadedSource [1] ⟨0, 0, 0⟩, some ⟨true, replacementPatch [7]⟩, demoStack, none⟩
    sourceStorage [7] (List.replicate 20 0) (by decide) (by decide) (by decide) (by decide) _ rfl _
    _ _ (prepare_moves (by decide) (by decide) rfl rfl rfl (by decide) hlow hroom)
  have hsource : (loadSource (demoEnv [7] [1]) moveArgs demoStack).Runs Step sourceStorage
      (loadedSource [1] ⟨0, 0, 0⟩) sourceStorage := by
    unfold loadSource
    rw [if_pos (.inl rfl), loadFileContents_file (by decide)]
    refine ⟨.ok [1] ⟨0, 0, 0⟩, _, .readFile_ok _ setFile_self, ?_⟩
    show (Prog.ret (loadedFile (demoEnv [7] [1]).sha true _ (.ok [1] ⟨0, 0, 0⟩)).2).Runs _ _ _ _
    rw [hload]
    exact ⟨rfl, rfl⟩
  have hpatch : patchFor moveArgs (loadedSource [1] ⟨0, 0, 0⟩) =
      some ⟨true, replacementPatch [7]⟩ := findMatchingPatch_source
  refine applypatch_runs (by decide) parseSha1_target ?_
  refine applypatchTo_runs (by decide) (.readFile_statFails _) rfl
    (fun h => absurd h.1 (by decide)) ?_
  refine hsource.bind ?_
  rw [patchFrom, hpatch]
  exact hgen

theorem movedStorage_source : contents movedStorage demoSource = none := by
  show (((((sourceStorage.setFile _ _).setFile demoSource none).setFile _ _).setFile _ none).setFile
    _ (some [7]) |>.setFile _ none).files demoSource = none
  rw [setFile_of_ne (by decide), setFile_of_ne (by decide), setFile_of_ne (by decide),
    setFile_of_ne (by decide), setFile_self]

/-- A call with little space for the target succeeds and deletes the source. -/
theorem applypatch_deletes_source :
    ¬∀ (env : Env) (a : Args) (stack : FileContents) (w w' : Storage) (content : Bytes),
      object (resolve a).source_filename ≠ object (resolve a).target_filename →
      contents w (resolve a).source_filename = some content →
      (applypatch env a stack).Runs Step w 0 w' →
      contents w' (resolve a).source_filename = some content := by
  intro h
  have hkept := h (demoEnv [7] [1]) moveArgs demoStack sourceStorage movedStorage [1] (by decide)
    setFile_self applypatch_move_runs
  have hgone : contents movedStorage (resolve moveArgs).source_filename = none := movedStorage_source
  rw [hgone] at hkept
  cases hkept

/-- A call that finds the target done. -/
theorem applypatch_keeps_source_demo :
    object (resolve moveArgs).source_filename ≠ object (resolve moveArgs).target_filename ∧
      (applypatch (demoEnv [7] [1]) moveArgs demoStack).Always
        (SparingStep (demoEnv [7] [1]) (resolve moveArgs) sourceStorage) (fun _ => True)
        (fun r w' => r = 0 → contents w' (resolve moveArgs).source_filename =
          contents sourceStorage (resolve moveArgs).source_filename) sourceStorage :=
  ⟨by decide, applypatch_keeps_source _ _ _ _ (by decide)⟩

end Demo

end BootableRecovery.Applypatch
