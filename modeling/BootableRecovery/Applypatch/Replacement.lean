import BootableRecovery.Applypatch.Frames

/-!
# A patch that replaces the file

The least patch that `GenerateTarget` can apply: one RAW record with the new contents,
which does not look at the source.

* `patchAttempt_replacement`: it is applied to every source.
* `generateTarget_runs`: a run of `GenerateTarget` with it that succeeds.
-/

namespace BootableRecovery.Applypatch

/-- An IMGDIFF2 patch with one RAW record. -/
def replacementPatch (data : Bytes) : Bytes :=
  IMGDIFF2 ++ leBytes 4 1 ++ leBytes 4 3 ++ leBytes 4 data.length ++ data

section

variable {data : Bytes}

theorem replacementPatch_length : (replacementPatch data).length = 20 + data.length := by
  simp only [replacementPatch, List.length_append, leBytes_length, IMGDIFF2, List.length_cons,
    List.length_nil]

theorem load_magic : load (replacementPatch data) 0 8 = .done IMGDIFF2 := by
  refine @load_of_append _ [] IMGDIFF2 (leBytes 4 1 ++ leBytes 4 3 ++ leBytes 4 data.length ++ data)
    _ _ ?_ rfl rfl
  simp [replacementPatch]

theorem read4_num_chunks : read4 (replacementPatch data) 8 = .done 1 := by
  have hload : load (replacementPatch data) 8 4 = .done (leBytes 4 1) := by
    refine @load_of_append _ IMGDIFF2 _ (leBytes 4 3 ++ leBytes 4 data.length ++ data) _ _ ?_ rfl rfl
    simp [replacementPatch]
  rw [read4, hload]
  show Outcome.done (wrap32 ((leNat (leBytes 4 1) : Nat) : Int)) = _
  rw [leNat_leBytes_of_lt (by norm_num), wrap32_of_range (by norm_num) (by norm_num)]
  rfl

theorem read4_type : read4 (replacementPatch data) 12 = .done CHUNK_RAW := by
  have hload : load (replacementPatch data) 12 4 = .done (leBytes 4 3) := by
    refine @load_of_append _ (IMGDIFF2 ++ leBytes 4 1) _ (leBytes 4 data.length ++ data) _ _ ?_ ?_ rfl
    · simp [replacementPatch]
    · simp [IMGDIFF2]
  rw [read4, hload]
  show Outcome.done (wrap32 ((leNat (leBytes 4 3) : Nat) : Int)) = _
  rw [leNat_leBytes_of_lt (by norm_num), wrap32_of_range (by norm_num) (by norm_num)]
  rfl

theorem read4_data_len (hlen : data.length < 2 ^ 31) :
    read4 (replacementPatch data) 16 = .done (data.length : Int) := by
  have hload : load (replacementPatch data) 16 4 = .done (leBytes 4 data.length) := by
    refine @load_of_append _ (IMGDIFF2 ++ leBytes 4 1 ++ leBytes 4 3) _ data _ _ ?_ ?_ ?_
    · simp [replacementPatch]
    · simp [IMGDIFF2]
    · simp
  rw [read4, hload]
  show Outcome.done (wrap32 ((leNat (leBytes 4 data.length) : Nat) : Int)) = _
  rw [leNat_leBytes_of_lt (by omega), wrap32_of_range (by omega) (by omega)]

theorem load_data : load (replacementPatch data) 20 data.length = .done data := by
  refine @load_of_append _ (IMGDIFF2 ++ leBytes 4 1 ++ leBytes 4 3 ++ leBytes 4 data.length) _ []
    _ _ ?_ ?_ rfl
  · simp [replacementPatch]
  · simp [IMGDIFF2]

/-- The record is applied when the sink takes the data. -/
theorem patchAttempt_raw (bz : Bz2) (z : Zlib) {o : Output} (fuel : Nat) (source : Bytes)
    (bonus_data : Option Bytes) (hlen : data.length < 2 ^ 31 - 20) {w w' : Written o}
    (hupdate : o.update w.ctx (replacementPatch data) 20 data.length = .done w'.ctx)
    (hsink : o.sink w.token (replacementPatch data) 20 data.length = .done (data.length, w'.token)) :
    patchAttempt bz z o fuel source (replacementPatch data) bonus_data w = .done (some (0, w')) := by
  have hsize := @replacementPatch_length data
  have hmagic : slice (replacementPatch data) 0 8 = IMGDIFF2 := by
    refine @slice_of_append _ [] IMGDIFF2
      (leBytes 4 1 ++ leBytes 4 3 ++ leBytes 4 data.length ++ data) _ _ ?_ rfl rfl
    simp [replacementPatch]
  have hpos : wrap32 ((16 : Int) + 4) = 20 := wrap32_of_range (by norm_num) (by norm_num)
  have hend : wrap32 ((20 : Int) + data.length) = 20 + data.length :=
    wrap32_of_range (by omega) (by omega)
  have hraw : rawChunk o (replacementPatch data) ⟨16, w⟩ = .done (0, ⟨20 + data.length, w'⟩) := by
    unfold rawChunk
    dsimp only
    rw [hpos, if_neg (by omega), read4_data_len (by omega), Outcome.done_bind, hend,
      if_neg (by omega), hupdate, Outcome.done_bind, hsink, Outcome.done_bind,
      if_neg (not_not.mpr rfl)]
  have hstep : chunkStep bz z o fuel source (replacementPatch data) bonus_data 0 ⟨12, w⟩ =
      .done (0, ⟨20 + data.length, w'⟩) := by
    have htype : wrap32 ((12 : Int) + 4) = 16 := wrap32_of_range (by norm_num) (by norm_num)
    unfold chunkStep
    dsimp only
    rw [htype, if_neg (by omega), read4_type, Outcome.done_bind, if_neg (by decide), if_pos rfl]
    exact hraw
  have happly : applyImagePatch bz z o fuel source (replacementPatch data) bonus_data w =
      .done (0, w') := by
    unfold applyImagePatch
    rw [if_neg (by omega), load_magic, Outcome.done_bind, if_neg (not_not.mpr rfl),
      read4_num_chunks, Outcome.done_bind]
    show (chunkLoop bz z o fuel source _ bonus_data 1 0 ⟨12, w⟩ >>= _) = _
    rw [chunkLoop, hstep]
    rfl
  unfold patchAttempt
  rw [hmagic, if_neg (fun h => absurd h.2 (by decide)), if_pos ⟨by omega, rfl⟩, happly]
  rfl

/-- One call of `write` that takes all the bytes. -/
theorem fileWrites_whole (hne : data ≠ []) :
    fileWrites data [(data.length : Int)] = ([data], []) := by
  have hpos := List.length_pos_of_ne_nil hne
  rw [fileWrites.eq_def]
  dsimp only
  rw [if_neg hne, if_neg (by omega), Int.toNat_natCast, List.drop_length, List.take_length]
  rfl

/-- It is applied to a file that takes all the data in one call of `write`. -/
theorem patchAttempt_replacement (bz : Bz2) (z : Zlib) (fuel : Nat) (source : Bytes)
    (bonus_data : Option Bytes) (hlen : data.length < 2 ^ 31 - 20) (hne : data ≠ []) :
    patchAttempt bz z .file fuel source (replacementPatch data) bonus_data
      (startFile [(data.length : Int)]) =
        .done (some (0, (⟨(⟨[data], []⟩ : FileToken), data⟩ : Written .file))) := by
  have hpos := List.length_pos_of_ne_nil hne
  refine patchAttempt_raw bz z fuel source bonus_data hlen ?_ ?_
  · show shaUpdate [] (replacementPatch data) 20 data.length = _
    rw [shaUpdate, loadRange, if_neg (by omega), Int.toNat_natCast, load_data]
    rfl
  · have hsink : sinkRange (replacementPatch data) 20 data.length = .done data := by
      rw [sinkRange, if_neg (by omega), Int.toNat_natCast, load_data]
    simp only [Output.file, startFile, hsink, Outcome.done_bind, fileWrites_whole hne, List.flatten_singleton,
      List.nil_append]

end

/-! ## A run that succeeds -/

section Runs

variable {env : Env} {a : Args} {s : Sources} {w : Storage} {data target_sha1 : Bytes}

theorem setFile_setFile (name : Bytes) (content content' : Option Bytes) :
    (w.setFile name content).setFile name content' = w.setFile name content' := by
  simp only [Storage.setFile, Function.update_idem]

/-- The storage behind the renaming, and behind the deletion of the copy. -/
def installed (a : Args) (data : Bytes) (made_copy : Bool) (w : Storage) : Storage :=
  let w := (w.setFile (outname a.target_filename) none).setFile a.target_filename (some data)
  if made_copy then w.setFile CACHE_TEMP_SOURCE none else w

variable (hfile : isPartition a.target_filename = false)

include hfile

/-- There is enough space, so the source stays where it is. -/
theorem prepare_runs {step : Storage → (o : Op) → Ans o → Storage → Prop}
    {sf : Option (Nat × Nat)} (hsf : step w (.statfs (targetFs a.target_filename)) sf w)
    (henough : enoughSpace (freeSpace sf) a.target_size = true) :
    (prepare a s 1 false).Runs step w (some (1, false)) w := by
  unfold prepare
  rw [hfile, if_neg Bool.false_ne_true]
  refine ⟨sf, w, hsf, ?_⟩
  show (if enoughSpace (freeSpace sf) a.target_size = true then Prog.ret (some (1, false))
    else _).Runs _ _ _ _
  rw [if_pos henough]
  exact ⟨rfl, rfl⟩

omit hfile in
theorem appendAll_runs {name : Bytes} : ∀ (writes : List Bytes) (c : Bytes),
    (appendAll name writes).Runs Step (w.setFile name (some c)) ()
      (w.setFile name (some (c ++ writes.flatten)))
  | [], c => by
    rw [List.flatten_nil, List.append_nil]
    exact ⟨rfl, rfl⟩
  | d :: writes, c => by
    rw [List.flatten_cons, ← List.append_assoc]
    refine ⟨(), _, .append _ _, ?_⟩
    rw [setFile_self, setFile_setFile]
    exact appendAll_runs writes (c ++ d)

/-- The output gets what the decoder passes to `write`. -/
theorem decode_runs_of_attempt {source patch : Bytes} (script : List Int) {result : Int}
    {out : Written .file}
    (hrun : patchAttempt env.bz env.z .file env.fuel source patch a.bonus_data (startFile script) =
      .done (some (result, out))) :
    (decode env a source patch).Runs Step w (some (result, ⟨out.ctx, []⟩))
      (w.setFile (outname a.target_filename) (some (FileToken.stored out.token))) := by
  unfold decode
  rw [hfile, if_neg Bool.false_ne_true]
  refine ⟨true, _, .openTrunc_ok _, script, _, .writeResults _, ?_⟩
  show (fileDecoded a (patchAttempt env.bz env.z .file env.fuel source patch a.bonus_data
    (startFile script))).Runs _ _ _ _
  rw [hrun]
  exact (appendAll_runs (FileToken.writes out.token) []).bind ⟨(), _, .fsync _, rfl, rfl⟩

theorem decode_runs (source : Bytes) (hlen : data.length < 2 ^ 31 - 20) (hne : data ≠ []) :
    (decode env a source (replacementPatch data)).Runs Step w (some (0, ⟨data, []⟩))
      (w.setFile (outname a.target_filename) (some data)) := by
  have hrun := @decode_runs_of_attempt env a w hfile source _ [(data.length : Int)] _ _
    (patchAttempt_replacement env.bz env.z env.fuel source a.bonus_data hlen hne)
  have hstored : FileToken.stored ⟨[data], []⟩ = data := List.flatten_singleton
  dsimp only at hrun
  rw [hstored] at hrun
  exact hrun

/-- The output is installed when the hash of what was decoded is right. -/
theorem finish_runs {d : Decoded} (hsha : env.sha d.ctx = target_sha1) {made_copy : Bool}
    (hout : w.files (outname a.target_filename) = some data) :
    (finish env a s target_sha1 d made_copy).Runs Step w 0 (installed a data made_copy w) := by
  unfold finish
  rw [if_neg (not_not.mpr hsha)]
  unfold install
  rw [hfile, if_neg Bool.false_ne_true]
  refine ⟨true, _, .chmod _ _ _, true, _, .chown _ _ _ _, true, _, .rename_ok hout, ?_⟩
  cases made_copy with
  | false => exact ⟨rfl, rfl⟩
  | true => exact ⟨(), _, .unlink_ok _, rfl, rfl⟩

/-- The first try succeeds when it gets past its preparation and its decoder. -/
theorem generateTarget_runs_of_decode {d : Decoded} (hsha : env.sha d.ctx = target_sha1)
    {w₁ : Storage} {retry : Nat} {made_copy : Bool}
    (hprepare : (prepare a s 1 false).Runs Step w (some (retry, made_copy)) w₁)
    (hdecode : (decodeSource env a s).Runs Step w₁ (some (0, d))
      (w₁.setFile (outname a.target_filename) (some data))) :
    (generateTarget env a s target_sha1).Runs Step w 0
      (installed a data made_copy (w₁.setFile (outname a.target_filename) (some data))) := by
  have hturn : (turns env a s 1).Runs Step w (some (d, made_copy))
      (w₁.setFile (outname a.target_filename) (some data)) :=
    hprepare.bind (hdecode.bind ⟨rfl, rfl⟩)
  exact hturn.bind (finish_runs hfile hsha setFile_self)

/-- The first try succeeds when it gets past its preparation. -/
theorem generateTarget_runs (hsha : env.sha data = target_sha1) (hlen : data.length < 2 ^ 31 - 20)
    (hne : data ≠ []) {source_to_use : FileContents}
    (huse : s.toUse = (source_to_use, some ⟨true, replacementPatch data⟩)) {w₁ : Storage}
    {retry : Nat} {made_copy : Bool}
    (hprepare : (prepare a s 1 false).Runs Step w (some (retry, made_copy)) w₁) :
    (generateTarget env a s target_sha1).Runs Step w 0
      (installed a data made_copy (w₁.setFile (outname a.target_filename) (some data))) := by
  have hdecode : (decodeSource env a s).Runs Step w₁ (some (0, ⟨data, []⟩))
      (w₁.setFile (outname a.target_filename) (some data)) := by
    unfold decodeSource
    rw [huse]
    exact decode_runs hfile _ hlen hne
  exact generateTarget_runs_of_decode hfile (d := ⟨data, []⟩) hsha hprepare hdecode

end Runs

/-! ## Arguments with such a patch -/

/-- A hash that tells the new contents from the source, and both from all others. -/
def demoSha (data source c : Bytes) : Bytes :=
  if c = data then List.replicate 20 0
  else if c = source then List.replicate 20 1
  else List.replicate 20 2

/-- Libraries that are not called. -/
def demoEnv (data source : Bytes) : Env where
  bz := (DecodingBz2.ofTable ⟨[], by simp, by simp⟩).toBz2
  z := .failing
  sha := demoSha data source
  fuel := 0

/-- The arguments for a source that is replaced by `data`. -/
def demoArgs (data source_filename target_filename : Bytes) : Args where
  source_filename := source_filename
  target_filename := target_filename
  target_sha1_str := List.replicate 40 48
  target_size := data.length
  patches := [((List.replicate 20 [48, 49]).flatten, ⟨true, replacementPatch data⟩)]
  bonus_data := none

/-- The values of the variables of `applypatch` before they are set. -/
def demoStack : FileContents := ⟨none, 0, [], ⟨0, 0, 0⟩⟩

section Demo

variable {data source source_filename target_filename : Bytes}

theorem parseSha1_target : parseSha1 (List.replicate 40 48) = some (List.replicate 20 0) := by
  decide

theorem findMatchingPatch_source :
    findMatchingPatch (List.replicate 20 1) (demoArgs data source_filename target_filename).patches =
      some ⟨true, replacementPatch data⟩ := by
  have hparse : parseSha1 (List.replicate 20 [48, 49]).flatten = some (List.replicate 20 1) := by
    decide
  unfold findMatchingPatch demoArgs
  rw [List.find?_cons_of_pos (by rw [hparse]; decide)]
  rfl

theorem findMatchingPatch_other :
    findMatchingPatch (List.replicate 20 2) (demoArgs data source_filename target_filename).patches =
      none := by
  have hparse : parseSha1 (List.replicate 20 [48, 49]).flatten = some (List.replicate 20 1) := by
    decide
  unfold findMatchingPatch demoArgs
  rw [List.find?_cons_of_neg (by rw [hparse]; decide)]
  rfl

/-- A source without retouch data, as it is loaded. -/
def loadedSource (source : Bytes) (st : Stat) : FileContents :=
  ⟨some source, source.length, List.replicate 20 1, st⟩

theorem loadedFile_source (hne : source ≠ data) (hplain : Retouch.tagged source = false)
    (file : FileContents) (st : Stat) :
    loadedFile (demoEnv data source).sha true file (.ok source st) =
      (0, loadedSource source st) := by
  have hsha : (demoEnv data source).sha source = List.replicate 20 1 := by
    show demoSha data source source = _
    rw [demoSha, if_neg hne, if_pos rfl]
  have hload : Retouch.LoadFileContents (demoEnv data source).sha source true =
      some (source, List.replicate 20 1) := by
    rw [Retouch.loadFileContents_plain hplain, hsha]
  simp only [loadedFile, hload]
  rfl

end Demo

end BootableRecovery.Applypatch
