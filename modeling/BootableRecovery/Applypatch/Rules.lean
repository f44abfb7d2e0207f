import BootableRecovery.Applypatch.Frames

/-!
# Rules for `GenerateTarget` and `applypatch`

* `applypatchTo_always` tells what has to be shown so that a property holds all along a run
  of `applypatch`: the run ends early, or `generateTarget` is started with a source that is
  there and a patch that is listed for it (`Usable`).
* `generateTarget_file`: a target file has what the decoder has written (`TargetWritten`).
-/

namespace BootableRecovery.Applypatch

variable {env : Env} {a : Args} {s : Sources} {w : Storage}

/-! ## The source and its patch -/

/-- The first patch that is listed for a hash. -/
def Matches (a : Args) (sha1 : Bytes) (patch : Value) : Prop :=
  findMatchingPatch sha1 a.patches = some patch

/-- The file was loaded from `filename`, and `patch` is the patch for it. -/
def Source (env : Env) (a : Args) (w : Storage) (filename : Bytes) (file : FileContents)
    (patch : Value) : Prop :=
  ∃ data, Holds env.sha file data ∧ Loads env.sha w filename data ∧
    Matches a (env.sha data) patch

/-- What `generateTarget` is started with: the source, or the copy in the cache without the
data of the source. -/
inductive Usable (env : Env) (a : Args) (w : Storage) (s : Sources) : Prop where
  | source {patch : Value} : s.source_patch_value = some patch →
      Source env a w a.source_filename s.source_file patch → Usable env a w s
  | copy {patch : Value} : s.source_patch_value = none → s.source_file.data = none →
      s.copy_patch_value = some patch →
      Source env a w CACHE_TEMP_SOURCE s.copy_file patch → Usable env a w s

/-- A file with data has what loading `filename` gives. -/
def FromFile (env : Env) (w : Storage) (filename : Bytes) (file : FileContents) : Prop :=
  ∀ data, file.data = some data → Holds env.sha file data ∧ Loads env.sha w filename data

theorem LoadResult.fromFile {filename : Bytes} {r : Int × FileContents}
    (h : LoadResult env.sha w filename r) : FromFile env w filename r.2 := by
  intro data hdata
  rcases h with ⟨-, data', hholds, hloads⟩ | ⟨-, hnone⟩
  · have heq := hholds.data_eq
    rw [hdata] at heq
    obtain rfl := Option.some.inj heq
    exact ⟨hholds, hloads⟩
  · rw [hnone] at hdata
    cases hdata

theorem patchFor_some {filename : Bytes} {file : FileContents} {patch : Value}
    (hfile : FromFile env w filename file) (h : patchFor a file = some patch) :
    Source env a w filename file patch := by
  unfold patchFor at h
  cases hdata : file.data with
  | none =>
    rw [hdata] at h
    cases h
  | some data =>
    rw [hdata] at h
    obtain ⟨hholds, hloads⟩ := hfile data hdata
    refine ⟨data, hholds, hloads, ?_⟩
    rw [Matches, ← hholds.sha1_eq]
    exact h

theorem loadSource_always {file : FileContents}
    (hfile : FromFile env w a.target_filename file) :
    (loadSource env a file).Always Step (· = w)
      (fun file _ => FromFile env w a.source_filename file) w := by
  unfold loadSource
  split_ifs with hload
  · refine loadFileContents_always.bind fun r w' hw hr => ⟨hw, ?_⟩
    exact hr.fromFile
  · refine ⟨rfl, ?_⟩
    have hsame : a.target_filename = a.source_filename := by
      by_contra hne
      exact hload (.inr hne)
    rwa [← hsame]

/-- A run of `applypatch` ends before anything is changed, or gets to `generateTarget`. The
operations can be restricted in any way. -/
theorem applypatchTo_always {step : Storage → (o : Op) → Ans o → Storage → Prop}
    (hsub : ∀ w o x w', step w o x w' → Step w o x w') {stack : FileContents}
    {target_sha1 : Bytes} {I : Storage → Prop} {R : Int → Storage → Prop} (hI : I w)
    (halready : ∀ data, Loads env.sha w a.target_filename data → env.sha data = target_sha1 →
      R 0 w)
    (herror : R 1 w)
    (hgen : ∀ s, Usable env a w s → (generateTarget env a s target_sha1).Always step I R w) :
    (applypatchTo env a stack target_sha1).Always step I R w := by
  refine (loadFileContents_always.of_step hsub).bind_const hI fun r hr => ?_
  split_ifs with hdone
  · obtain ⟨hret, hsha⟩ := hdone
    rcases hr with ⟨-, data, hholds, hloads⟩ | ⟨hret', -⟩
    · exact ⟨hI, halready data hloads (hholds.sha1_eq ▸ hsha)⟩
    · omega
  refine ((loadSource_always hr.fromFile).of_step hsub).bind_const hI fun source_file hsource => ?_
  unfold patchFrom
  cases hpatch : patchFor a source_file with
  | some patch => exact hgen _ (.source rfl (patchFor_some hsource hpatch))
  | none =>
    refine (loadFileContents_always.of_step hsub).bind_const hI fun r hr => ?_
    split_ifs with hneg
    · exact ⟨hI, herror⟩
    cases hcopy : patchFor a r.2 with
    | none => exact ⟨hI, herror⟩
    | some patch => exact hgen _ (.copy rfl rfl rfl (patchFor_some hr.fromFile hcopy))

/-! ## The start of a run -/

section Start

theorem loadFileContents_file {filename : Bytes} (hfile : isPartition filename = false)
    {file : FileContents} :
    loadFileContents env.sha filename file true =
      (perform (.readFile filename) >>= fun r =>
        Prog.ret (loadedFile env.sha true { file with data := none } r)) := by
  unfold loadFileContents
  rw [hfile]
  rfl

variable {step : Storage → (o : Op) → Ans o → Storage → Prop} {stack : FileContents}
  {target_sha1 : Bytes} {ret : Int} {w' : Storage}

theorem applypatch_runs (hname : a.target_filename ≠ ascii "-")
    (hparse : parseSha1 a.target_sha1_str = some target_sha1)
    (h : (applypatchTo env a stack target_sha1).Runs step w ret w') :
    (applypatch env a stack).Runs step w ret w' := by
  unfold applypatch
  rw [hparse, resolve, if_neg hname]
  exact h

/-- The target file was read and does not have the hash. -/
theorem applypatchTo_runs (hfile : isPartition a.target_filename = false) {r : FileRead}
    (hread : step w (.readFile a.target_filename) r w) {loaded : Int × FileContents}
    (hload : loadedFile env.sha true { stack with data := none } r = loaded)
    (hnot : ¬(loaded.1 = 0 ∧ loaded.2.sha1 = target_sha1))
    (hrest : (loadSource env a loaded.2 >>= fun source_file =>
      patchFrom env a stack target_sha1 source_file).Runs step w ret w') :
    (applypatchTo env a stack target_sha1).Runs step w ret w' := by
  unfold applypatchTo
  rw [loadFileContents_file hfile]
  refine ⟨r, w, hread, ?_⟩
  show Prog.Runs step (if (loadedFile env.sha true { stack with data := none } r).1 = 0 ∧ _
    then _ else _ : Run Int) _ _ _
  rw [hload, if_neg hnot]
  exact hrest

/-- The target that was loaded is the source. -/
theorem loadSource_same {file : FileContents} (hdata : file.data ≠ none)
    (hsame : a.target_filename = a.source_filename) :
    loadSource env a file = Prog.ret file := by
  unfold loadSource
  rw [if_neg]
  rintro (hnone | hne)
  · exact hdata hnone
  · exact hne hsame

end Start

/-! ## A target file -/

theorem askSpace_always {retry : Nat} :
    (askSpace a retry).Always Step (· = w) (fun _ _ => True) w := by
  unfold askSpace
  split_ifs with hretry
  · refine ⟨rfl, fun sf w₁ hstep => ?_⟩
    cases hstep
    exact ⟨rfl, trivial⟩
  · exact ⟨rfl, trivial⟩

section Output

variable (hfile : isPartition a.target_filename = false)

include hfile

variable {step : Storage → (o : Op) → Ans o → Storage → Prop}
  (hsub : ∀ w o x w', step w o x w' → Step w o x w')

include hsub

/-- Only the output is written, and nothing is read from it that was not opened. -/
theorem decodeSource_output {P : Prop}
    (hopen : ∀ w w', step w (.openTrunc (outname a.target_filename)) true w' → P) :
    (decodeSource env a s).Always step
      (fun w' => w' = w ∨ P ∧ SameBut (outname a.target_filename) w w')
      (fun r w' => ∀ ret d, r = some (ret, d) → P ∧ ∃ source patch,
        FileDecoded env a source patch ret d w') w := by
  unfold decodeSource
  rcases s.toUse with ⟨source_to_use, _ | patch⟩
  · exact crash_always (.inl rfl)
  dsimp only
  split_ifs with hblob
  · unfold decode
    rw [hfile, if_neg Bool.false_ne_true]
    refine ⟨.inl rfl, fun opened w₁ hstep => ?_⟩
    cases opened with
    | false =>
      obtain rfl : w₁ = w := by cases hsub _ _ _ _ hstep; rfl
      exact ⟨.inl rfl, fun _ _ h => by cases h⟩
    | true =>
      have hP := hopen _ _ hstep
      obtain rfl : w₁ = w.setFile (outname a.target_filename) (some []) := by
        cases hsub _ _ _ _ hstep
        rfl
      have hdecode := @decodeToFile_always env a w (source_to_use.data.getD []) patch.data _
        (SameBut.setFile w _ _) setFile_self
      refine ((hdecode.of_step hsub).weaken fun w' hw' => .inr ⟨hP, hw'⟩).mono ?_
      exact fun r w' _ hr ret d h => ⟨hP, _, _, hr ret d h⟩
  · exact ⟨.inl rfl, fun _ _ h => by cases h⟩

/-- The output is renamed, or nothing is changed. -/
theorem install_always {d : Decoded} :
    (install a s d).Always step
      (fun w' => w' = w ∨ step w (.rename (outname a.target_filename) a.target_filename) true w')
      (fun r w' => r = 0 →
        step w (.rename (outname a.target_filename) a.target_filename) true w') w := by
  unfold install
  rw [hfile, if_neg Bool.false_ne_true]
  refine ⟨.inl rfl, fun moded w₁ hstep => ?_⟩
  obtain rfl : w₁ = w := by cases hsub _ _ _ _ hstep; rfl
  cases moded with
  | false => exact ⟨.inl rfl, fun h => absurd h (by decide)⟩
  | true =>
    refine ⟨.inl rfl, fun owned w₂ hstep => ?_⟩
    obtain rfl : w₂ = w₁ := by cases hsub _ _ _ _ hstep; rfl
    cases owned with
    | false => exact ⟨.inl rfl, fun h => absurd h (by decide)⟩
    | true =>
      refine ⟨.inl rfl, fun renamed w₃ hstep => ?_⟩
      cases renamed with
      | false =>
        obtain rfl : w₃ = w₂ := by cases hsub _ _ _ _ hstep; rfl
        exact ⟨.inl rfl, fun h => absurd h (by decide)⟩
      | true => exact ⟨.inr hstep, fun _ => hstep⟩

end Output

/-! ## What success leaves -/

section Success

variable {step : Storage → (o : Op) → Ans o → Storage → Prop} {P : Decoded → Storage → Prop}
  {T : Storage → Prop}

theorem turn_always {retry : Nat} {made_copy : Bool} {again : Run (Option (Decoded × Bool))}
    (hdecode : ∀ w, (decodeSource env a s).Always step (fun _ => True)
      (fun r w' => ∀ d, r = some (0, d) → P d w') w)
    (hagain : ∀ w, again.Always step (fun _ => True)
      (fun r w' => ∀ d copied, r = some (d, copied) → P d w') w) :
    (turn env a s retry made_copy again).Always step (fun _ => True)
      (fun r w' => ∀ d copied, r = some (d, copied) → P d w') w := by
  refine (Prog.Always.trivial (prepare a s retry made_copy) w).bind fun prepared w₁ _ _ => ?_
  rcases prepared with _ | ⟨retry', made_copy'⟩
  · exact ⟨trivial, fun _ _ h => by cases h⟩
  refine (hdecode w₁).bind fun decoded w₂ _ hdecoded => ?_
  rcases decoded with _ | ⟨result, d⟩
  · exact ⟨trivial, fun _ _ h => by cases h⟩
  dsimp only
  split_ifs with hresult
  · unfold tryAgain
    split_ifs with hretry
    · exact ⟨trivial, fun _ _ h => by cases h⟩
    · exact (Prog.Always.trivial (dropOutput a) w₂).bind fun _ w₃ _ _ => hagain w₃
  · refine ⟨trivial, fun d' copied h => ?_⟩
    cases h
    obtain rfl := not_not.mp hresult
    exact hdecoded d rfl

theorem turns_always (n : Nat)
    (hdecode : ∀ w, (decodeSource env a s).Always step (fun _ => True)
      (fun r w' => ∀ d, r = some (0, d) → P d w') w) :
    (turns env a s n).Always step (fun _ => True)
      (fun r w' => ∀ d copied, r = some (d, copied) → P d w') w := by
  induction n generalizing w with
  | zero => exact turn_always hdecode fun w => ⟨trivial, fun _ _ h => by cases h⟩
  | succ n ih => exact turn_always hdecode fun w => ih

/-- What holds after success: the installation of a decoded output brings it about, and the
deletion of the copy keeps it. -/
theorem generateTarget_always {target_sha1 : Bytes}
    (hdecode : ∀ w, (decodeSource env a s).Always step (fun _ => True)
      (fun r w' => ∀ d, r = some (0, d) → P d w') w)
    (hinstall : ∀ w d, env.sha d.ctx = target_sha1 → P d w →
      (install a s d).Always step (fun _ => True) (fun r w' => r = 0 → T w') w)
    (hcopy : ∀ w w', T w → step w (.unlink CACHE_TEMP_SOURCE) () w' → T w') :
    (generateTarget env a s target_sha1).Always step (fun _ => True) (fun r w' => r = 0 → T w') w := by
  refine (turns_always 1 hdecode).bind fun r w₁ _ hr => ?_
  rcases r with _ | ⟨d, made_copy⟩
  · exact ⟨trivial, fun h => absurd h (by decide)⟩
  show (finish env a s target_sha1 d made_copy).Always _ _ _ _
  unfold finish
  split_ifs with hsha
  · exact ⟨trivial, fun h => absurd h (by decide)⟩
  refine (hinstall w₁ d (not_not.mp hsha) (hr d made_copy rfl)).bind fun r w₂ _ hr => ?_
  split_ifs with hret
  · exact ⟨trivial, fun h => absurd h hret⟩
  have hdone := hr (not_not.mp hret)
  unfold removeCopy
  split_ifs with hmade
  · exact ⟨trivial, fun _ w₃ hstep => ⟨trivial, fun _ => hcopy w₂ w₃ hdone hstep⟩⟩
  · exact ⟨trivial, fun _ => hdone⟩

end Success

/-- The file has what a decoder has written that returned 0 and hashed `target_sha1`. -/
def TargetWritten (env : Env) (a : Args) (target_sha1 : Bytes) (w : Storage) : Prop :=
  ∃ source patch script out, patchAttempt env.bz env.z .file env.fuel source patch a.bonus_data
      (startFile script) = .done (some (0, out)) ∧ env.sha out.ctx = target_sha1 ∧
    w.files a.target_filename = some (FileToken.stored out.token)

/-- A decoder returned 0 and has left its output. -/
def OutputWritten (env : Env) (a : Args) (d : Decoded) (w : Storage) : Prop :=
  ∃ source patch, FileDecoded env a source patch 0 d w

theorem outname_ne (target_filename : Bytes) : target_filename ≠ outname target_filename := by
  intro h
  have hlen := congrArg List.length h
  rw [outname, List.length_append] at hlen
  exact absurd hlen (by simp [ascii])

section File

variable (hfile : isPartition a.target_filename = false)

include hfile

theorem decodeSource_file :
    (decodeSource env a s).Always Step (fun _ => True)
      (fun r w' => ∀ d, r = some (0, d) → OutputWritten env a d w') w := by
  have hdecode := @decodeSource_output env a s w hfile Step (fun _ _ _ _ h => h) True
    fun _ _ _ => trivial
  exact (hdecode.weaken fun _ _ => trivial).mono fun r w' _ hr d h => (hr 0 d h).2

theorem install_file {d : Decoded} {target_sha1 : Bytes} (hsha : env.sha d.ctx = target_sha1)
    (hd : OutputWritten env a d w) :
    (install a s d).Always Step (fun _ => True)
      (fun r w' => r = 0 → TargetWritten env a target_sha1 w') w := by
  obtain ⟨source, patch, script, out, hrun, hctx, hout⟩ := hd
  have hinstall := @install_always a s w hfile Step (fun _ _ _ _ h => h) d
  refine (hinstall.weaken fun _ _ => trivial).mono fun r w' _ hr hret => ?_
  cases hr hret with
  | rename_ok h =>
    refine ⟨source, patch, script, out, hrun, hctx ▸ hsha, ?_⟩
    rw [setFile_self, ← h, hout]

/-- After success the target file has what was written. When it is `CACHE_TEMP_SOURCE`, it
can have been deleted as the copy. -/
theorem generateTarget_file {target_sha1 : Bytes} :
    (generateTarget env a s target_sha1).Always Step (fun _ => True)
      (fun r w' => r = 0 → a.target_filename ≠ CACHE_TEMP_SOURCE →
        TargetWritten env a target_sha1 w') w := by
  refine generateTarget_always (fun w => decodeSource_file hfile) (fun w d hsha hd => ?_) ?_
  · exact (install_file hfile hsha hd).mono fun _ _ _ hr hret _ => hr hret
  · intro w w' hw hstep hne
    obtain ⟨source, patch, script, out, hrun, hctx, hout⟩ := hw hne
    refine ⟨source, patch, script, out, hrun, hctx, ?_⟩
    cases hstep with
    | unlink_ok => rwa [setFile_of_ne hne]
    | unlink_fails => exact hout

end File

end BootableRecovery.Applypatch
