import BootableRecovery.Applypatch.Replacement
import BootableRecovery.Applypatch.Rules

/-!
# Calling `applypatch` again

The first call accepts the hash of what the decoder puts out, the second one the hash of
the target file after `retouch_mask_data`.

* `Repeats`: a call in which nothing fails returns 0 and changes nothing.
* `applypatch_repeats_iff`: after a successful call this is so exactly when the masked
  contents of the target file have the hash (`TargetAccepted`).
* `applypatch_repeats_library`: an output with retouch data for which it is not so.
-/

namespace BootableRecovery.Applypatch

/-! ## A call in which nothing fails -/

/-- The operation does not fail, as far as it can succeed. -/
def Succeeds (w : Storage) : (o : Op) → Ans o → Storage → Prop
  | .readFile name, r, _ => ∀ data, w.files name = some data → ∃ st, r = .ok data st
  | .openPartition _ _, found, _ => found = true
  | .readPartition type partition pos n, read, _ =>
    read = none → (w.parts type partition).length < pos + n
  | .statfs _, sf, _ => sf ≠ none
  | .openTrunc _, opened, _ => opened = true
  | .chmod _ _, moded, _ => moded = true
  | .chown _ _ _, owned, _ => owned = true
  | .rename old _, renamed, _ => w.files old ≠ none → renamed = true
  | .unlink name, _, w' => w' = w.setFile name none
  | .beginWrite _ _, opened, _ => opened = true
  | .finishWrite _ _ _, written, _ => written = true
  | _, _, _ => True

def FaultlessStep (w : Storage) (o : Op) (x : Ans o) (w' : Storage) : Prop :=
  Step w o x w' ∧ Succeeds w o x w'

section Model

variable (env : Env) (a : Args)

/-- Calls in which nothing fails come to an end, return 0 and change nothing on the way. -/
def Repeats (w : Storage) : Prop :=
  ∀ stack, (applypatch env a stack).Ensures FaultlessStep (· = w) (fun r _ => r = 0) w

/-- The target file is loaded with the hash of the arguments. -/
def TargetAccepted (w : Storage) : Prop :=
  ∃ target_sha1 content data, parseSha1 a.target_sha1_str = some target_sha1 ∧
    w.files (resolve a).target_filename = some content ∧
    Retouch.LoadFileContents env.sha content true = some (data, target_sha1)

end Model

variable {env : Env} {a : Args} {s : Sources} {w : Storage}

section File

variable (hfile : isPartition a.target_filename = false)

include hfile

/-- An accepted target is loaded, and that is all. -/
theorem applypatchTo_accepted {stack : FileContents} {target_sha1 content data : Bytes}
    (hcontent : w.files a.target_filename = some content)
    (hload : Retouch.LoadFileContents env.sha content true = some (data, target_sha1)) :
    (applypatchTo env a stack target_sha1).Ensures FaultlessStep (· = w) (fun r _ => r = 0) w := by
  unfold applypatchTo
  rw [loadFileContents_file hfile]
  refine ⟨rfl, ⟨.ok content ⟨0, 0, 0⟩, w, .readFile_ok _ hcontent, fun d hd => ?_⟩, ?_⟩
  · obtain rfl := Option.some.inj (hcontent.symm.trans hd)
    exact ⟨_, rfl⟩
  · intro r w' hstep
    obtain ⟨hstep, hok⟩ := hstep
    obtain ⟨st, rfl⟩ := hok content hcontent
    cases hstep
    have hloaded : loadedFile env.sha true { stack with data := none } (.ok content st) =
        (0, ⟨some data, data.length, target_sha1, st⟩) := by
      simp only [loadedFile, hload]
    show Prog.Ensures _ _ _ (if (loadedFile env.sha true { stack with data := none }
      (.ok content st)).1 = 0 ∧ _ then _ else _) w
    rw [hloaded, if_pos ⟨rfl, rfl⟩]
    exact ⟨rfl, rfl⟩

end File

/-! ## A call that does not stop there -/

/-- The call does not come to its end, fails, or changes something. -/
def NotKept (w : Storage) (p : Run Int) : Prop :=
  ¬p.Ensures FaultlessStep (· = w) (fun r _ => r = 0) w

theorem notKept_error {r : Int} (h : r ≠ 0) : NotKept w (Prog.ret r) := fun hens => h hens.2

theorem notKept_bind {α : Type} {p : Run α} {f : α → Run Int}
    (h : ∀ x, p.Runs FaultlessStep w x w → NotKept w (f x)) : NotKept w (p >>= f) := by
  intro hens
  obtain ⟨x, w', hrun, hrest⟩ := hens.of_bind
  obtain rfl : w' = w := hrest.always.here
  exact h x hrun hrest

theorem notKept_op {o : Op} {k : Ans o → Run Int} {x : Ans o} {w' : Storage}
    (hstep : FaultlessStep w o x w') (h : w' = w → NotKept w (k x)) : NotKept w (.op o k) := by
  intro hens
  have hrest := hens.2.2 x w' hstep
  obtain rfl : w' = w := hrest.always.here
  exact h rfl hrest

/-- The output is renamed, or there is none. -/
theorem finish_notKept (hfile : isPartition a.target_filename = false) {target_sha1 : Bytes}
    {d : Decoded} {made_copy : Bool} : NotKept w (finish env a s target_sha1 d made_copy) := by
  unfold finish
  split_ifs with hsha
  · exact notKept_error (by decide)
  unfold install
  rw [hfile, if_neg Bool.false_ne_true]
  refine notKept_op ⟨.chmod _ _ true, rfl⟩ fun _ => ?_
  refine notKept_op ⟨.chown _ _ _ true, rfl⟩ fun _ => ?_
  cases hout : w.files (outname a.target_filename) with
  | none =>
    refine notKept_op ⟨.rename_fails _ _, fun hne => absurd hout hne⟩ fun _ => ?_
    exact notKept_error (by decide)
  | some data =>
    refine notKept_op ⟨.rename_ok hout, fun _ => rfl⟩ fun hsame => ?_
    have hgone := congrFun (congrArg Storage.files hsame) (outname a.target_filename)
    rw [setFile_of_ne (outname_ne a.target_filename).symm, setFile_self, hout] at hgone
    cases hgone

theorem generateTarget_notKept (hfile : isPartition a.target_filename = false)
    {target_sha1 : Bytes} : NotKept w (generateTarget env a s target_sha1) := by
  refine notKept_bind fun r _ => ?_
  rcases r with _ | ⟨d, made_copy⟩
  · exact notKept_error (by decide)
  · exact finish_notKept hfile

theorem patchFrom_notKept (hfile : isPartition a.target_filename = false) {target_sha1 : Bytes}
    {stack source_file : FileContents} :
    NotKept w (patchFrom env a stack target_sha1 source_file) := by
  unfold patchFrom
  cases patchFor a source_file with
  | some patch => exact generateTarget_notKept hfile
  | none =>
    refine notKept_bind fun r _ => ?_
    split_ifs with hneg
    · exact notKept_error (by decide)
    cases patchFor a r.2 with
    | none => exact notKept_error (by decide)
    | some patch => exact generateTarget_notKept hfile

/-- Without an accepted target the call goes on to patch it. -/
theorem applypatchTo_notKept (hfile : isPartition a.target_filename = false)
    {stack : FileContents} {target_sha1 : Bytes}
    (hnot : ∀ content data, w.files a.target_filename = some content →
      Retouch.LoadFileContents env.sha content true ≠ some (data, target_sha1)) :
    NotKept w (applypatchTo env a stack target_sha1) := by
  obtain ⟨r, hstep, hr⟩ : ∃ r, FaultlessStep w (.readFile a.target_filename) r w ∧
      ¬((loadedFile env.sha true { stack with data := none } r).1 = 0 ∧
        (loadedFile env.sha true { stack with data := none } r).2.sha1 = target_sha1) := by
    cases hcontent : w.files a.target_filename with
    | none =>
      refine ⟨.statFails, ⟨.readFile_statFails _, fun d hd => ?_⟩, ?_⟩
      · rw [hcontent] at hd
        cases hd
      · exact fun h => absurd (show (-1 : Int) = 0 from h.1) (by decide)
    | some content =>
      refine ⟨.ok content ⟨0, 0, 0⟩, ⟨.readFile_ok _ hcontent, fun d hd => ?_⟩, ?_⟩
      · obtain rfl := Option.some.inj (hcontent.symm.trans hd)
        exact ⟨_, rfl⟩
      · cases hload : Retouch.LoadFileContents env.sha content true with
        | none =>
          simp only [loadedFile, hload]
          exact fun h => absurd h.1 (by decide)
        | some loaded =>
          obtain ⟨data, sha1⟩ := loaded
          simp only [loadedFile, hload]
          rintro ⟨-, rfl⟩
          exact hnot content data hcontent hload
  unfold applypatchTo
  rw [loadFileContents_file hfile]
  refine notKept_op hstep fun _ => ?_
  show NotKept w (if (loadedFile env.sha true { stack with data := none } r).1 = 0 ∧ _ then _ else _)
  rw [if_neg hr]
  exact notKept_bind fun source_file _ => patchFrom_notKept hfile

/-- Another call changes nothing and succeeds exactly when the target is accepted. -/
theorem repeats_iff (hfile : isPartition (resolve a).target_filename = false) :
    Repeats env a w ↔ TargetAccepted env a w := by
  constructor
  · intro h
    have hcall := h ⟨none, 0, [], ⟨0, 0, 0⟩⟩
    unfold applypatch at hcall
    cases hparse : parseSha1 a.target_sha1_str with
    | none =>
      rw [hparse] at hcall
      exact absurd (show (1 : Int) = 0 from hcall.2) (by decide)
    | some target_sha1 =>
      rw [hparse] at hcall
      by_contra hnot
      refine applypatchTo_notKept hfile (fun content data hcontent hload => hnot ?_) hcall
      exact ⟨target_sha1, content, data, hparse, hcontent, hload⟩
  · rintro ⟨target_sha1, content, data, hparse, hcontent, hload⟩ stack
    unfold applypatch
    rw [hparse]
    exact applypatchTo_accepted hfile hcontent hload

/-- A file without retouch data is accepted by its own hash. -/
theorem targetAccepted_of_plain {target_sha1 content : Bytes}
    (hparse : parseSha1 a.target_sha1_str = some target_sha1)
    (hcontent : w.files (resolve a).target_filename = some content)
    (hplain : Retouch.tagged content = false) (hsha : env.sha content = target_sha1) :
    TargetAccepted env a w := by
  refine ⟨target_sha1, content, content, hparse, hcontent, ?_⟩
  rw [Retouch.loadFileContents_plain hplain, hsha]

/-- What a successful call leaves in the target file: contents that are accepted, or what the
decoder has written. -/
def LeavesTarget (env : Env) (a : Args) (w : Storage) : Prop :=
  TargetAccepted env a w ∨ (resolve a).target_filename = CACHE_TEMP_SOURCE ∨
    ∃ target_sha1, parseSha1 a.target_sha1_str = some target_sha1 ∧
      TargetWritten env (resolve a) target_sha1 w

theorem applypatch_leaves (hfile : isPartition (resolve a).target_filename = false)
    {stack : FileContents} :
    (applypatch env a stack).Always Step (fun _ => True)
      (fun r w' => r = 0 → LeavesTarget env a w') w := by
  unfold applypatch
  cases hparse : parseSha1 a.target_sha1_str with
  | none => exact ⟨trivial, fun h => absurd h (by decide)⟩
  | some target_sha1 =>
    refine applypatchTo_always (fun _ _ _ _ h => h) trivial (fun data hloads hsha _ => .inl ?_)
      (fun h => absurd h (by decide)) fun s _ => ?_
    · rw [Loads, if_neg (by rw [hfile]; exact Bool.false_ne_true)] at hloads
      obtain ⟨content, hcontent, hload⟩ := hloads
      exact ⟨target_sha1, content, data, hparse, hcontent, hsha ▸ hload⟩
    · refine (generateTarget_file hfile).mono fun r w' _ hr hret => .inr ?_
      by_cases hcopy : (resolve a).target_filename = CACHE_TEMP_SOURCE
      · exact .inl hcopy
      · exact .inr ⟨target_sha1, hparse, hr hret hcopy⟩

/-- After a successful call for a file, another one succeeds and changes nothing exactly when
the contents that were left have the hash of the arguments after masking. -/
theorem applypatch_repeats_iff (env : Env) (a : Args) (stack : FileContents) (w w' : Storage)
    (hfile : isPartition (resolve a).target_filename = false)
    (hrun : (applypatch env a stack).Runs Step w 0 w') :
    LeavesTarget env a w' ∧ (Repeats env a w' ↔ TargetAccepted env a w') :=
  ⟨((applypatch_leaves hfile).of_runs hrun).2 rfl, repeats_iff hfile⟩

section Demo

open Retouch

/-- The file to patch. -/
def demoFile : Bytes := ascii "/system/lib"

/-- Storage with one file. -/
def demoStorage (content : Bytes) : Storage :=
  (⟨fun _ => none, fun _ _ => []⟩ : Storage).setFile demoFile (some content)

theorem demoStorage_file (content : Bytes) : (demoStorage content).files demoFile = some content :=
  setFile_self

/-- A call that finds the target done. -/
theorem applypatch_done_runs :
    (applypatch (demoEnv [7] [1]) (demoArgs [7] demoFile demoFile) demoStack).Runs Step
      (demoStorage [7]) 0 (demoStorage [7]) := by
  refine ⟨.ok [7] ⟨0, 0, 0⟩, _, .readFile_ok _ (demoStorage_file [7]), ?_⟩
  exact ⟨rfl, rfl⟩

theorem applypatch_repeats_iff_done :
    LeavesTarget (demoEnv [7] [1]) (demoArgs [7] demoFile demoFile) (demoStorage [7]) ∧
      (Repeats (demoEnv [7] [1]) (demoArgs [7] demoFile demoFile) (demoStorage [7]) ↔
        TargetAccepted (demoEnv [7] [1]) (demoArgs [7] demoFile demoFile) (demoStorage [7])) :=
  applypatch_repeats_iff _ _ _ _ _ (by decide) applypatch_done_runs

/-- The arguments that replace the file by a library with retouch data. -/
def libraryArgs : Args := demoArgs prelinkedLibrary demoFile demoFile

def libraryEnv : Env := demoEnv prelinkedLibrary [1]

/-- The storage behind the call. -/
def libraryStorage : Storage :=
  installed libraryArgs prelinkedLibrary false
    ((demoStorage [1]).setFile (outname demoFile) (some prelinkedLibrary))

theorem enoughSpace_library :
    enoughSpace (freeSpace (some (1, 2 ^ 20))) libraryArgs.target_size = true := by
  have hsize : toU32 ((libraryArgs.target_size : Int) * 3) = 159 := by
    unfold toU32
    decide
  rw [freeSpace_some, enoughSpace, hsize]
  decide

theorem applypatch_library_runs :
    (applypatch libraryEnv libraryArgs demoStack).Runs Step (demoStorage [1]) 0 libraryStorage := by
  have hload : loadedFile libraryEnv.sha true demoStack (.ok [1] ⟨0, 0, 0⟩) =
      (0, loadedSource [1] ⟨0, 0, 0⟩) := loadedFile_source (by decide) (by decide) _ _
  have hgen := @generateTarget_runs libraryEnv libraryArgs
    ⟨loadedSource [1] ⟨0, 0, 0⟩, some ⟨true, replacementPatch prelinkedLibrary⟩, demoStack, none⟩
    (demoStorage [1]) prelinkedLibrary (List.replicate 20 0) (by decide) (by decide) (by decide)
    (by decide) _ rfl _ _ _ (prepare_runs (by decide) (.statfs _ _) enoughSpace_library)
  refine applypatch_runs (by decide) parseSha1_target ?_
  refine applypatchTo_runs (by decide) (.readFile_ok ⟨0, 0, 0⟩ (demoStorage_file [1])) hload
    (fun h => absurd h.2 (by decide)) ?_
  have hpatch : patchFor libraryArgs (loadedSource [1] ⟨0, 0, 0⟩) =
      some ⟨true, replacementPatch prelinkedLibrary⟩ := findMatchingPatch_source
  rw [loadSource_same (fun h => by cases h) rfl, Prog.ret_bind, patchFrom, hpatch]
  exact hgen

theorem libraryStorage_file : libraryStorage.files demoFile = some prelinkedLibrary :=
  setFile_self

/-- The library as the second call loads it. -/
def maskedLibrary : Bytes :=
  shifted [⟨0, 0x1000⟩, ⟨4, 0xffc⟩, ⟨8, 0x10fc⟩, ⟨-1, 0⟩] 0 prelinkedLibrary

theorem loadedFile_library :
    loadedFile libraryEnv.sha true demoStack (.ok prelinkedLibrary ⟨0, 0, 0⟩) =
      (0, ⟨some maskedLibrary, maskedLibrary.length, List.replicate 20 2, ⟨0, 0, 0⟩⟩) := by
  have hsha : libraryEnv.sha maskedLibrary = List.replicate 20 2 := by decide
  simp only [loadedFile, loadFileContents_masked libraryEnv.sha prelinkedLibrary_wf]
  rw [← hsha]
  rfl

/-- The second call finds other contents than the ones with the hash, and no source. -/
theorem applypatch_library_again :
    (applypatch libraryEnv libraryArgs demoStack).Runs FaultlessStep libraryStorage 1
      libraryStorage := by
  have hcopy : libraryStorage.files CACHE_TEMP_SOURCE = none := by
    show ((((demoStorage [1]).setFile _ _).setFile _ none).setFile demoFile _).files _ = none
    rw [setFile_of_ne (by decide), setFile_of_ne (by decide), setFile_of_ne (by decide)]
    exact setFile_of_ne (by decide)
  refine applypatch_runs (by decide) parseSha1_target ?_
  refine applypatchTo_runs (by decide) ⟨.readFile_ok ⟨0, 0, 0⟩ libraryStorage_file, fun d hd => ?_⟩
    loadedFile_library (fun h => absurd h.2 (by decide)) ?_
  · obtain rfl := Option.some.inj (libraryStorage_file.symm.trans hd)
    exact ⟨_, rfl⟩
  · have hpatch : patchFor libraryArgs ⟨some maskedLibrary, maskedLibrary.length,
        List.replicate 20 2, ⟨0, 0, 0⟩⟩ = none := findMatchingPatch_other
    have hread : FaultlessStep libraryStorage (.readFile CACHE_TEMP_SOURCE) .statFails
        libraryStorage := ⟨.readFile_statFails _, fun d hd => by rw [hcopy] at hd; cases hd⟩
    rw [loadSource_same (fun h => by cases h) rfl, Prog.ret_bind, patchFrom, hpatch]
    dsimp only
    rw [loadFileContents_file (by decide)]
    exact ⟨_, _, hread, rfl, rfl⟩

/-- An output whose words are not those of the retouch data behind them: the second call
fails, although the target file has the hash of the arguments. -/
theorem applypatch_repeats_library :
    ¬∀ (env : Env) (a : Args) (stack : FileContents) (w w' : Storage) (content : Bytes),
      isPartition (resolve a).target_filename = false →
      (applypatch env a stack).Runs Step w 0 w' →
      w'.files (resolve a).target_filename = some content →
      parseSha1 a.target_sha1_str = some (env.sha content) →
      ∀ r w'', (applypatch env a stack).Runs FaultlessStep w' r w'' → r = 0 ∧ w'' = w' := by
  intro h
  have hfail := h libraryEnv libraryArgs demoStack _ _ prelinkedLibrary (by decide)
    applypatch_library_runs libraryStorage_file (by decide) _ _ applypatch_library_again
  exact absurd hfail.1 (by decide)

end Demo

end BootableRecovery.Applypatch
