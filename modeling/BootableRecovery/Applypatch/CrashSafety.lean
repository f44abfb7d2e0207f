import BootableRecovery.Applypatch.Hashed
import BootableRecovery.Applypatch.SourceKept

/-!
# Calls of `applypatch` that are cut off

A machine calls `applypatch` with the same arguments again and again, and a call can be cut
off between any two operations. Some copy of what is needed must be there at every moment:
the source, the copy in the cache, or the finished target.

* `HasListed`: a file or partition has a hash with a patch.
* `applypatch_crash_safe`: for files, in calls that never open the source as their output
  and only delete a source whose copy is as good (`Careful`).
* `applypatch_crash_output`: a source with the name of the output is lost.
-/

namespace BootableRecovery.Applypatch

/-! ## What must not be lost -/

section Model

variable (env : Env) (a : Args)

/-- `name` can be loaded with a hash that has a patch. -/
def HasListed (w : Storage) (name : Bytes) : Prop :=
  ∃ data patch, Loads env.sha w name data ∧ Matches a (env.sha data) patch

/-- The calls with the arguments. -/
def Calls (p : Run Int) : Prop := ∃ stack, p = applypatch env a stack

/-- A file with the contents `data` is loaded with a hash that has a patch. -/
def ReloadsListed (data : Bytes) : Prop :=
  ∃ masked patch, Retouch.LoadFileContents env.sha data true = some (masked, env.sha masked) ∧
    Matches a (env.sha masked) patch

/-- The source or the copy is there. -/
def Backed (w : Storage) : Prop :=
  HasListed env a w a.source_filename ∨ HasListed env a w CACHE_TEMP_SOURCE

end Model

variable {env : Env} {a : Args} {s : Sources} {w w' : Storage} {name : Bytes}

/-- What is loaded depends on the file and on the partitions. -/
theorem loads_congr {data : Bytes} (hparts : w'.parts = w.parts)
    (hfiles : w'.files name = w.files name) :
    Loads env.sha w' name data ↔ Loads env.sha w name data := by
  simp only [Loads, hparts, hfiles]

theorem HasListed.congr (hparts : w'.parts = w.parts) (hfiles : w'.files name = w.files name)
    (h : HasListed env a w name) : HasListed env a w' name := by
  obtain ⟨data, patch, hloads, hmatch⟩ := h
  exact ⟨data, patch, (loads_congr hparts hfiles).mpr hloads, hmatch⟩

theorem HasListed.sameBut {n : Bytes} (hw : SameBut n w w') (hne : name ≠ n)
    (h : HasListed env a w name) : HasListed env a w' name :=
  h.congr hw.parts (hw.files name hne)

/-- The file or partition is as it was. -/
structure Keeps (name : Bytes) (w w' : Storage) : Prop where
  parts : w'.parts = w.parts
  file : w'.files name = w.files name

theorem Keeps.refl (name : Bytes) (w : Storage) : Keeps name w w := ⟨rfl, rfl⟩

/-- Saving the source in the cache leaves it as it is. -/
theorem backUp_always (hexp : ¬Expendable name) (hne : name ≠ CACHE_TEMP_SOURCE) :
    (backUp s).Always Step (Keeps name w)
      (fun ok w' => ok = true → Saved CACHE_TEMP_SOURCE s.source_file w') w := by
  have hroom := (@makeFreeSpaceOnCache_always w s.source_file.size).weaken
    fun w' (hw' : CacheOnly w w') => (⟨hw'.parts, hw'.files name hexp⟩ : Keeps name w w')
  refine hroom.bind fun r w₁ hw₁ _ => ?_
  split_ifs with hneg
  · exact ⟨hw₁, fun h => by cases h⟩
  have hsave := (@saveFileContents_always w₁ CACHE_TEMP_SOURCE s.source_file).weaken
    fun w' (hw' : SameBut CACHE_TEMP_SOURCE w₁ w') =>
      (⟨hw'.parts.trans hw₁.parts, (hw'.files name hne).trans hw₁.file⟩ : Keeps name w w')
  exact hsave.bind fun r w₂ hw₂ hsaved => ⟨hw₂, fun h => hsaved (of_decide_eq_true h)⟩

theorem Usable.backed (h : Usable env a w s) : Backed env a w := by
  cases h with
  | source _ hsrc =>
    obtain ⟨data, -, hloads, hmatch⟩ := hsrc
    exact .inl ⟨data, _, hloads, hmatch⟩
  | copy _ _ _ hsrc =>
    obtain ⟨data, -, hloads, hmatch⟩ := hsrc
    exact .inr ⟨data, _, hloads, hmatch⟩

theorem Source.sameBut {n filename : Bytes} {file : FileContents} {patch : Value}
    (hw : SameBut n w w') (hne : filename ≠ n) (h : Source env a w filename file patch) :
    Source env a w' filename file patch := by
  obtain ⟨data, hholds, hloads, hmatch⟩ := h
  exact ⟨data, hholds, (loads_congr hw.parts (hw.files _ hne)).mpr hloads, hmatch⟩

theorem Usable.sameBut {n : Bytes} (hw : SameBut n w w') (hne : a.source_filename ≠ n)
    (hcopy : CACHE_TEMP_SOURCE ≠ n) (h : Usable env a w s) : Usable env a w' s := by
  cases h with
  | source hpatch hsrc => exact .source hpatch (hsrc.sameBut hw hne)
  | copy hnone hdata hpatch hsrc => exact .copy hnone hdata hpatch (hsrc.sameBut hw hcopy)

theorem cacheTempSource_file : isPartition CACHE_TEMP_SOURCE = false := by decide

/-- The output has another name than the copy. -/
theorem outname_ne_copy (target_filename : Bytes) : CACHE_TEMP_SOURCE ≠ outname target_filename := by
  intro h
  have hlast := congrArg List.getLast? h
  rw [outname, List.getLast?_append_of_ne_nil _ (by decide)] at hlast
  exact absurd hlast (by decide)

/-- A saved copy of a listed source, as it is loaded later. -/
theorem hasListed_copy {data : Bytes} {file : FileContents} (hholds : Holds env.sha file data)
    (hreload : ReloadsListed env a data) (hsaved : Saved CACHE_TEMP_SOURCE file w) :
    HasListed env a w CACHE_TEMP_SOURCE := by
  obtain ⟨c, hfile, hpre, hlen⟩ := hsaved
  obtain ⟨masked, patch, hload, hmatch⟩ := hreload
  rw [hholds.data_eq, Option.getD_some] at hpre
  obtain rfl := hpre.eq_of_length (hlen.trans hholds.size_eq)
  refine ⟨masked, patch, ?_, hmatch⟩
  rw [Loads, cacheTempSource_file, if_neg Bool.false_ne_true]
  exact ⟨c, hfile, hload⟩

/-! ## Files -/

section Model

variable (env a)

/-- Ordinary files that are not on the cache. -/
structure OrdinaryFiles : Prop where
  source_file : isPartition a.source_filename = false
  target_file : isPartition a.target_filename = false
  source_off : ¬ascii "/cache/" <+: a.source_filename
  target_off : ¬ascii "/cache/" <+: a.target_filename

/-- The source, the copy or the target is there. -/
def FileSafe (w : Storage) : Prop := Backed env a w ∨ TargetFile env a w

/-- What is renamed has been written completely: it has the hash that the decoder has
computed. -/
def Complete (w : Storage) : Op → Prop
  | .rename old _ => ∀ content, w.files old = some content →
      parseSha1 a.target_sha1_str = some (env.sha content)
  | _ => True

/-- No output is opened under the name of the source, and a source is deleted only when what
is loaded from it is listed when it is loaded again. -/
def Careful (w : Storage) : Op → Prop
  | .openTrunc name => name ≠ a.source_filename
  | .unlink name => name = a.source_filename → ∀ data patch,
      Loads env.sha w a.source_filename data → Matches a (env.sha data) patch →
        ReloadsListed env a data
  | _ => True

def CompleteStep (w : Storage) (o : Op) (x : Ans o) (w' : Storage) : Prop :=
  Step w o x w' ∧ Complete env a w o

def CarefulStep (w : Storage) (o : Op) (x : Ans o) (w' : Storage) : Prop :=
  CompleteStep env a w o x w' ∧ Careful env a w o

end Model

theorem careful_step : ∀ (w : Storage) (o : Op) (x : Ans o) (w' : Storage),
    CarefulStep env a w o x w' → Step w o x w' :=
  fun _ _ _ _ h => h.1.1

section File

variable (hfiles : OrdinaryFiles a)

include hfiles

theorem OrdinaryFiles.source_ne : a.source_filename ≠ CACHE_TEMP_SOURCE := by
  intro h
  exact hfiles.source_off (h ▸ by decide)

theorem OrdinaryFiles.target_ne : a.target_filename ≠ CACHE_TEMP_SOURCE := by
  intro h
  exact hfiles.target_off (h ▸ by decide)

theorem OrdinaryFiles.not_expendable : ¬Expendable a.source_filename := by
  rintro ⟨⟨dir, hdir, d_name, -, heq⟩, -⟩
  exact hfiles.source_off (heq ▸ onCache_of_dir hdir d_name)

/-- The source is saved in the cache, and then it is deleted. -/
theorem moveToCache_backed {patch : Value}
    (hsrc : Source env a w a.source_filename s.source_file patch) :
    (moveToCache a s).Always (CarefulStep env a) (Backed env a) (fun _ _ => True) w := by
  obtain ⟨data, hholds, hloads, hmatch⟩ := hsrc
  unfold moveToCache
  rw [hfiles.source_file, if_neg Bool.false_ne_true]
  have hlisted : HasListed env a w a.source_filename := ⟨data, patch, hloads, hmatch⟩
  have hback := (@backUp_always s w _ hfiles.not_expendable hfiles.source_ne).of_step
    (@careful_step env a)
  have hkept : (backUp s).Always (CarefulStep env a) (Backed env a) (fun ok w' =>
      Keeps a.source_filename w w' ∧ (ok = true → Saved CACHE_TEMP_SOURCE s.source_file w')) w :=
    (hback.mono fun ok w' hw' hsaved => ⟨hw', hsaved⟩).weaken fun w' hw' =>
      .inl (hlisted.congr hw'.parts hw'.file)
  refine hkept.bind fun ok w₁ hw₁ hok => ?_
  obtain ⟨hkeeps, hsaved⟩ := hok
  cases ok with
  | false => exact ⟨hw₁, trivial⟩
  | true =>
    refine ⟨hw₁, fun _ w₂ hstep => ?_⟩
    obtain ⟨⟨hstep, -⟩, hcareful⟩ := hstep
    have hreload := hcareful rfl data patch
      ((loads_congr hkeeps.parts hkeeps.file).mpr hloads) hmatch
    have hcopy : HasListed env a w₁ CACHE_TEMP_SOURCE :=
      hasListed_copy hholds hreload (hsaved rfl)
    have hcopy₂ : HasListed env a w₂ CACHE_TEMP_SOURCE := by
      cases hstep with
      | unlink_ok => exact hcopy.sameBut (.setFile w₁ _ _) hfiles.source_ne.symm
      | unlink_fails => exact hcopy
    refine ⟨.inr hcopy₂, fun sf w₃ hstep => ?_⟩
    obtain ⟨⟨hstep, -⟩, -⟩ := hstep
    cases hstep
    exact ⟨.inr hcopy₂, trivial⟩

/-- Before the first try that can be repeated nothing is changed. -/
theorem prepare_backed {retry : Nat} {made_copy : Bool} (hs : Usable env a w s) :
    (prepare a s retry made_copy).Always (CarefulStep env a) (Backed env a)
      (fun r w' => ∀ p, r = some p → p.1 ≠ 0 → w' = w) w := by
  unfold prepare
  rw [hfiles.target_file, if_neg Bool.false_ne_true]
  refine (askSpace_always.of_step careful_step).bind_const hs.backed fun enough _ => ?_
  split_ifs with henough hsome
  · exact ⟨hs.backed, fun _ _ _ => rfl⟩
  · cases hs with
    | source _ hsrc =>
      refine (moveToCache_backed hfiles hsrc).bind fun ok w₁ hw₁ _ => ⟨hw₁, fun p hp => ?_⟩
      cases ok with
      | false => cases hp
      | true =>
        cases hp
        exact fun hne => absurd rfl hne
    | copy hnone =>
      rw [hnone] at hsome
      cases hsome
  · refine ⟨hs.backed, fun p hp => ?_⟩
    cases hp
    exact fun hne => absurd rfl hne

/-- The output is neither the source nor the copy. -/
theorem decodeSource_backed (hw : Backed env a w) :
    (decodeSource env a s).Always (CarefulStep env a) (Backed env a)
      (fun r w' => ∀ ret d, r = some (ret, d) → a.source_filename ≠ outname a.target_filename ∧
        SameBut (outname a.target_filename) w w') w := by
  have hdecode := @decodeSource_output env a s w hfiles.target_file (CarefulStep env a)
    careful_step (a.source_filename ≠ outname a.target_filename) fun _ _ hstep => hstep.2.symm
  have hkept : ∀ w', (w' = w ∨ a.source_filename ≠ outname a.target_filename ∧
      SameBut (outname a.target_filename) w w') → Backed env a w' := by
    rintro w' (rfl | ⟨hne, hsame⟩)
    · exact hw
    · exact hw.imp (·.sameBut hsame hne) (·.sameBut hsame (outname_ne_copy _))
  refine (hdecode.mono fun r w' hw' hr ret d h => ⟨(hr ret d h).1, ?_⟩).weaken hkept
  rcases hw' with rfl | ⟨-, hsame⟩
  · exact .refl _ _
  · exact hsame

theorem turn_backed {retry : Nat} {made_copy : Bool} {again : Run (Option (Decoded × Bool))}
    (hs : Usable env a w s)
    (hagain : ∀ w, Usable env a w s →
      again.Always (CarefulStep env a) (Backed env a) (fun _ _ => True) w) :
    (turn env a s retry made_copy again).Always (CarefulStep env a) (Backed env a)
      (fun _ _ => True) w := by
  refine (prepare_backed hfiles hs).bind fun prepared w₁ hw₁ hprepared => ?_
  rcases prepared with _ | ⟨retry', made_copy'⟩
  · exact ⟨hw₁, trivial⟩
  refine (decodeSource_backed hfiles hw₁).bind fun decoded w₂ hw₂ hdecoded => ?_
  rcases decoded with _ | ⟨result, d⟩
  · exact ⟨hw₂, trivial⟩
  obtain ⟨hne, hsame⟩ := hdecoded result d rfl
  dsimp only
  split_ifs with hresult
  · unfold tryAgain
    split_ifs with hretry
    · exact ⟨hw₂, trivial⟩
    obtain rfl := hprepared _ rfl hretry
    unfold dropOutput
    rw [hfiles.target_file, if_neg Bool.false_ne_true]
    refine ⟨hw₂, fun _ w₃ hstep => hagain w₃ (hs.sameBut ?_ hne (outname_ne_copy _))⟩
    cases careful_step _ _ _ _ hstep with
    | unlink_ok => exact hsame.trans (.setFile w₂ _ _)
    | unlink_fails => exact hsame
  · exact ⟨hw₂, trivial⟩

theorem turns_backed (n : Nat) (hs : Usable env a w s) :
    (turns env a s n).Always (CarefulStep env a) (Backed env a) (fun _ _ => True) w := by
  induction n generalizing w with
  | zero => exact turn_backed hfiles hs fun w hs => ⟨hs.backed, trivial⟩
  | succ n ih => exact turn_backed hfiles hs fun w hs => ih hs

/-- The output is renamed only when it has the hash, and the copy is deleted behind that. -/
theorem finish_safe {target_sha1 : Bytes} {d : Decoded} {made_copy : Bool}
    (hw : Backed env a w) :
    (finish env a s target_sha1 d made_copy).Always (CarefulStep env a) (FileSafe env a)
      (fun _ _ => True) w := by
  have hrenamed : ∀ w', CarefulStep env a w
      (.rename (outname a.target_filename) a.target_filename) true w' → TargetFile env a w' := by
    rintro w' ⟨⟨hstep, hcomplete⟩, -⟩
    cases hstep with
    | rename_ok h => exact ⟨_, setFile_self, hcomplete _ h⟩
  unfold finish
  split_ifs with hsha
  · exact ⟨.inl hw, trivial⟩
  have hinstall := @install_always a s w hfiles.target_file (CarefulStep env a) careful_step d
  have hsafe : (install a s d).Always (CarefulStep env a) (FileSafe env a)
      (fun r w' => r = 0 → TargetFile env a w') w := by
    refine (hinstall.mono fun r w' _ hr hret => hrenamed w' (hr hret)).weaken ?_
    rintro w' (rfl | hstep)
    · exact .inl hw
    · exact .inr (hrenamed w' hstep)
  refine hsafe.bind fun r w₁ hw₁ hr => ?_
  split_ifs with hret
  · exact ⟨hw₁, trivial⟩
  obtain ⟨content, hcontent, hparse⟩ := hr (not_not.mp hret)
  unfold removeCopy
  split_ifs with hcopy
  · refine ⟨hw₁, fun _ w₂ hstep => ?_⟩
    have hdone : TargetFile env a w₂ := by
      refine ⟨content, ?_, hparse⟩
      cases careful_step _ _ _ _ hstep with
      | unlink_ok => rwa [setFile_of_ne hfiles.target_ne]
      | unlink_fails => exact hcontent
    exact ⟨.inr hdone, trivial⟩
  · exact ⟨hw₁, trivial⟩

end File

/-- One call keeps what is needed, wherever it is cut off. -/
theorem applypatch_fileSafe (hfiles : OrdinaryFiles (resolve a)) {stack : FileContents}
    (hw : FileSafe env (resolve a) w) :
    (applypatch env a stack).Always (CarefulStep env (resolve a)) (FileSafe env (resolve a))
      (fun _ _ => True) w := by
  unfold applypatch
  cases parseSha1 a.target_sha1_str with
  | none => exact ⟨hw, trivial⟩
  | some target_sha1 =>
    refine applypatchTo_always careful_step hw (fun _ _ _ => trivial) trivial fun s hs => ?_
    have hturns : (turns env (resolve a) s 1).Always (CarefulStep env (resolve a))
        (FileSafe env (resolve a)) (fun _ w' => Backed env (resolve a) w') w :=
      ((turns_backed hfiles 1 hs).mono fun _ _ hw _ => hw).weaken fun _ hw => .inl hw
    refine hturns.bind fun r w₁ hw₁ hbacked => ?_
    rcases r with _ | ⟨d, made_copy⟩
    · exact ⟨hw₁, trivial⟩
    · exact finish_safe hfiles hbacked

/-- In calls that are careful with the source, one of the three is there in every state that
is reached from a listed source. -/
theorem applypatch_crash_safe (env : Env) (a : Args) (hfiles : OrdinaryFiles (resolve a))
    {c c' : Prog.Config Op Ans Int Storage} (hcall : Calls env a c.prog)
    (hlisted : HasListed env (resolve a) c.state (resolve a).source_filename)
    (hrun : Relation.ReflTransGen
      (Prog.CrashStep (CarefulStep env (resolve a)) id (Calls env a)) c c') :
    FileSafe env (resolve a) c'.state := by
  refine Prog.always_of_crashSteps (Q := fun _ _ => True) ?_ ?_ hrun
  · rintro p w ⟨stack, rfl⟩ hw
    exact applypatch_fileSafe hfiles hw
  · obtain ⟨stack, hstack⟩ := hcall
    rw [hstack]
    exact applypatch_fileSafe hfiles (.inl (.inl hlisted))

section Demo

/-- A file with the contents `[1]` is a listed source. -/
theorem hasListed_demo {source_filename target_filename : Bytes} {w : Storage}
    (hsource : isPartition source_filename = false) (hfile : w.files source_filename = some [1]) :
    HasListed (demoEnv [7] [1]) (demoArgs [7] source_filename target_filename) w
      source_filename := by
  refine ⟨[1], ⟨true, replacementPatch [7]⟩, ?_, findMatchingPatch_source⟩
  rw [Loads, hsource, if_neg Bool.false_ne_true]
  exact ⟨[1], hfile, rfl⟩

/-- A call that is cut off after its first operation, and another one. -/
theorem applypatch_crash_safe_demo :
    ∃ p, Relation.ReflTransGen
        (Prog.CrashStep (CarefulStep (demoEnv [7] [1]) moveArgs) id (Calls (demoEnv [7] [1]) moveArgs))
        ⟨sourceStorage, applypatch (demoEnv [7] [1]) moveArgs demoStack⟩ ⟨sourceStorage, p⟩ ∧
      FileSafe (demoEnv [7] [1]) moveArgs sourceStorage := by
  have hread : CarefulStep (demoEnv [7] [1]) moveArgs sourceStorage (.readFile demoTarget)
      .statFails sourceStorage := ⟨⟨.readFile_statFails _, trivial⟩, trivial⟩
  refine ⟨_, .tail (.single (.run hread)) (.start ⟨demoStack, rfl⟩), ?_⟩
  exact applypatch_crash_safe (demoEnv [7] [1]) moveArgs
    ⟨by decide, by decide, by decide, by decide⟩ (c := ⟨sourceStorage, _⟩) ⟨demoStack, rfl⟩
    (hasListed_demo (by decide) setFile_self)
    (.tail (.single (.run hread)) (.start ⟨demoStack, rfl⟩))

/-- A source with the name of the output. -/
def outputArgs : Args := demoArgs [7] (outname demoTarget) demoTarget

def outputStorage : Storage :=
  (⟨fun _ => none, fun _ _ => []⟩ : Storage).setFile (outname demoTarget) (some [1])

/-- A call opens the output and is cut off. -/
theorem applypatch_output_passes :
    (applypatch (demoEnv [7] [1]) outputArgs demoStack).Passes
      (CompleteStep (demoEnv [7] [1]) outputArgs) outputStorage
      (outputStorage.setFile (outname demoTarget) (some [])) := by
  have hload : ∀ file, loadedFile (demoEnv [7] [1]).sha true file (.ok [1] ⟨0, 0, 0⟩) =
      (0, loadedSource [1] ⟨0, 0, 0⟩) := fun file => loadedFile_source (by decide) (by decide) file _
  have hpatch : patchFor outputArgs (loadedSource [1] ⟨0, 0, 0⟩) =
      some ⟨true, replacementPatch [7]⟩ := findMatchingPatch_source
  have henough : enoughSpace (freeSpace (some (1, 2 ^ 20))) outputArgs.target_size = true := by
    have hsize : toU32 ((outputArgs.target_size : Int) * 3) = 3 := by
      unfold toU32
      decide
    rw [freeSpace_some, enoughSpace, hsize]
    decide
  unfold applypatch
  rw [show parseSha1 outputArgs.target_sha1_str = _ from parseSha1_target, resolve,
    if_neg (by decide)]
  show (applypatchTo _ _ _ _).Passes _ _ _
  unfold applypatchTo
  rw [loadFileContents_file (by decide)]
  refine .inr ⟨.statFails, _, ⟨.readFile_statFails _, trivial⟩, ?_⟩
  show (loadSource _ outputArgs demoStack >>= fun source_file => patchFrom _ _ _ _ source_file).Passes
    _ _ _
  unfold loadSource
  rw [if_pos (.inl rfl), loadFileContents_file (by decide)]
  refine .inr ⟨.ok [1] ⟨0, 0, 0⟩, _, ⟨.readFile_ok _ setFile_self, trivial⟩, ?_⟩
  show (patchFrom _ outputArgs demoStack _
    (loadedFile (demoEnv [7] [1]).sha true _ (.ok [1] ⟨0, 0, 0⟩)).2).Passes _ _ _
  rw [hload, patchFrom, hpatch]
  refine Prog.Passes.left (Prog.Passes.bind (prepare_runs (by decide) ⟨.statfs _ _, trivial⟩ henough)
    (Prog.Passes.left ?_))
  exact .inr ⟨true, _, ⟨.openTrunc_ok _, trivial⟩, .here _ _⟩

/-- The source is emptied, and there is neither a copy nor the target. -/
theorem outputStorage_lost :
    ¬FileSafe (demoEnv [7] [1]) outputArgs
      (outputStorage.setFile (outname demoTarget) (some [])) := by
  have hother : ∀ name, name ≠ outname demoTarget →
      (outputStorage.setFile (outname demoTarget) (some [])).files name = none := by
    intro name hne
    rw [setFile_of_ne hne, outputStorage, setFile_of_ne hne]
  rintro ((⟨data, patch, hloads, hmatch⟩ | ⟨data, patch, hloads, hmatch⟩) | ⟨content, hcontent, -⟩)
  · rw [Loads, if_neg (by decide)] at hloads
    obtain ⟨content, hcontent, hload⟩ := hloads
    obtain rfl := Option.some.inj (setFile_self.symm.trans hcontent)
    rw [Retouch.loadFileContents_plain (by decide)] at hload
    obtain rfl := congrArg Prod.fst (Option.some.inj hload)
    have hnone : findMatchingPatch (List.replicate 20 2) outputArgs.patches = some patch := hmatch
    rw [outputArgs, findMatchingPatch_other] at hnone
    cases hnone
  · rw [Loads, if_neg (by decide)] at hloads
    obtain ⟨content, hcontent, -⟩ := hloads
    rw [hother _ (by decide)] at hcontent
    cases hcontent
  · rw [hother _ (by decide)] at hcontent
    cases hcontent

/-- Cut off behind the opening of its output, a call leaves nothing. -/
theorem applypatch_crash_output :
    ¬∀ (env : Env) (a : Args) (c c' : Prog.Config Op Ans Int Storage),
      OrdinaryFiles (resolve a) → Calls env a c.prog →
      HasListed env (resolve a) c.state (resolve a).source_filename →
      Relation.ReflTransGen (Prog.CrashStep (CompleteStep env (resolve a)) id (Calls env a)) c c' →
      FileSafe env (resolve a) c'.state := by
  intro h
  obtain ⟨p, hrun⟩ : ∃ p, Relation.ReflTransGen
      (Prog.CrashStep (CompleteStep (demoEnv [7] [1]) outputArgs) id
        (Calls (demoEnv [7] [1]) outputArgs))
      ⟨outputStorage, applypatch (demoEnv [7] [1]) outputArgs demoStack⟩
      ⟨outputStorage.setFile (outname demoTarget) (some []), p⟩ :=
    Prog.crashSteps_of_passes applypatch_output_passes
  exact outputStorage_lost (h _ outputArgs ⟨outputStorage, _⟩ ⟨_, p⟩
    ⟨by decide, by decide, by decide, by decide⟩ ⟨demoStack, rfl⟩
    (hasListed_demo (by decide) setFile_self) hrun)

end Demo

end BootableRecovery.Applypatch
