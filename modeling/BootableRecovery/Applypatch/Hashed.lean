import BootableRecovery.Applypatch.SourceKept

/-!
# What is hashed and what is stored

The decoders give the same bytes to the hash and to the sink, one after the other. When one
of the two steps does not happen, a decoder gives up with -1, except behind a NORMAL
record: there the result of `ApplyBSDiffPatch` is not looked at.

* `Synced`: a relation between hash and sink that a complete step keeps.
* `patchAttempt_synced`: it holds behind a decoder that returned 0, when what a NORMAL
  record leaves of a step that is cut keeps it too.
* `memory_synced`: `MemorySink` takes all or nothing, so it is always in step with the hash.
* `file_synced`: `FileSink` is when no NORMAL record is stored in part (`CutNormal`).
-/

namespace BootableRecovery.Applypatch

/-! ## Decoders -/

section Synced

variable {o : Output} {R : o.Ctx → o.Token → Prop}

/-- A step that is complete, of the hash and of the sink, keeps the relation. -/
def Synced (o : Output) (R : o.Ctx → o.Token → Prop) : Prop :=
  ∀ (c c' : o.Ctx) (t t' : o.Token) (b : Bytes) (i n r : Int), R c t →
    o.update c b i n = .done c' → o.sink t b i n = .done (r, t') → n ≤ r → R c' t'

/-- A sink that refuses the data keeps the relation. -/
def Refuses (o : Output) (R : o.Ctx → o.Token → Prop) (w : Written o) (data : Bytes) : Prop :=
  R w.ctx w.token → ∀ (r : Int) (t : o.Token),
    o.sink w.token data 0 data.length = .done (r, t) → r < data.length → R w.ctx t

variable {bz : Bz2} {z : Zlib} {old patch : Bytes} {bonus_data : Option Bytes} {fuel : Nat}
  {w w' : Written o}

theorem applyBSDiffPatch_synced (h : Synced o R) {source : OldData} {patch_offset ret : Int}
    (hrefuses : ∀ data, applyBSDiffPatchMem bz fuel source patch patch_offset = .done (some data) →
      Refuses o R w data) (hw : R w.ctx w.token)
    (hrun : applyBSDiffPatch bz o fuel source patch patch_offset w = .done (ret, w')) :
    R w'.ctx w'.token := by
  obtain ⟨r, hmem, hrun⟩ := Outcome.bind_eq_done.mp hrun
  cases r with
  | none =>
    cases hrun
    exact hw
  | some data =>
    obtain ⟨⟨n, token⟩, hsink, hrun⟩ := Outcome.bind_eq_done.mp hrun
    dsimp only at hrun
    split_ifs at hrun with hlt
    · cases hrun
      exact hrefuses data hmem hw n token hsink hlt
    · obtain ⟨ctx, hctx, hrun⟩ := Outcome.bind_eq_done.mp hrun
      cases hrun
      exact h _ _ _ _ _ _ _ _ hw hctx hsink (not_lt.mp hlt)

theorem recompressed_synced (h : Synced o R) {temp_size : Nat} {strm : z.DeflateStream}
    (hrec : Recompressed z o temp_size strm w w') (hw : R w.ctx w.token) : R w'.ctx w'.token := by
  induction hrec with
  | last _ haccepted => exact h _ _ _ _ _ _ _ _ hw haccepted.2 haccepted.1 le_rfl
  | more _ _ haccepted _ ih => exact ih (h _ _ _ _ _ _ _ _ hw haccepted.2 haccepted.1 le_rfl)

/-- The data of a NORMAL record. -/
def NormalData (bz : Bz2) (o : Output) (old patch : Bytes) (s : ImgState o) (data : Bytes) : Prop :=
  HeaderRead patch s.pos 24 ∧ field4 patch s.pos = CHUNK_NORMAL ∧
    ∃ fuel, applyBSDiffPatchMem bz fuel (normalSource old patch (typeEnd s.pos)) patch
      (patchOffset patch (typeEnd s.pos)) = .done (some data)

theorem chunkPassed_synced (h : Synced o R) {i : Nat} {s s' : ImgState o}
    (hrefuses : ∀ data, NormalData bz o old patch s data → Refuses o R s.out data)
    (hs : R s.out.ctx s.out.token)
    (hpassed : ChunkPassed bz z o old patch bonus_data fuel i s s') : R s'.out.ctx s'.out.token := by
  cases hpassed with
  | normal hheader hn hrun =>
    exact applyBSDiffPatch_synced h (fun data hmem => hrefuses data ⟨hheader, hn, fuel, hmem⟩) hs hrun
  | raw _ hctx hsink => exact h _ _ _ _ _ _ _ _ hs hctx hsink le_rfl
  | deflate _ _ _ _ hrec => exact recompressed_synced h hrec hs

/-- From one record to another the relation is kept. -/
theorem chunkTurns_synced (h : Synced o R) {x y : Nat × ImgState o}
    (hturns : Relation.ReflTransGen (ChunkTurns bz z o old patch bonus_data) x y)
    (hrefuses : ∀ u, Relation.ReflTransGen (ChunkTurns bz z o old patch bonus_data) x u →
      u.1 < numChunks patch → ∀ data, NormalData bz o old patch u.2 data → Refuses o R u.2.out data)
    (hx : R x.2.out.ctx x.2.out.token) : R y.2.out.ctx y.2.out.token := by
  induction hturns with
  | refl => exact hx
  | @tail u v hxu hturn ih =>
    obtain ⟨hlt, -, fuel, hstep⟩ := hturn
    exact chunkPassed_synced h (hrefuses u hxu hlt) ih (chunkStep_passed hstep)

/-- Behind a decoder that returned 0 hash and sink are in step. -/
theorem patchAttempt_synced (h : Synced o R)
    (hrefuses : ∀ i s, ChunkReached bz z o old patch bonus_data w i s → ∀ data,
      NormalData bz o old patch s data → Refuses o R s.out data)
    (hw : R w.ctx w.token)
    (hrun : patchAttempt bz z o fuel old patch bonus_data w = .done (some (0, w'))) :
    R w'.ctx w'.token := by
  unfold patchAttempt at hrun
  split_ifs at hrun
  · obtain ⟨r, hr, hdone⟩ := Outcome.bind_eq_done.mp hrun
    cases hdone
    obtain ⟨data, n, -, hsink, hle, hctx⟩ := applyBSDiffPatch_zero hr
    exact h _ _ _ _ _ _ _ _ hw hctx hsink hle
  · obtain ⟨r, hr, hdone⟩ := Outcome.bind_eq_done.mp hrun
    cases hdone
    obtain ⟨hheader, s, hloop, rfl⟩ := applyImagePatch_zero hr
    have hreach := (chunkLoop_zero .refl (Nat.zero_add _) hloop).1
    exact chunkTurns_synced h hreach (fun u hu hlt => hrefuses u.1 u.2 ⟨hheader, hlt, hu⟩) hw
  · cases hrun

end Synced

/-! ## `MemorySink` -/

section Memory

variable {size : Nat}

theorem shaUpdate_eq_done {ctx ctx' b : Bytes} {i n : Int} (h : shaUpdate ctx b i n = .done ctx') :
    0 ≤ n ∧ ∃ d, load b i n.toNat = .done d ∧ ctx' = ctx ++ d := by
  obtain ⟨d, hload, hdone⟩ := Outcome.bind_eq_done.mp h
  unfold loadRange at hload
  split_ifs at hload with hneg
  cases hdone
  exact ⟨not_lt.mp hneg, d, hload, rfl⟩

/-- The buffer holds what was hashed. -/
theorem memory_synced : Synced (.memory size) fun (c t : Bytes) => t = c := by
  intro c c' t t' b i n r hct hctx hsink hle
  obtain ⟨hn, d, hload, rfl⟩ := shaUpdate_eq_done hctx
  simp only [Output.memory] at hsink
  split_ifs at hsink with hfull
  · cases hsink
    exact absurd (hn.trans hle) (by decide)
  · rw [loadRange, if_neg (not_lt.mpr hn), hload] at hsink
    cases hsink
    rw [hct]

/-- A call that fails leaves the buffer as it is. -/
theorem memory_refuses (w : Written (.memory size)) (data : Bytes) :
    Refuses (.memory size) (fun (c t : Bytes) => t = c) w data := by
  intro hw r t hsink hlt
  simp only [Output.memory] at hsink
  split_ifs at hsink with hfull
  · cases hsink
    exact hw
  · obtain ⟨d, -, hdone⟩ := Outcome.bind_eq_done.mp hsink
    cases hdone
    exact absurd hlt (lt_irrefl _)

end Memory

/-! ## `FileSink` -/

/-- `FileSink` stores a part of the data, and then it fails. -/
def Torn (t : FileToken) (data : Bytes) : Prop :=
  0 < (fileWrites data t.script).1.flatten.length ∧
    (fileWrites data t.script).1.flatten.length < data.length

/-- A NORMAL record that is reached is stored in part. -/
def CutNormal (env : Env) (old patch : Bytes) (bonus_data : Option Bytes) (script : List Int) :
    Prop :=
  ∃ i s data, ChunkReached env.bz env.z .file old patch bonus_data (startFile script) i s ∧
    NormalData env.bz .file old patch s data ∧ Torn s.out.token data

section File

/-- A complete call stores the data. -/
theorem file_sink_taken {t t' : FileToken} {b d : Bytes} {i n r : Int} (hn : 0 ≤ n)
    (hload : load b i n.toNat = .done d)
    (hsink : Output.file.sink t b i n = .done (r, t')) (hle : n ≤ r) :
    t'.stored = t.stored ++ d := by
  have hd : d.length = n.toNat := by
    unfold load at hload
    split_ifs at hload with hin
    cases hload
    exact slice_length_of_le (by omega)
  have hrange : sinkRange b i n = .done d := by
    unfold sinkRange
    split_ifs with hzero
    · obtain rfl : n = 0 := le_antisymm hzero hn
      rw [List.length_eq_zero_iff.mp hd]
    · exact hload
  simp only [Output.file, hrange, Outcome.done_bind] at hsink
  cases hsink
  have hpre := fileWrites_prefix t.script d
  have hall := hpre.eq_of_length_le (by omega)
  simp only [FileToken.stored, List.flatten_append, hall]

/-- The results of a call that fails. -/
theorem file_sink_refused {t t' : FileToken} {data : Bytes} {r : Int}
    (hsink : Output.file.sink t data 0 data.length = .done (r, t')) :
    r = (fileWrites data t.script).1.flatten.length ∧
      t'.stored = t.stored ++ (fileWrites data t.script).1.flatten := by
  have hrange : sinkRange data 0 data.length = .done data := by
    unfold sinkRange
    split_ifs with hzero
    · have hnil : data = [] := List.length_eq_zero_iff.mp (by omega)
      rw [hnil]
    · rw [Int.toNat_natCast]
      exact (load_ofNat (b := data) (i := 0) (n := data.length) (by omega)).trans (by simp [slice])
  simp only [Output.file, hrange, Outcome.done_bind] at hsink
  cases hsink
  exact ⟨rfl, by simp [FileToken.stored]⟩

/-- The file holds what was hashed. -/
theorem file_synced : Synced .file fun (c : Bytes) (t : FileToken) => t.stored = c := by
  intro c c' t t' b i n r hct hctx hsink hle
  obtain ⟨hn, d, hload, rfl⟩ := shaUpdate_eq_done hctx
  rw [file_sink_taken hn hload hsink hle, hct]

/-- A call that fails before it has stored anything leaves the file as it is. -/
theorem file_refuses {w : Written .file} {data : Bytes} (h : ¬Torn w.token data) :
    Refuses .file (fun (c : Bytes) (t : FileToken) => t.stored = c) w data := by
  intro hw r t hsink hlt
  obtain ⟨hr, hstored⟩ := file_sink_refused hsink
  have hnone : (fileWrites data (FileToken.script w.token)).1.flatten.length = 0 := by
    by_contra hne
    exact h ⟨Nat.pos_of_ne_zero hne, by omega⟩
  rw [hstored, List.length_eq_zero_iff.mp hnone, List.append_nil]
  exact hw

/-- The file is at least `k` bytes longer than what was hashed. -/
def Longer (k : Nat) (c : Bytes) (t : FileToken) : Prop := c.length + k ≤ t.stored.length

theorem longer_synced (k : Nat) : Synced .file (Longer k) := by
  intro (c : Bytes) (c' : Bytes) (t : FileToken) (t' : FileToken) b i n r hct hctx hsink hle
  obtain ⟨hn, d, hload, rfl⟩ := shaUpdate_eq_done hctx
  unfold Longer at hct ⊢
  rw [file_sink_taken hn hload hsink hle, List.length_append, List.length_append]
  omega

theorem longer_refuses (k : Nat) (w : Written .file) (data : Bytes) :
    Refuses .file (Longer k) w data := by
  intro hw r t hsink hlt
  unfold Longer at hw ⊢
  rw [(file_sink_refused hsink).2, List.length_append]
  omega

variable {bz : Bz2} {z : Zlib} {old patch : Bytes} {bonus_data : Option Bytes} {fuel : Nat}
  {s s' : ImgState .file} {data : Bytes}

/-- Behind a record that is stored in part the file is longer than what was hashed. -/
theorem longer_of_torn {i : Nat} (hnormal : NormalData bz .file old patch s data)
    (htorn : Torn s.out.token data) (hs : Longer 0 s.out.ctx s.out.token)
    (hpassed : ChunkPassed bz z .file old patch bonus_data fuel i s s') :
    Longer 1 s'.out.ctx s'.out.token := by
  obtain ⟨-, hn, f, hmem⟩ := hnormal
  cases hpassed with
  | raw hpay => exact absurd (hn.symm.trans hpay.2.1) (by decide)
  | deflate _ hd => exact absurd (hn.symm.trans hd) (by decide)
  | normal _ _ hrun =>
    obtain ⟨r, hmem', hrun⟩ := Outcome.bind_eq_done.mp hrun
    have hl := (applyBSDiffPatchMem_extends bz (Nat.le_max_left f fuel) _ _ _).done hmem
    have hr := (applyBSDiffPatchMem_extends bz (Nat.le_max_right f fuel) _ _ _).done hmem'
    obtain rfl := Outcome.done.inj (hl.symm.trans hr)
    obtain ⟨⟨n, token⟩, hsink, hrun⟩ := Outcome.bind_eq_done.mp hrun
    obtain ⟨hn', hstored⟩ := file_sink_refused hsink
    obtain ⟨hpos, hlt⟩ := htorn
    dsimp only at hrun
    rw [if_pos (by omega)] at hrun
    cases hrun
    have hlonger : Longer 1 s.out.ctx token := by
      unfold Longer at hs ⊢
      rw [hstored, List.length_append]
      omega
    exact hlonger

/-- Once the file is longer, it is longer behind every later record. -/
theorem longer_later {script : List Int} {i : Nat}
    (hs : ∀ s, LoopReaches bz z .file old patch bonus_data (startFile script) i s →
      Longer 1 s.out.ctx s.out.token) {j : Nat} (hij : i ≤ j) :
    ∀ s, LoopReaches bz z .file old patch bonus_data (startFile script) j s →
      Longer 1 s.out.ctx s.out.token := by
  induction j, hij using Nat.le_induction with
  | base => exact hs
  | succ j _ ih =>
    intro s hreach
    obtain ⟨t, ht, -, -, f, hstep⟩ := hreach.pred
    exact chunkPassed_synced (longer_synced 1) (fun data _ => longer_refuses 1 _ data) (ih t ht)
      (chunkStep_passed hstep)

/-- The file holds what was hashed exactly when no NORMAL record is stored in part. -/
theorem stored_eq_iff {env : Env} {script : List Int} {out : Written .file}
    (hrun : patchAttempt env.bz env.z .file env.fuel old patch bonus_data (startFile script) =
      .done (some (0, out))) :
    FileToken.stored out.token = out.ctx ↔ ¬CutNormal env old patch bonus_data script := by
  constructor
  · rintro heq ⟨i, s, data, ⟨hheader, hlt, hreach⟩, hnormal, htorn⟩
    obtain ⟨-, e, hloop, rfl⟩ := applyImagePatch_zero (patchAttempt_image hheader.magic hrun)
    obtain ⟨hend, hall⟩ := chunkLoop_zero .refl (Nat.zero_add _) hloop
    obtain ⟨t, t', ht, hstep, ht'⟩ := hall i (Nat.zero_le i) hlt
    obtain rfl : s = t := LoopReaches.unique (w := startFile script) hreach ht
    have hstart : Longer 0 s.out.ctx s.out.token :=
      chunkTurns_synced (longer_synced 0) hreach (fun u _ _ data _ => longer_refuses 0 _ data) le_rfl
    have hbehind := longer_of_torn hnormal htorn hstart (chunkStep_passed hstep)
    have hlonger := longer_later (fun u hu => hu.unique ht' ▸ hbehind) hlt e hend
    have hlen := congrArg List.length heq
    unfold Longer at hlonger
    omega
  · intro h
    exact patchAttempt_synced file_synced
      (fun i s hs data hd => file_refuses fun ht => h ⟨i, s, data, hs, hd, ht⟩) rfl hrun

end File

/-! ## The target behind a successful call -/

section Model

variable (env : Env) (a : Args)

/-- The target is loaded with the hash of the arguments. -/
def AlreadyDone (w : Storage) : Prop :=
  ∃ data, Loads env.sha w a.target_filename data ∧
    parseSha1 a.target_sha1_str = some (env.sha data)

/-- The target file has the hash of the arguments. -/
def TargetFile (w : Storage) : Prop :=
  ∃ content, w.files a.target_filename = some content ∧
    parseSha1 a.target_sha1_str = some (env.sha content)

/-- The target partition starts with data that has the hash of the arguments. -/
def TargetPartition (w : Storage) : Prop :=
  ∃ partition data rest, (nameTokens a.target_filename)[1]? = some partition ∧
    w.parts (partitionType a.target_filename) partition = data ++ rest ∧
    parseSha1 a.target_sha1_str = some (env.sha data)

/-- The target has the hash of the arguments. -/
def TargetHas (w : Storage) : Prop :=
  if isPartition a.target_filename then TargetPartition env a w else TargetFile env a w

/-- When the output was emptied, the results of `write` do not cut a NORMAL record of a patch
for a listed source; and the target is not deleted as the copy. -/
def Whole (w : Storage) : (o : Op) → Ans o → Storage → Prop
  | .writeResults, script, _ => isPartition a.target_filename = false →
      w.files (outname a.target_filename) = some [] → ∀ data patch,
        Matches a (env.sha data) patch → ¬CutNormal env data patch.data a.bonus_data script
  | .unlink name, _, w' => name = CACHE_TEMP_SOURCE →
      w'.files a.target_filename = w.files a.target_filename
  | _, _, _ => True

def WholeStep (w : Storage) (o : Op) (x : Ans o) (w' : Storage) : Prop :=
  Step w o x w' ∧ Whole env a w o x w'

end Model

section Success

variable {env : Env} {a : Args} {s : Sources} {w w₀ : Storage} {target_sha1 : Bytes}

theorem whole_step : ∀ (w : Storage) (o : Op) (x : Ans o) (w' : Storage),
    WholeStep env a w o x w' → Step w o x w' :=
  fun _ _ _ _ h => h.1

theorem Usable.toUse (h : Usable env a w s) : ∃ file data patch, s.toUse = (file, some patch) ∧
    file.data = some data ∧ Matches a (env.sha data) patch := by
  cases h with
  | source hpatch hsrc =>
    obtain ⟨data, hholds, -, hmatch⟩ := hsrc
    exact ⟨s.source_file, data, _, by rw [Sources.toUse, hpatch], hholds.data_eq, hmatch⟩
  | copy hnone _ hpatch hsrc =>
    obtain ⟨data, hholds, -, hmatch⟩ := hsrc
    exact ⟨s.copy_file, data, _, by rw [Sources.toUse, hnone, hpatch], hholds.data_eq, hmatch⟩

/-- The output has what was hashed. -/
theorem decodeSource_whole (hfile : isPartition a.target_filename = false)
    (hs : Usable env a w₀ s) :
    (decodeSource env a s).Always (WholeStep env a) (fun _ => True)
      (fun r w' => ∀ d, r = some (0, d) →
        w'.files (outname a.target_filename) = some d.ctx) w := by
  obtain ⟨file, data, patch, huse, hdata, hmatch⟩ := hs.toUse
  unfold decodeSource
  rw [huse]
  dsimp only
  split_ifs with hblob
  · unfold decode
    rw [hfile, if_neg Bool.false_ne_true, hdata, Option.getD_some]
    refine ⟨trivial, fun opened w₁ hstep => ?_⟩
    cases whole_step _ _ _ _ hstep with
    | openTrunc_fails => exact ⟨trivial, fun _ h => by cases h⟩
    | openTrunc_ok =>
      refine ⟨trivial, fun script w₂ hstep => ?_⟩
      obtain ⟨hstep, hwhole⟩ := hstep
      cases hstep
      have hcut := hwhole hfile setFile_self data patch hmatch
      show (fileDecoded a _).Always _ _ _ _
      cases hrun : patchAttempt env.bz env.z .file env.fuel data patch.data a.bonus_data
          (startFile script) with
      | fault => exact ⟨trivial, fun _ _ _ => crash_always trivial⟩
      | spin => exact ⟨trivial, fun _ _ _ => crash_always trivial⟩
      | done r =>
        rcases r with _ | ⟨ret, out⟩
        · exact ⟨trivial, fun _ h => by cases h⟩
        have happend := (@appendAll_always (w.setFile (outname a.target_filename) (some []))
          (outname a.target_filename) (FileToken.writes out.token) [] _ (.refl _ _)
          setFile_self).of_step (@whole_step env a)
        refine (happend.weaken fun _ _ => trivial).bind fun _ w₃ _ hout => ?_
        refine ⟨trivial, fun _ w₄ hstep => ⟨trivial, fun d h => ?_⟩⟩
        cases whole_step _ _ _ _ hstep
        cases h
        rw [hout, List.nil_append]
        exact congrArg some ((stored_eq_iff hrun).mpr hcut)
  · exact ⟨trivial, fun _ h => by cases h⟩

/-- The buffer has what was hashed. -/
theorem decodeSource_buffer (hpartition : isPartition a.target_filename = true) :
    (decodeSource env a s).Always Step (fun _ => True)
      (fun r _ => ∀ d, r = some (0, d) → d.buffer = d.ctx) w := by
  unfold decodeSource
  rcases s.toUse with ⟨file, _ | patch⟩
  · exact crash_always trivial
  dsimp only
  split_ifs with hblob
  · unfold decode
    rw [hpartition, if_pos rfl]
    refine (decodeToMemory_always.weaken fun _ _ => trivial).mono fun r w' _ hr d h => ?_
    obtain ⟨out, hrun, hctx, hbuffer⟩ := hr 0 d h
    rw [hctx, hbuffer]
    exact patchAttempt_synced memory_synced (fun i s _ data _ => memory_refuses s.out data) rfl hrun
  · exact ⟨trivial, fun _ h => by cases h⟩

theorem generateTarget_whole (hparse : parseSha1 a.target_sha1_str = some target_sha1)
    (hs : Usable env a w₀ s) :
    (generateTarget env a s target_sha1).Always (WholeStep env a) (fun _ => True)
      (fun r w' => r = 0 → TargetHas env a w') w := by
  unfold TargetHas
  cases htarget : isPartition a.target_filename with
  | false =>
    simp only [Bool.false_eq_true, if_false]
    refine generateTarget_always (fun w => decodeSource_whole htarget hs) (fun w d hsha hout => ?_) ?_
    · have hinstall := @install_always a s w htarget (WholeStep env a) whole_step d
      refine (hinstall.weaken fun _ _ => trivial).mono fun r w' _ hr hret => ?_
      cases whole_step _ _ _ _ (hr hret) with
      | rename_ok h =>
        obtain rfl := Option.some.inj (h.symm.trans hout)
        exact ⟨_, setFile_self, hsha ▸ hparse⟩
    · rintro w w' ⟨content, hcontent, hhash⟩ hstep
      exact ⟨content, (hstep.2 rfl).trans hcontent, hhash⟩
  | true =>
    simp only [if_true]
    refine generateTarget_always
      (fun w => (decodeSource_buffer htarget).of_step whole_step) (fun w d hsha hbuffer => ?_) ?_
    · unfold install
      rw [htarget, if_pos rfl]
      have hwrite := (@writeToPartition_always w d.buffer a.target_filename).of_step
        (@whole_step env a)
      refine (hwrite.weaken fun _ _ => trivial).bind fun r w' _ hr => ⟨trivial, fun hret => ?_⟩
      have hzero : r = 0 := by
        by_contra hne
        rw [if_pos hne] at hret
        exact absurd hret (by decide)
      obtain ⟨partition, rest, htoken, hparts⟩ := hr hzero
      exact ⟨partition, d.buffer, rest, htoken, hparts, by rw [hparse, hbuffer, hsha]⟩
    · rintro w w' ⟨partition, data, rest, htoken, hparts, hhash⟩ hstep
      refine ⟨partition, data, rest, htoken, ?_, hhash⟩
      cases whole_step _ _ _ _ hstep with
      | unlink_ok => exact hparts
      | unlink_fails => exact hparts

/-- In calls that do not cut a NORMAL record, success means that the target already had the
hash or has it now. -/
theorem applypatch_success (env : Env) (a : Args) (stack : FileContents) (w : Storage) :
    (applypatch env a stack).Always (WholeStep env (resolve a)) (fun _ => True)
      (fun r w' => r = 0 → AlreadyDone env (resolve a) w ∨ TargetHas env (resolve a) w') w := by
  unfold applypatch
  cases hparse : parseSha1 a.target_sha1_str with
  | none => exact ⟨trivial, fun h => absurd h (by decide)⟩
  | some target_sha1 =>
    have hresolved : parseSha1 (resolve a).target_sha1_str = some target_sha1 := by
      unfold resolve
      split_ifs
      · exact hparse
      · exact hparse
    refine applypatchTo_always whole_step trivial
      (fun data hloads hsha _ => .inl ⟨data, hloads, hsha ▸ hresolved⟩)
      (fun h => absurd h (by decide)) fun s hs => ?_
    exact (generateTarget_whole hresolved hs).mono fun r w' _ hr hret => .inr (hr hret)

end Success

section Demo

/-- What bzip2 makes of nothing, of two bytes, and of the control block of a patch that inserts
them. -/
def tornTable : CodeTable where
  entries := [
    ([], [0x42, 0x5a, 0x68, 0x39, 0x17, 0x72, 0x45, 0x38, 0x50, 0x90, 0x00, 0x00, 0x00, 0x00]),
    ([8, 9], [0x42, 0x5a, 0x68, 0x39, 0x31, 0x41, 0x59, 0x26, 0x53, 0x59, 0x57, 0xc9, 0x28, 0xdf,
      0x00, 0x00, 0x00, 0x40, 0x00, 0x00, 0x60, 0x20, 0x00, 0x21, 0x00, 0x82, 0xb1, 0x77,
      0x24, 0x53, 0x85, 0x09, 0x05, 0x7c, 0x92, 0x8d, 0xf0]),
    (offtout 0 ++ offtout 2 ++ offtout 0, [
      0x42, 0x5a, 0x68, 0x39, 0x31, 0x41, 0x59, 0x26, 0x53, 0x59, 0x5b, 0x3c, 0xfd, 0xb1,
      0x00, 0x00, 0x00, 0x40, 0x00, 0x54, 0x08, 0x20, 0x00, 0x21, 0x8c, 0x83, 0x34, 0xd1,
      0x09, 0x5d, 0x38, 0xbb, 0x92, 0x29, 0xc2, 0x84, 0x82, 0xd9, 0xe7, 0xed, 0x88])]
  marked := by
    intro e he
    simp only [List.mem_cons, List.not_mem_nil, or_false] at he
    rcases he with rfl | rfl | rfl
    · exact ⟨_, _, rfl, by decide⟩
    · exact ⟨_, _, rfl, by decide⟩
    · exact ⟨_, _, rfl, by decide⟩
  prefixFree := by decide

/-- The least code, of two bytes that are inserted. -/
def insertPatch : Bytes :=
  BSDIFF40 ++ offtout 41 ++ offtout 14 ++ offtout 2 ++
    tornTable.encode (offtout 0 ++ offtout 2 ++ offtout 0) ++ tornTable.encode [] ++
    tornTable.encode [8, 9]

/-- A RAW record of one byte, and a NORMAL record of two. -/
def tornPatch : Bytes :=
  IMGDIFF2 ++ leBytes 4 2 ++ (leBytes 4 3 ++ leBytes 4 1 ++ [7]) ++
    (leBytes 4 0 ++ leBytes 8 0 ++ leBytes 8 1 ++ leBytes 8 49) ++ insertPatch

def tornEnv : Env := { demoEnv [7] [1] with bz := .ofTable tornTable, fuel := 9 }

def tornArgs : Args :=
  { moveArgs with patches := [((List.replicate 20 [48, 49]).flatten, ⟨true, tornPatch⟩)] }

/-- The second byte of the NORMAL record is not written, and the record is not hashed. -/
theorem patchAttempt_torn : ∃ out : Written .file,
    patchAttempt tornEnv.bz tornEnv.z .file tornEnv.fuel [1] tornPatch none (startFile [1, 1, -1]) =
        .done (some (0, out)) ∧
      FileToken.stored out.token = [7, 8] ∧ (out.ctx : Bytes) = [7] := by
  have hrun : ((patchAttempt tornEnv.bz tornEnv.z .file tornEnv.fuel [1] tornPatch none
      (startFile [1, 1, -1])).value?.join.any fun r =>
        r.1 == 0 && FileToken.stored r.2.token == [7, 8] && (show Bytes from r.2.ctx) == [7]) =
      true := by
    decide +kernel
  obtain ⟨⟨result, out⟩, hsome, hall⟩ := (Option.any_eq_true _ _).mp hrun
  have heq := Outcome.value?_eq_some.mp (Option.join_eq_some_iff.mp hsome)
  simp only [Bool.and_eq_true, beq_iff_eq] at hall
  obtain ⟨⟨rfl, hstored⟩, hctx⟩ := hall
  exact ⟨out, heq, hstored, @eq_of_beq Bytes _ _ _ _ hctx⟩

/-- The output holds a byte that was not hashed. -/
theorem decodeSource_torn_runs {s : Sources} {w : Storage} {file : FileContents}
    (hdata : file.data = some [1]) (huse : s.toUse = (file, some ⟨true, tornPatch⟩)) :
    (decodeSource tornEnv tornArgs s).Runs Step w (some (0, ⟨[7], []⟩))
      (w.setFile (outname demoTarget) (some [7, 8])) := by
  obtain ⟨out, hrun, hstored, hctx⟩ := patchAttempt_torn
  have hdecode := @decode_runs_of_attempt tornEnv tornArgs w (by decide) [1] tornPatch
    [1, 1, -1] 0 out hrun
  rw [hstored, hctx] at hdecode
  unfold decodeSource
  simp only [huse, hdata, Option.getD_some, if_true]
  exact hdecode

/-- The storage behind the call. -/
def tornStorage : Storage :=
  installed tornArgs [7, 8] false (sourceStorage.setFile (outname demoTarget) (some [7, 8]))

theorem applypatch_torn_runs :
    (applypatch tornEnv tornArgs demoStack).Runs Step sourceStorage 0 tornStorage := by
  have hload : ∀ file, loadedFile tornEnv.sha true file (.ok [1] ⟨0, 0, 0⟩) =
      (0, loadedSource [1] ⟨0, 0, 0⟩) := fun file =>
    @loadedFile_source [7] [1] (by decide) (by decide) file _
  have henough : enoughSpace (freeSpace (some (1, 2 ^ 20))) tornArgs.target_size = true := by
    have hsize : toU32 ((tornArgs.target_size : Int) * 3) = 3 := by
      unfold toU32
      decide
    rw [freeSpace_some, enoughSpace, hsize]
    decide
  have hgen := @generateTarget_runs_of_decode tornEnv tornArgs
    ⟨loadedSource [1] ⟨0, 0, 0⟩, some ⟨true, tornPatch⟩, demoStack, none⟩ sourceStorage [7, 8]
    (List.replicate 20 0) (by decide) ⟨[7], []⟩ (by decide) sourceStorage 1 false
    (prepare_runs (by decide) (.statfs _ _) henough) (decodeSource_torn_runs rfl rfl)
  have hsource : (loadSource tornEnv tornArgs demoStack).Runs Step sourceStorage
      (loadedSource [1] ⟨0, 0, 0⟩) sourceStorage := by
    unfold loadSource
    rw [if_pos (.inl rfl), loadFileContents_file (by decide)]
    refine ⟨.ok [1] ⟨0, 0, 0⟩, _, .readFile_ok _ setFile_self, ?_⟩
    show (Prog.ret (loadedFile tornEnv.sha true _ (.ok [1] ⟨0, 0, 0⟩)).2).Runs _ _ _ _
    rw [hload]
    exact ⟨rfl, rfl⟩
  have hpatch : patchFor tornArgs (loadedSource [1] ⟨0, 0, 0⟩) = some ⟨true, tornPatch⟩ := by
    have hparse : parseSha1 (List.replicate 20 [48, 49]).flatten = some (List.replicate 20 1) := by
      decide
    show findMatchingPatch (List.replicate 20 1) tornArgs.patches = _
    unfold findMatchingPatch tornArgs
    rw [List.find?_cons_of_pos (by rw [hparse]; decide)]
    rfl
  refine applypatch_runs (by decide) parseSha1_target ?_
  refine applypatchTo_runs (by decide) (.readFile_statFails _) rfl
    (fun h => absurd h.1 (by decide)) ?_
  refine hsource.bind ?_
  rw [patchFrom, hpatch]
  exact hgen

theorem tornStorage_target : tornStorage.files demoTarget = some [7, 8] := by
  show ((((sourceStorage.setFile _ _).setFile _ none).setFile demoTarget (some [7, 8])).files
    demoTarget) = _
  exact setFile_self

/-- A call succeeds with a target that does not have the hash. -/
theorem applypatch_stores_torn :
    ¬∀ (env : Env) (a : Args) (stack : FileContents) (w w' : Storage),
      (applypatch env a stack).Runs Step w 0 w' →
      AlreadyDone env (resolve a) w ∨ TargetHas env (resolve a) w' := by
  intro h
  have hfile : isPartition demoTarget = false := by decide
  rcases h tornEnv tornArgs demoStack sourceStorage tornStorage applypatch_torn_runs with hdone | hhas
  · obtain ⟨data, hloads, -⟩ := hdone
    have hloads : Loads tornEnv.sha sourceStorage demoTarget data := hloads
    unfold Loads at hloads
    rw [if_neg (by decide)] at hloads
    obtain ⟨content, hcontent, -⟩ := hloads
    rw [sourceStorage, setFile_of_ne (by decide)] at hcontent
    cases hcontent
  · have htarget : TargetFile tornEnv (resolve tornArgs) tornStorage := by
      unfold TargetHas at hhas
      rw [if_neg (by decide)] at hhas
      exact hhas
    obtain ⟨content, hcontent, hhash⟩ := htarget
    obtain rfl := Option.some.inj (tornStorage_target.symm.trans hcontent)
    exact absurd hhash (by decide)

end Demo

end BootableRecovery.Applypatch
