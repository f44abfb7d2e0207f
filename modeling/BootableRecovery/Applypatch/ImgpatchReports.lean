import BootableRecovery.Applypatch.Imgpatch

/-!
# What `ApplyImagePatch` reports: `imgpatch.c` and the loop of `GenerateTarget`

`ChunkApplied` says that a record was applied to its end: nothing on the way failed and
the sink took every byte. `GenerateTarget` looks at the return value only.

Main result:
* `image_reports_iff`: for which patches a return value of 0, and with it the success
  path of `GenerateTarget`, means that every record was applied.
-/

namespace BootableRecovery.Applypatch

/-- zlib as documented: a stream that `deflateInit2` did not initialise is never
deflated to its end. -/
structure DocumentedZlib extends Zlib where
  broken : DeflateStream → Prop
  deflateInit2_broken : ∀ data level method windowBits memLevel strategy,
    (deflateInit2 data level method windowBits memLevel strategy).1 ≠ Z_OK →
      broken (deflateInit2 data level method windowBits memLevel strategy).2
  deflate_broken : ∀ strm room, broken strm →
    (deflate strm room).1 ≠ Z_STREAM_END ∧ broken (deflate strm room).2.2

/-! ## `GenerateTarget` -/

/-- Where the loop of `GenerateTarget` goes after a patch was applied. -/
inductive AttemptEnd where
  | success
  | retry
  | error
  deriving DecidableEq, Repr

/-- The test of `result` behind the call. -/
def attemptEnd (retry result : Int) : AttemptEnd :=
  if result ≠ 0 then
    if retry = 0 then .error else .retry
  else .success

/-- The call itself; `none` when the format of the patch is unknown. -/
def patchAttempt (bz : Bz2) (z : Zlib) (o : Output) (fuel : Nat) (source patch : Bytes)
    (bonus_data : Option Bytes) (w : Written o) : Outcome (Option (Int × Written o)) := do
  if 8 ≤ patch.length ∧ slice patch 0 8 = BSDIFF40 then
    let r ← applyBSDiffPatch bz o fuel (.ofBytes source) patch 0 w
    .done (some r)
  else if 8 ≤ patch.length ∧ slice patch 0 8 = IMGDIFF2 then
    let r ← applyImagePatch bz z o fuel source patch bonus_data w
    .done (some r)
  else .done none

/-! ## Complete applications -/

section Applied

variable (bz : Bz2) (z : Zlib) (o : Output) (old patch : Bytes) (bonus_data : Option Bytes)

/-- The sink takes all the bytes, and they are hashed. -/
def Accepted (w : Written o) (data : Bytes) (w' : Written o) : Prop :=
  o.sink w.token data 0 data.length = .done ((data.length : Int), w'.token) ∧
    o.update w.ctx data 0 data.length = .done w'.ctx

/-- A stream is deflated to its end, and all of it is accepted. -/
inductive Recompressed (temp_size : Nat) : z.DeflateStream → Written o → Written o → Prop where
  | last {strm strm' out w w'} : z.deflate strm temp_size = (Z_STREAM_END, out, strm') →
      Accepted o w out w' → Recompressed temp_size strm w w'
  | more {strm strm' ret out w w₁ w'} : z.deflate strm temp_size = (ret, out, strm') →
      ret ≠ Z_STREAM_END → Accepted o w out w₁ → Recompressed temp_size strm' w₁ w' →
      Recompressed temp_size strm w w'

/-- The fields of a DEFLATE record with its header at `pos`. -/
def deflateParams (pos : Int) : DeflateParams where
  expanded_len := field8 patch (pos + 24)
  target_len := field8 patch (pos + 32)
  level := field4 patch (pos + 40)
  method := field4 patch (pos + 44)
  windowBits := field4 patch (pos + 48)
  memLevel := field4 patch (pos + 52)
  strategy := field4 patch (pos + 56)

/-- The source of the NORMAL record with its header at `pos`. -/
def normalSource (pos : Int) : OldData :=
  ⟨old, field8 patch pos, wrap32 (field8 patch (pos + 8))⟩

/-- `patch_offset` in the header at `pos`. -/
def patchOffset (pos : Int) : Int := wrap32 (field8 patch (pos + 16))

/-- The chunk inflates to the recorded length, the bonus data included. -/
def Inflates (bonus : Bytes) (pos : Int) (out : Bytes) : Prop :=
  z.inflateInit2 = Z_OK ∧
    z.inflate old (field8 patch pos) (field8 patch (pos + 8)) (deflateParams patch pos).expanded_len =
      (Z_STREAM_END, out) ∧
    out.length + bonus.length = (deflateParams patch pos).expanded_len

/-- Record `i`, at `s`, is applied to its end. -/
inductive ChunkApplied (i : Nat) (s : ImgState o) : ImgState o → Prop where
  | normal {fuel new_data n w'} : HeaderRead patch s.pos 24 → field4 patch s.pos = CHUNK_NORMAL →
      applyBSDiffPatchMem bz fuel (normalSource old patch (typeEnd s.pos)) patch
        (patchOffset patch (typeEnd s.pos)) = .done (some new_data) →
      o.sink s.out.token new_data 0 new_data.length = .done (n, w'.token) → new_data.length ≤ n →
      o.update s.out.ctx new_data 0 new_data.length = .done w'.ctx →
      ChunkApplied i s ⟨headerEnd s.pos 24, w'⟩
  | raw {w'} : PayloadRead patch s.pos →
      o.update s.out.ctx patch (headerEnd s.pos 4) (field4 patch (typeEnd s.pos)) = .done w'.ctx →
      o.sink s.out.token patch (headerEnd s.pos 4) (field4 patch (typeEnd s.pos)) =
        .done (field4 patch (typeEnd s.pos), w'.token) →
      ChunkApplied i s ⟨payloadEnd patch s.pos, w'⟩
  | deflate {fuel out target strm w'} : HeaderRead patch s.pos 60 →
      field4 patch s.pos = CHUNK_DEFLATE →
      Inflates z old patch (chunkBonus bonus_data i) (typeEnd s.pos) out →
      applyBSDiffPatchMem bz fuel
        ⟨out ++ chunkBonus bonus_data i, 0, wrap32 (deflateParams patch (typeEnd s.pos)).expanded_len⟩
        patch (patchOffset patch (typeEnd s.pos)) = .done (some target) →
      z.deflateInit2 target (deflateParams patch (typeEnd s.pos)).level
        (deflateParams patch (typeEnd s.pos)).method
        (deflateParams patch (typeEnd s.pos)).windowBits
        (deflateParams patch (typeEnd s.pos)).memLevel
        (deflateParams patch (typeEnd s.pos)).strategy = (Z_OK, strm) →
      Recompressed z o (tempSize (deflateParams patch (typeEnd s.pos)).expanded_len) strm s.out w' →
      ChunkApplied i s ⟨headerEnd s.pos 60, w'⟩

/-- What record `i`, at `s`, does when the loop goes on behind it. The results of
`ApplyBSDiffPatch` and of `deflateInit2` are not looked at. -/
inductive ChunkPassed (fuel i : Nat) (s : ImgState o) : ImgState o → Prop where
  | normal {ret w'} : HeaderRead patch s.pos 24 → field4 patch s.pos = CHUNK_NORMAL →
      applyBSDiffPatch bz o fuel (normalSource old patch (typeEnd s.pos)) patch
        (patchOffset patch (typeEnd s.pos)) s.out = .done (ret, w') →
      ChunkPassed fuel i s ⟨headerEnd s.pos 24, w'⟩
  | raw {w'} : PayloadRead patch s.pos →
      o.update s.out.ctx patch (headerEnd s.pos 4) (field4 patch (typeEnd s.pos)) = .done w'.ctx →
      o.sink s.out.token patch (headerEnd s.pos 4) (field4 patch (typeEnd s.pos)) =
        .done (field4 patch (typeEnd s.pos), w'.token) →
      ChunkPassed fuel i s ⟨payloadEnd patch s.pos, w'⟩
  | deflate {out target w'} : HeaderRead patch s.pos 60 → field4 patch s.pos = CHUNK_DEFLATE →
      Inflates z old patch (chunkBonus bonus_data i) (typeEnd s.pos) out →
      applyBSDiffPatchMem bz fuel
        ⟨out ++ chunkBonus bonus_data i, 0, wrap32 (deflateParams patch (typeEnd s.pos)).expanded_len⟩
        patch (patchOffset patch (typeEnd s.pos)) = .done (some target) →
      Recompressed z o (tempSize (deflateParams patch (typeEnd s.pos)).expanded_len)
        (z.deflateInit2 target (deflateParams patch (typeEnd s.pos)).level
          (deflateParams patch (typeEnd s.pos)).method
          (deflateParams patch (typeEnd s.pos)).windowBits
          (deflateParams patch (typeEnd s.pos)).memLevel
          (deflateParams patch (typeEnd s.pos)).strategy).2 s.out w' →
      ChunkPassed fuel i s ⟨headerEnd s.pos 60, w'⟩

/-- The loop gets from the first record, with the output `w`, to record `i`. -/
def LoopReaches (w : Written o) (i : Nat) (s : ImgState o) : Prop :=
  Relation.ReflTransGen (ChunkTurns bz z o old patch bonus_data) (0, ⟨12, w⟩) (i, s)

/-- The loop applies every record, and `w'` is the output behind the last one. -/
structure AllApplied (w w' : Written o) : Prop where
  header : ImageHeader patch
  records : ∀ i, i < numChunks patch → ∃ s s', LoopReaches bz z o old patch bonus_data w i s ∧
    ChunkApplied bz z o old patch bonus_data i s s' ∧
    LoopReaches bz z o old patch bonus_data w (i + 1) s'
  output : ∃ s, LoopReaches bz z o old patch bonus_data w (numChunks patch) s ∧ s.out = w'

/-- Success is reported only when every record was applied. -/
structure ImageReports (w : Written o) : Prop where
  returns : ∀ fuel w', applyImagePatch bz z o fuel old patch bonus_data w = .done (0, w') →
    AllApplied bz z o old patch bonus_data w w'
  attempt : ∀ retry fuel result w', slice patch 0 8 = IMGDIFF2 →
    patchAttempt bz z o fuel old patch bonus_data w = .done (some (result, w')) →
    attemptEnd retry result = .success → AllApplied bz z o old patch bonus_data w w'

/-- The record at `s` is a NORMAL one whose `ApplyBSDiffPatch` does not return 0. -/
def NormalFails (s : ImgState o) : Prop :=
  HeaderRead patch s.pos 24 ∧ field4 patch s.pos = CHUNK_NORMAL ∧
    ∃ fuel ret w', applyBSDiffPatch bz o fuel (normalSource old patch (typeEnd s.pos)) patch
      (patchOffset patch (typeEnd s.pos)) s.out = .done (ret, w') ∧ ret ≠ 0

/-- The loop does not get past the record `i` at `s`. -/
def Stuck (i : Nat) (s : ImgState o) : Prop :=
  ∀ fuel s', chunkStep bz z o fuel old patch bonus_data i s ≠ .done (0, s')

end Applied

/-! ## One record -/

section Step

variable {bz : Bz2} {o : Output} {old patch : Bytes} {bonus_data : Option Bytes}

theorem applyBSDiffPatch_extends (z : Bz2) {f f' : Nat} (hf : f ≤ f') (old : OldData)
    (patch : Bytes) (patch_offset : Int) (w : Written o) :
    (applyBSDiffPatch z o f old patch patch_offset w).Extends
      (applyBSDiffPatch z o f' old patch patch_offset w) := by
  unfold applyBSDiffPatch
  exact (applyBSDiffPatchMem_extends z hf old patch patch_offset).bind fun _ => .refl _

theorem applyBSDiffPatch_unique {f f' : Nat} {old : OldData} {patch : Bytes} {patch_offset : Int}
    {w : Written o} {r r' : Int × Written o}
    (h : applyBSDiffPatch bz o f old patch patch_offset w = .done r)
    (h' : applyBSDiffPatch bz o f' old patch patch_offset w = .done r') : r = r' := by
  have hl := (applyBSDiffPatch_extends bz (Nat.le_max_left f f') old patch patch_offset w).done h
  have hr := (applyBSDiffPatch_extends bz (Nat.le_max_right f f') old patch patch_offset w).done h'
  exact Outcome.done.inj (hl.symm.trans hr)

/-- What a return value of 0 says. -/
theorem applyBSDiffPatch_zero {fuel : Nat} {old : OldData} {patch : Bytes} {patch_offset : Int}
    {w w' : Written o} (h : applyBSDiffPatch bz o fuel old patch patch_offset w = .done (0, w')) :
    ∃ new_data n, applyBSDiffPatchMem bz fuel old patch patch_offset = .done (some new_data) ∧
      o.sink w.token new_data 0 new_data.length = .done (n, w'.token) ∧ new_data.length ≤ n ∧
      o.update w.ctx new_data 0 new_data.length = .done w'.ctx := by
  obtain ⟨r, hmem, h⟩ := Outcome.bind_eq_done.mp h
  cases r with
  | none => cases h
  | some new_data =>
    obtain ⟨⟨n, token⟩, hsink, h⟩ := Outcome.bind_eq_done.mp h
    dsimp only at h
    split_ifs at h with hlt
    · cases h
    · obtain ⟨ctx, hctx, h⟩ := Outcome.bind_eq_done.mp h
      cases h
      exact ⟨new_data, n, hmem, hsink, not_lt.mp hlt, hctx⟩

theorem applyBSDiffPatch_of_applied {fuel : Nat} {old : OldData} {patch new_data : Bytes}
    {patch_offset n : Int} {w w' : Written o}
    (hmem : applyBSDiffPatchMem bz fuel old patch patch_offset = .done (some new_data))
    (hsink : o.sink w.token new_data 0 new_data.length = .done (n, w'.token))
    (hn : new_data.length ≤ n) (hctx : o.update w.ctx new_data 0 new_data.length = .done w'.ctx) :
    applyBSDiffPatch bz o fuel old patch patch_offset w = .done (0, w') := by
  simp only [applyBSDiffPatch, hmem, Outcome.done_bind, hsink]
  rw [if_neg (not_lt.mpr hn), hctx]
  rfl

theorem deflateLoop_extends (z : Zlib) (temp_size : Nat) {f f' : Nat} (hf : f ≤ f')
    (strm : z.DeflateStream) (w : Written o) :
    (deflateLoop z o temp_size f strm w).Extends (deflateLoop z o temp_size f' strm w) := by
  induction f generalizing f' strm w with
  | zero => exact .of_spin
  | succ f ih =>
    obtain ⟨f', rfl⟩ : ∃ k, f' = k + 1 := ⟨f' - 1, by omega⟩
    unfold deflateLoop
    refine (Outcome.Extends.refl _).bind fun r => ?_
    dsimp only
    split_ifs
    · exact .refl _
    · exact (Outcome.Extends.refl _).bind fun _ => ih (Nat.le_of_succ_le_succ hf) _ _
    · exact .refl _

/-- What a return value of 0 says. -/
theorem deflateLoop_zero {z : Zlib} {temp_size fuel : Nat} {strm : z.DeflateStream}
    {w w' : Written o} (h : deflateLoop z o temp_size fuel strm w = .done (0, w')) :
    Recompressed z o temp_size strm w w' := by
  induction fuel generalizing strm w with
  | zero => cases h
  | succ fuel ih =>
    obtain ⟨ret, out, strm', hd⟩ : ∃ ret out strm', z.deflate strm temp_size = (ret, out, strm') :=
      ⟨_, _, _, rfl⟩
    unfold deflateLoop at h
    rw [hd] at h
    obtain ⟨⟨n, token⟩, hsink, h⟩ := Outcome.bind_eq_done.mp h
    dsimp only at h
    split_ifs at h with hn hret
    · cases h
    · obtain ⟨ctx, hctx, h⟩ := Outcome.bind_eq_done.mp h
      obtain rfl := not_ne_iff.mp hn
      exact .more hd hret ⟨hsink, hctx⟩ (ih h)
    · obtain ⟨ctx, hctx, hdone⟩ := Outcome.bind_eq_done.mp h
      obtain rfl := not_ne_iff.mp hn
      obtain rfl := not_ne_iff.mp hret
      cases hdone
      exact .last hd ⟨hsink, hctx⟩

/-- A stream that was not initialised is never deflated to its end. -/
theorem Recompressed.not_broken {z : DocumentedZlib} {temp_size : Nat} {strm : z.DeflateStream}
    {w w' : Written o} (h : Recompressed z.toZlib o temp_size strm w w') : ¬z.broken strm := by
  intro hbroken
  induction h with
  | @last strm _ _ _ _ hd _ =>
    have hret := (z.deflate_broken strm temp_size hbroken).1
    rw [hd] at hret
    exact hret rfl
  | @more strm _ _ _ _ _ _ hd _ _ _ ih =>
    have hnext := (z.deflate_broken strm temp_size hbroken).2
    rw [hd] at hnext
    exact ih hnext

theorem readDeflateParams_eq {pos : Int} {p : DeflateParams}
    (h : readDeflateParams patch pos = .done p) : p = deflateParams patch pos := by
  unfold readDeflateParams at h
  obtain ⟨_, h24, h⟩ := Outcome.bind_eq_done.mp h
  obtain ⟨_, h32, h⟩ := Outcome.bind_eq_done.mp h
  obtain ⟨_, h40, h⟩ := Outcome.bind_eq_done.mp h
  obtain ⟨_, h44, h⟩ := Outcome.bind_eq_done.mp h
  obtain ⟨_, h48, h⟩ := Outcome.bind_eq_done.mp h
  obtain ⟨_, h52, h⟩ := Outcome.bind_eq_done.mp h
  obtain ⟨_, h56, h⟩ := Outcome.bind_eq_done.mp h
  obtain ⟨_, _, rfl⟩ := read8_eq_done h24
  obtain ⟨_, _, rfl⟩ := read8_eq_done h32
  obtain ⟨_, _, rfl⟩ := read4_eq_done h40
  obtain ⟨_, _, rfl⟩ := read4_eq_done h44
  obtain ⟨_, _, rfl⟩ := read4_eq_done h48
  obtain ⟨_, _, rfl⟩ := read4_eq_done h52
  obtain ⟨_, _, rfl⟩ := read4_eq_done h56
  cases h
  rfl

theorem expandSource_some {z : Zlib} {bonus expanded : Bytes} {pos : Int}
    (h : expandSource z old (field8 patch pos) (field8 patch (pos + 8))
      (deflateParams patch pos).expanded_len bonus = some expanded) :
    ∃ out, expanded = out ++ bonus ∧ Inflates z old patch bonus pos out := by
  unfold expandSource at h
  split_ifs at h with hinit
  obtain ⟨ret, out, hinf⟩ : ∃ ret out, z.inflate old (field8 patch pos) (field8 patch (pos + 8))
      (deflateParams patch pos).expanded_len = (ret, out) := ⟨_, _, rfl⟩
  have hle := z.inflate_le old (field8 patch pos) (field8 patch (pos + 8))
    (deflateParams patch pos).expanded_len
  rw [hinf] at h hle
  dsimp only at h hle
  split_ifs at h with hret hlen
  obtain rfl := not_ne_iff.mp hret
  cases h
  exact ⟨out, rfl, not_ne_iff.mp hinit, hinf, by omega⟩

theorem chunkStep_passed {z : Zlib} {fuel i : Nat} {s s' : ImgState o}
    (h : chunkStep bz z o fuel old patch bonus_data i s = .done (0, s')) :
    ChunkPassed bz z o old patch bonus_data fuel i s s' := by
  unfold chunkStep at h
  split_ifs at h with hread
  · cases h
  have hread' : RecordRead patch s.pos := not_lt.mp hread
  obtain ⟨type, htype, h⟩ := Outcome.bind_eq_done.mp h
  obtain ⟨_, _, rfl⟩ := read4_eq_done htype
  by_cases hn : field4 patch s.pos = CHUNK_NORMAL
  · rw [if_pos hn] at h
    unfold normalChunk at h
    dsimp only at h
    split_ifs at h with hend
    · cases h
    obtain ⟨_, h0, h⟩ := Outcome.bind_eq_done.mp h
    obtain ⟨_, h8, h⟩ := Outcome.bind_eq_done.mp h
    obtain ⟨_, h16, h⟩ := Outcome.bind_eq_done.mp h
    obtain ⟨_, _, rfl⟩ := read8_eq_done h0
    obtain ⟨_, _, rfl⟩ := read8_eq_done h8
    obtain ⟨_, _, rfl⟩ := read8_eq_done h16
    obtain ⟨⟨ret, w'⟩, hpatch, h⟩ := Outcome.bind_eq_done.mp h
    cases h
    exact .normal ⟨hread', if_pos hn, not_lt.mp hend⟩ hn hpatch
  rw [if_neg hn] at h
  by_cases hr : field4 patch s.pos = CHUNK_RAW
  · rw [if_pos hr] at h
    unfold rawChunk at h
    dsimp only at h
    split_ifs at h with hend
    · cases h
    obtain ⟨data_len, hlen, h⟩ := Outcome.bind_eq_done.mp h
    obtain ⟨_, _, rfl⟩ := read4_eq_done hlen
    split_ifs at h with hpay
    · cases h
    obtain ⟨ctx, hctx, h⟩ := Outcome.bind_eq_done.mp h
    obtain ⟨⟨n, token⟩, hsink, h⟩ := Outcome.bind_eq_done.mp h
    dsimp only at h
    split_ifs at h with hn'
    · cases h
    obtain rfl := not_ne_iff.mp hn'
    have hread4 : HeaderRead patch s.pos 4 :=
      ⟨hread', (if_neg hn).trans (if_pos hr), not_lt.mp hend⟩
    cases h
    exact @ChunkPassed.raw bz z o old patch bonus_data fuel i s ⟨token, ctx⟩
      ⟨hread4, hr, not_lt.mp hpay⟩ hctx hsink
  rw [if_neg hr] at h
  by_cases hd : field4 patch s.pos = CHUNK_DEFLATE
  · rw [if_pos hd] at h
    unfold deflateChunk at h
    dsimp only at h
    split_ifs at h with hend
    · cases h
    obtain ⟨_, h0, h⟩ := Outcome.bind_eq_done.mp h
    obtain ⟨_, h8, h⟩ := Outcome.bind_eq_done.mp h
    obtain ⟨_, h16, h⟩ := Outcome.bind_eq_done.mp h
    obtain ⟨_, _, rfl⟩ := read8_eq_done h0
    obtain ⟨_, _, rfl⟩ := read8_eq_done h8
    obtain ⟨_, _, rfl⟩ := read8_eq_done h16
    obtain ⟨p, hp, h⟩ := Outcome.bind_eq_done.mp h
    obtain rfl := readDeflateParams_eq hp
    split at h
    · cases h
    next expanded hexpanded =>
      obtain ⟨out, rfl, hinflates⟩ := expandSource_some hexpanded
      obtain ⟨r, hmem, h⟩ := Outcome.bind_eq_done.mp h
      cases r with
      | none => cases h
      | some target =>
        obtain ⟨⟨ret, w'⟩, hloop, h⟩ := Outcome.bind_eq_done.mp h
        have hheader : HeaderRead patch s.pos 60 :=
          ⟨hread', (if_neg hn).trans ((if_neg hr).trans (if_pos hd)), not_lt.mp hend⟩
        cases h
        exact .deflate hheader hd hinflates hmem (deflateLoop_zero hloop)
  rw [if_neg hd] at h
  cases h

/-- A record behind which the loop goes on was applied, or it is a NORMAL one whose
`ApplyBSDiffPatch` failed. -/
theorem chunkStep_zero {z : DocumentedZlib} {fuel i : Nat} {s s' : ImgState o}
    (h : chunkStep bz z.toZlib o fuel old patch bonus_data i s = .done (0, s')) :
    ChunkApplied bz z.toZlib o old patch bonus_data i s s' ∨ NormalFails bz o old patch s := by
  cases chunkStep_passed h with
  | @normal ret w' hheader hn hpatch =>
    by_cases hret : ret = 0
    · subst hret
      obtain ⟨new_data, n, hmem, hsink, hle, hctx⟩ := applyBSDiffPatch_zero hpatch
      exact .inl (.normal hheader hn hmem hsink hle hctx)
    · exact .inr ⟨hheader, hn, fuel, ret, w', hpatch, hret⟩
  | raw hpay hctx hsink => exact .inl (.raw hpay hctx hsink)
  | deflate hheader hd hinflates hmem hrec =>
    refine .inl (.deflate hheader hd hinflates hmem (Prod.ext ?_ rfl) hrec)
    by_contra hinit
    exact hrec.not_broken (z.deflateInit2_broken _ _ _ _ _ _ hinit)

theorem ChunkApplied.not_fails {z : Zlib} {i : Nat} {s s' : ImgState o}
    (h : ChunkApplied bz z o old patch bonus_data i s s') : ¬NormalFails bz o old patch s := by
  rintro ⟨_, htype, fuel, ret, w, hpatch, hret⟩
  cases h with
  | normal _ _ hmem hsink hle hctx =>
    have heq := applyBSDiffPatch_unique hpatch (applyBSDiffPatch_of_applied hmem hsink hle hctx)
    exact hret (congrArg Prod.fst heq)
  | raw hpay _ _ => exact absurd (htype.symm.trans hpay.2.1) (by decide)
  | deflate _ hd _ _ _ _ => exact absurd (htype.symm.trans hd) (by decide)

theorem chunkStep_extends (z : Zlib) {f f' : Nat} (hf : f ≤ f') (i : Nat) (s : ImgState o) :
    (chunkStep bz z o f old patch bonus_data i s).Extends
      (chunkStep bz z o f' old patch bonus_data i s) := by
  unfold chunkStep
  split_ifs
  · exact .refl _
  refine (Outcome.Extends.refl _).bind fun type => ?_
  by_cases hn : type = CHUNK_NORMAL
  · rw [if_pos hn, if_pos hn]
    unfold normalChunk
    dsimp only
    split_ifs
    · exact .refl _
    refine (Outcome.Extends.refl _).bind fun _ => (Outcome.Extends.refl _).bind fun _ =>
      (Outcome.Extends.refl _).bind fun _ => ?_
    exact (applyBSDiffPatch_extends bz hf _ _ _ _).bind fun _ => .refl _
  rw [if_neg hn, if_neg hn]
  by_cases hr : type = CHUNK_RAW
  · rw [if_pos hr, if_pos hr]
    exact .refl _
  rw [if_neg hr, if_neg hr]
  by_cases hd : type = CHUNK_DEFLATE
  · rw [if_pos hd, if_pos hd]
    unfold deflateChunk
    dsimp only
    split_ifs
    · exact .refl _
    refine (Outcome.Extends.refl _).bind fun _ => (Outcome.Extends.refl _).bind fun _ =>
      (Outcome.Extends.refl _).bind fun _ => (Outcome.Extends.refl _).bind fun p => ?_
    split
    · exact .refl _
    refine (applyBSDiffPatchMem_extends bz hf _ _ _).bind fun r => ?_
    cases r with
    | none => exact .refl _
    | some target => exact (deflateLoop_extends z _ hf _ _).bind fun _ => .refl _
  · rw [if_neg hd, if_neg hd]
    exact .refl _

theorem chunkStep_unique {z : Zlib} {f f' i : Nat} {s : ImgState o} {r r' : Int × ImgState o}
    (h : chunkStep bz z o f old patch bonus_data i s = .done r)
    (h' : chunkStep bz z o f' old patch bonus_data i s = .done r') : r = r' := by
  have hl := (chunkStep_extends z (Nat.le_max_left f f') i s).done h
  have hr := (chunkStep_extends z (Nat.le_max_right f f') i s).done h'
  exact Outcome.done.inj (hl.symm.trans hr)

end Step

/-! ## The loop over the records -/

section Loop

variable {bz : Bz2} {z : Zlib} {o : Output} {old patch : Bytes} {bonus_data : Option Bytes}
  {w w' : Written o}

theorem LoopReaches.zero {s : ImgState o} (h : LoopReaches bz z o old patch bonus_data w 0 s) :
    s = ⟨12, w⟩ := by
  cases h with
  | refl => rfl
  | tail _ hturn => exact absurd hturn.2.1 (by simp)

theorem LoopReaches.pred {i : Nat} {s : ImgState o}
    (h : LoopReaches bz z o old patch bonus_data w (i + 1) s) :
    ∃ t, LoopReaches bz z o old patch bonus_data w i t ∧
      ChunkTurns bz z o old patch bonus_data (i, t) (i + 1, s) := by
  rcases Relation.ReflTransGen.cases_tail h with h | ⟨⟨j, t⟩, hreach, hturn⟩
  · exact absurd (congrArg Prod.fst h) (Nat.succ_ne_zero i)
  · obtain rfl : i = j := Nat.succ.inj hturn.2.1
    exact ⟨t, hreach, hturn⟩

/-- The run has one state for each record. -/
theorem LoopReaches.unique {i : Nat} {s t : ImgState o}
    (hs : LoopReaches bz z o old patch bonus_data w i s)
    (ht : LoopReaches bz z o old patch bonus_data w i t) : s = t := by
  induction i generalizing s t with
  | zero => rw [hs.zero, ht.zero]
  | succ i ih =>
    obtain ⟨s₁, hs₁, _, _, f, hf⟩ := hs.pred
    obtain ⟨t₁, ht₁, _, _, f', hf'⟩ := ht.pred
    obtain rfl := ih hs₁ ht₁
    exact congrArg Prod.snd (chunkStep_unique hf hf')

/-- A loop that returns 0 goes through all the records. -/
theorem chunkLoop_zero {fuel n i : Nat} {s s' : ImgState o}
    (hreach : LoopReaches bz z o old patch bonus_data w i s) (hi : i + n = numChunks patch)
    (h : chunkLoop bz z o fuel old patch bonus_data n i s = .done (0, s')) :
    LoopReaches bz z o old patch bonus_data w (numChunks patch) s' ∧
      ∀ j, i ≤ j → j < numChunks patch → ∃ t t', LoopReaches bz z o old patch bonus_data w j t ∧
        chunkStep bz z o fuel old patch bonus_data j t = .done (0, t') ∧
        LoopReaches bz z o old patch bonus_data w (j + 1) t' := by
  induction n generalizing i s with
  | zero =>
    cases h
    obtain rfl : i = numChunks patch := hi
    exact ⟨hreach, fun j hle hlt => absurd hle (not_le.mpr hlt)⟩
  | succ n ih =>
    obtain ⟨⟨ret, s₁⟩, hstep, h⟩ := Outcome.bind_eq_done.mp h
    dsimp only at h
    split_ifs at h with hret
    · exact absurd (congrArg Prod.fst (Outcome.done.inj h)) hret
    obtain rfl := not_ne_iff.mp hret
    have hturn : ChunkTurns bz z o old patch bonus_data (i, s) (i + 1, s₁) :=
      ⟨by simp only; omega, rfl, fuel, hstep⟩
    have hreach' := Relation.ReflTransGen.tail hreach hturn
    obtain ⟨hend, hall⟩ := ih hreach' (by omega) h
    refine ⟨hend, fun j hle hlt => ?_⟩
    rcases Nat.eq_or_lt_of_le hle with rfl | hlt'
    · exact ⟨s, s₁, hreach, hstep, hreach'⟩
    · exact hall j hlt' hlt

theorem chunkLoop_extends {f f' : Nat} (hf : f ≤ f') (n i : Nat) (s : ImgState o) :
    (chunkLoop bz z o f old patch bonus_data n i s).Extends
      (chunkLoop bz z o f' old patch bonus_data n i s) := by
  induction n generalizing i s with
  | zero => exact .refl _
  | succ n ih =>
    unfold chunkLoop
    refine (chunkStep_extends z hf i s).bind fun r => ?_
    dsimp only
    split_ifs
    · exact .refl _
    · exact ih _ _

/-- When no record is in the way, the loop returns 0. -/
theorem chunkLoop_returns {n i : Nat} {s : ImgState o}
    (hreach : LoopReaches bz z o old patch bonus_data w i s) (hi : i + n = numChunks patch)
    (h : ∀ j t, LoopReaches bz z o old patch bonus_data w j t → j < numChunks patch →
      ¬Stuck bz z o old patch bonus_data j t) :
    ∃ fuel s', chunkLoop bz z o fuel old patch bonus_data n i s = .done (0, s') := by
  induction n generalizing i s with
  | zero => exact ⟨0, s, rfl⟩
  | succ n ih =>
    have hlt : i < numChunks patch := by omega
    obtain ⟨f, s₁, hstep⟩ : ∃ f s₁, chunkStep bz z o f old patch bonus_data i s = .done (0, s₁) := by
      by_contra hstuck
      exact h i s hreach hlt fun f s' hf => hstuck ⟨f, s', hf⟩
    obtain ⟨f', s', hloop⟩ := ih (hreach.tail ⟨hlt, rfl, f, hstep⟩) (by omega)
    refine ⟨max f f', s', ?_⟩
    unfold chunkLoop
    rw [(chunkStep_extends z (Nat.le_max_left f f') i s).done hstep, Outcome.done_bind]
    exact (chunkLoop_extends (Nat.le_max_right f f') n (i + 1) s₁).done hloop

theorem applyImagePatch_header (h : ImageHeader patch) (fuel : Nat) :
    applyImagePatch bz z o fuel old patch bonus_data w = (do
      let (ret, s) ← chunkLoop bz z o fuel old patch bonus_data (numChunks patch) 0 ⟨12, w⟩
      .done (ret, s.out)) := by
  have hmagic : load patch 0 8 = .done (slice patch 0 8) :=
    load_ofNat (b := patch) (i := 0) (n := 8) (by have := h.long; omega)
  have hnum : read4 patch 8 = .done (field4 patch 8) := by
    have hload : load patch 8 4 = .done (slice patch 8 4) :=
      load_ofNat (b := patch) (i := 8) (n := 4) (by have := h.long; omega)
    rw [read4, hload]
    rfl
  rw [applyImagePatch, if_neg (not_lt.mpr h.long), hmagic, Outcome.done_bind,
    if_neg (not_ne_iff.mpr h.magic), hnum, Outcome.done_bind]
  rfl

/-- A return value of 0 means an accepted header and a loop that returned 0. -/
theorem applyImagePatch_zero {fuel : Nat}
    (h : applyImagePatch bz z o fuel old patch bonus_data w = .done (0, w')) :
    ImageHeader patch ∧ ∃ s,
      chunkLoop bz z o fuel old patch bonus_data (numChunks patch) 0 ⟨12, w⟩ = .done (0, s) ∧
        s.out = w' := by
  have hlong : 12 ≤ patch.length := by
    by_contra hlt
    rw [applyImagePatch, if_pos (not_le.mp hlt)] at h
    cases h
  have hmagic : load patch 0 8 = .done (slice patch 0 8) :=
    load_ofNat (b := patch) (i := 0) (n := 8) (by omega)
  have hheader : ImageHeader patch := by
    refine ⟨hlong, ?_⟩
    by_contra hne
    rw [applyImagePatch, if_neg (not_lt.mpr hlong), hmagic, Outcome.done_bind, if_pos hne] at h
    cases h
  rw [applyImagePatch_header hheader] at h
  obtain ⟨⟨ret, s⟩, hloop, hdone⟩ := Outcome.bind_eq_done.mp h
  cases hdone
  exact ⟨hheader, s, hloop, rfl⟩

theorem attemptEnd_success {retry result : Int} (h : attemptEnd retry result = .success) :
    result = 0 := by
  unfold attemptEnd at h
  split_ifs at h with hne
  exact not_ne_iff.mp hne

theorem patchAttempt_image {fuel : Nat} (h : slice patch 0 8 = IMGDIFF2) {r : Int × Written o}
    (hr : patchAttempt bz z o fuel old patch bonus_data w = .done (some r)) :
    applyImagePatch bz z o fuel old patch bonus_data w = .done r := by
  have hne : ¬(8 ≤ patch.length ∧ slice patch 0 8 = BSDIFF40) := by
    rintro ⟨_, h'⟩
    rw [h] at h'
    exact absurd h' (by decide)
  unfold patchAttempt at hr
  rw [if_neg hne] at hr
  split_ifs at hr
  · obtain ⟨r', hr', hdone⟩ := Outcome.bind_eq_done.mp hr
    cases hdone
    exact hr'
  · cases hr

end Loop

/-- A zlib that fails reports it. -/
def DocumentedZlib.failing : DocumentedZlib :=
  { Zlib.failing with
    broken := fun _ => True
    deflateInit2_broken := fun _ _ _ _ _ _ _ => trivial
    deflate_broken := fun _ _ _ => ⟨show (-2 : Int) ≠ Z_STREAM_END by decide, trivial⟩ }

/-- One NORMAL record, with a patch offset at which there is no BSDIFF40 patch. -/
def noBsdiffPatch : Bytes :=
  IMGDIFF2 ++ [1, 0, 0, 0] ++ [0, 0, 0, 0] ++ leBytes 8 0 ++ leBytes 8 0 ++ leBytes 8 0

theorem read8_zero {i : Nat} (h : i + 8 ≤ noBsdiffPatch.length)
    (hz : leNat (slice noBsdiffPatch i 8) = 0) : read8 noBsdiffPatch i = .done 0 := by
  rw [read8, load_ofNat h, Outcome.done_bind, hz]
  exact congrArg Outcome.done (toU32_of_range (n := 0) (by norm_num))

/-- `ApplyBSDiffPatch` returns -1 for the record, and `ApplyImagePatch` 0. -/
theorem applyImagePatch_noBsdiff (bz : Bz2) (z : Zlib) (w : Written .keep) :
    applyImagePatch bz z .keep 0 [] noBsdiffPatch none w = .done (0, w) := by
  have hnum : numChunks noBsdiffPatch = 1 := by
    rw [numChunks, field4_of_leNat (n := 1) (by decide) (by norm_num)]
    rfl
  have h16 : wrap32 ((12 : Int) + 4) = 16 := wrap32_of_range (by norm_num) (by norm_num)
  have h40 : wrap32 ((16 : Int) + 24) = 40 := wrap32_of_range (by norm_num) (by norm_num)
  have htype : read4 noBsdiffPatch 12 = .done 0 := by
    have hload : load noBsdiffPatch 12 4 = .done (slice noBsdiffPatch 12 4) :=
      load_ofNat (b := noBsdiffPatch) (i := 12) (by decide)
    rw [read4, hload, Outcome.done_bind]
    exact congrArg Outcome.done (wrap32_of_range (x := 0) (by norm_num) (by norm_num))
  have hstart : read8 noBsdiffPatch 16 = .done 0 := read8_zero (i := 16) (by decide) (by decide)
  have hlen : read8 noBsdiffPatch (16 + 8) = .done 0 := read8_zero (i := 24) (by decide) (by decide)
  have hoffset : read8 noBsdiffPatch (16 + 16) = .done 0 :=
    read8_zero (i := 32) (by decide) (by decide)
  have hzero : wrap32 ((0 : Nat) : Int) = 0 := wrap32_of_range (by norm_num) (by norm_num)
  have hopen : ∀ old, applyBSDiffPatchMem bz 0 old noBsdiffPatch 0 = .done none := by
    intro old
    have hload : load noBsdiffPatch 0 8 = .done IMGDIFF2 :=
      load_ofNat (b := noBsdiffPatch) (i := 0) (by decide)
    rw [applyBSDiffPatchMem, openPatch, hload, Outcome.done_bind, if_pos (by decide)]
    rfl
  have hstep : chunkStep bz z .keep 0 [] noBsdiffPatch none 0 ⟨12, w⟩ = .done (0, ⟨40, w⟩) := by
    rw [chunkStep, h16, if_neg (by decide), htype, Outcome.done_bind]
    rw [if_pos (show (0 : Int) = CHUNK_NORMAL from rfl), normalChunk]
    dsimp only
    rw [h40, if_neg (by decide), hstart, Outcome.done_bind, hlen, Outcome.done_bind, hoffset,
      Outcome.done_bind, hzero, applyBSDiffPatch, hopen]
    rfl
  rw [applyImagePatch_header ⟨by decide, rfl⟩, hnum, chunkLoop, hstep]
  rfl

end BootableRecovery.Applypatch
