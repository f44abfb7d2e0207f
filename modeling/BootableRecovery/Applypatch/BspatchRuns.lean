import BootableRecovery.Applypatch.Bspatch

/-!
# `applypatch/bspatch.c` on any patch

What `ApplyBSDiffPatchMem` does with a patch that no `bsdiff` need have written. The
loop is followed from state to state (`Reached`), and `FillCall` lists the calls of
`FillBuffer` that write to the new file, with the position and the size they hand over.

Main results:
* `bounds_safe_iff`: for which patches every access is inside its object.
* `terminates_iff`: for which patches the call returns.
-/

namespace BootableRecovery.Applypatch

/-! ## What is known of libbz2 -/

/-- A library that writes at most `avail_out` bytes in a call. -/
structure BoundedBz2 extends Bz2 where
  le_avail : ∀ strm avail, 0 < avail → (decompress strm avail).2.1.length ≤ avail

/-- What follows the data that a stream delivers. -/
inductive BzEnd where
  /-- the end of the stream -/
  | complete
  /-- nothing: `BZ_STREAM_END` was returned -/
  | finished
  /-- nothing: the input ends before the end of the stream -/
  | truncated
  /-- data that is not bzip2 -/
  | corrupt
  deriving DecidableEq, Repr

/-- `BZ_SEQUENCE_ERROR` -/
def BZ_SEQUENCE_ERROR : Int := -1

/-- One call of `BZ2_bzDecompress` on a stream that still has data to deliver: status,
bytes written, and the stream afterwards. -/
inductive BzCall : Bytes → BzEnd → Nat → BzStatus → Bytes → Bytes → BzEnd → Prop where
  | deliver {e avail out rest} : e ≠ .finished → out ≠ [] → out.length ≤ avail →
      BzCall (out ++ rest) e avail .ok out rest e
  | streamEnd {avail out} : out.length ≤ avail → BzCall out .complete avail .streamEnd out [] .finished
  | afterEnd {avail} : BzCall [] .finished avail (.error BZ_SEQUENCE_ERROR) [] [] .finished
  /-- `BZ_OK` without progress -/
  | exhausted {avail} : BzCall [] .truncated avail .ok [] [] .truncated
  | corrupt {avail out code} : out.length ≤ avail →
      BzCall out .corrupt avail (.error code) out [] .corrupt

theorem BzCall.length_le {d d' out : Bytes} {e e' : BzEnd} {avail : Nat} {status : BzStatus}
    (h : BzCall d e avail status out d' e') : out.length ≤ avail := by
  cases h with
  | deliver _ _ h => exact h
  | streamEnd h => exact h
  | afterEnd => exact Nat.zero_le _
  | exhausted => exact Nat.zero_le _
  | corrupt h => exact h

/-- A library whose streams deliver data and end as documented. -/
structure DecodingBz2 extends Bz2 where
  content : Stream → Bytes
  ends : Stream → BzEnd
  call : ∀ strm avail, 0 < avail →
    BzCall (content strm) (ends strm) avail (decompress strm avail).1 (decompress strm avail).2.1
      (content (decompress strm avail).2.2) (ends (decompress strm avail).2.2)

def DecodingBz2.toBounded (bz : DecodingBz2) : BoundedBz2 :=
  { bz.toBz2 with le_avail := fun strm avail h => (bz.call strm avail h).length_le }

/-- The streams of `DecodingBz2.ofTable`. -/
inductive TableStream where
  | data (d : Bytes)
  | finished
  | truncated
  | corrupt
  deriving DecidableEq, Repr

namespace TableStream

def content : TableStream → Bytes
  | data d => d
  | _ => []

def ends : TableStream → BzEnd
  | data _ => .complete
  | finished => .finished
  | truncated => .truncated
  | corrupt => .corrupt

/-- A stream on the codes of a table. Nothing is a code that was cut off, and what is no
code of the table is corrupt. -/
def open_ (t : CodeTable) (code : Bytes) : TableStream :=
  match t.decode code with
  | some (d, _) => data d
  | none => if code = [] then truncated else corrupt

def decompress : TableStream → Nat → BzStatus × Bytes × TableStream
  | data d, room =>
    if d.length ≤ room then (.streamEnd, d, finished) else (.ok, d.take room, data (d.drop room))
  | finished, _ => (.error BZ_SEQUENCE_ERROR, [], finished)
  | truncated, _ => (.ok, [], truncated)
  | corrupt, _ => (.error (-5), [], corrupt)

theorem decompress_call (strm : TableStream) (avail : Nat) (h : 0 < avail) :
    BzCall strm.content strm.ends avail (strm.decompress avail).1 (strm.decompress avail).2.1
      (strm.decompress avail).2.2.content (strm.decompress avail).2.2.ends := by
  cases strm with
  | data d =>
    rw [decompress]
    split_ifs with hle
    · exact .streamEnd hle
    · have hout : d.take avail ≠ [] := by
        rw [← List.length_pos_iff, List.length_take]
        omega
      have hcall := @BzCall.deliver .complete avail (d.take avail) (d.drop avail)
        (fun h => nomatch h) hout (List.length_take_le avail d)
      rw [List.take_append_drop] at hcall
      exact hcall
  | finished => exact .afterEnd
  | truncated => exact .exhausted
  | corrupt => exact .corrupt (Nat.zero_le _)

end TableStream

/-- `libbz2` on the codes of a table. -/
def DecodingBz2.ofTable (t : CodeTable) : DecodingBz2 where
  Stream := TableStream
  compress := t.encode
  decompressInit mem next_in avail_in := .open_ t (slice mem next_in.toNat avail_in)
  decompress := TableStream.decompress
  content := TableStream.content
  ends := TableStream.ends
  call := TableStream.decompress_call

/-! ## `FillBuffer` -/

theorem fillLoop_succ (bz : Bz2) (room fuel avail : Nat) (acc : Bytes) (strm : bz.Stream) :
    fillLoop bz room (fuel + 1) (avail + 1) acc strm =
      if room < acc.length + (bz.decompress strm (avail + 1)).2.1.length then .fault
      else match (bz.decompress strm (avail + 1)).1 with
        | .error _ => .done none
        | _ => fillLoop bz room fuel (avail + 1 - (bz.decompress strm (avail + 1)).2.1.length)
            (acc ++ (bz.decompress strm (avail + 1)).2.1) (bz.decompress strm (avail + 1)).2.2 := rfl

theorem fillLoop_zero (bz : Bz2) (room fuel : Nat) (acc : Bytes) (strm : bz.Stream) :
    fillLoop bz room fuel 0 acc strm = .done (some (acc, strm)) := by
  cases fuel with
  | zero => rfl
  | succ fuel => rfl

/-- More turns go on where fewer ran out. -/
theorem fillLoop_extends (bz : Bz2) (room : Nat) {fuel fuel' : Nat} (h : fuel ≤ fuel') (avail : Nat)
    (acc : Bytes) (strm : bz.Stream) :
    (fillLoop bz room fuel avail acc strm).Extends (fillLoop bz room fuel' avail acc strm) := by
  induction fuel generalizing fuel' avail acc strm with
  | zero =>
    cases avail with
    | zero => exact .inr (by rw [fillLoop_zero, fillLoop_zero])
    | succ avail => exact .inl rfl
  | succ fuel ih =>
    obtain ⟨fuel', rfl⟩ : ∃ k, fuel' = k + 1 := ⟨fuel' - 1, by omega⟩
    cases avail with
    | zero => exact .inr (by rw [fillLoop_zero, fillLoop_zero])
    | succ avail =>
      rw [fillLoop_succ, fillLoop_succ]
      split_ifs
      · exact .refl _
      · split
        · exact .refl _
        · exact ih (Nat.le_of_succ_le_succ h) _ _ _

theorem fillBuffer_extends (bz : Bz2) {fuel fuel' : Nat} (h : fuel ≤ fuel') (room : Nat) (size : Int)
    (strm : bz.Stream) :
    (fillBuffer bz fuel room size strm).Extends (fillBuffer bz fuel' room size strm) :=
  fillLoop_extends bz room h _ _ _

section Bounded

variable {bz : BoundedBz2} {room : Nat}

/-- Enough room for what is wanted is enough. -/
theorem fillLoop_ne_fault (fuel avail : Nat) (acc : Bytes) (strm : bz.Stream)
    (h : acc.length + avail ≤ room) : fillLoop bz.toBz2 room fuel avail acc strm ≠ .fault := by
  induction fuel generalizing avail acc strm with
  | zero =>
    cases avail with
    | zero => exact fun h => nomatch h
    | succ avail => exact fun h => nomatch h
  | succ fuel ih =>
    cases avail with
    | zero => exact fun h => nomatch h
    | succ avail =>
      have hle := bz.le_avail strm (avail + 1) (Nat.succ_pos avail)
      rw [fillLoop_succ, if_neg (by omega)]
      split
      · exact fun h => nomatch h
      · exact ih _ _ _ (by rw [List.length_append]; omega)

/-- A filled buffer holds what was wanted, in the room that is there. -/
theorem fillLoop_length {fuel avail : Nat} {acc b : Bytes} {strm strm' : bz.Stream}
    (h : fillLoop bz.toBz2 room fuel avail acc strm = .done (some (b, strm')))
    (hacc : acc.length ≤ room) : b.length = acc.length + avail ∧ b.length ≤ room := by
  induction fuel generalizing avail acc strm with
  | zero =>
    cases avail with
    | zero =>
      cases h
      exact ⟨rfl, hacc⟩
    | succ avail => cases h
  | succ fuel ih =>
    cases avail with
    | zero =>
      cases h
      exact ⟨rfl, hacc⟩
    | succ avail =>
      have hle := bz.le_avail strm (avail + 1) (Nat.succ_pos avail)
      rw [fillLoop_succ] at h
      split_ifs at h with hroom
      split at h
      · cases h
      · obtain ⟨hlen, hfit⟩ := ih h (by rw [List.length_append]; omega)
        refine ⟨?_, hfit⟩
        rw [hlen, List.length_append]
        omega

/-- A negative size is stored as at least `2 ^ 31`. -/
theorem toU32_of_neg {x : Int} (hx : x < 0) (hl : -2 ^ 31 ≤ x) : 2 ^ 31 ≤ toU32 x := by
  unfold toU32
  omega

end Bounded

/-! ## One turn of the loop -/

/-- `newpos` -/
def PatchState.newpos {bz : Bz2} (s : PatchState bz) : Int := s.newData.length

/-- The numbers of a control triple. -/
def ctrl (buf : Bytes) (i : Nat) : Int := wrap32 (offtin (slice buf (8 * i) 8))

theorem ctrl_range (buf : Bytes) (i : Nat) : -2 ^ 31 ≤ ctrl buf i ∧ ctrl buf i < 2 ^ 31 :=
  wrap32_range _

/-- The calls of `FillBuffer` in the turn from `s` that write to `new_data`: where the
buffer starts, the size handed over, and the stream. -/
inductive FillCall (bz : Bz2) (new_size : Int) (s : PatchState bz) : Int → Int → bz.Stream → Prop
    where
  | diff {fuel buf cstream} :
      fillBuffer bz fuel 24 24 s.cstream = .done (some (buf, cstream)) →
      wrap32 (s.newpos + ctrl buf 0) ≤ new_size → FillCall bz new_size s s.newpos (ctrl buf 0) s.dstream
  | extra {fuel buf cstream diff dstream} :
      fillBuffer bz fuel 24 24 s.cstream = .done (some (buf, cstream)) →
      wrap32 (s.newpos + ctrl buf 0) ≤ new_size →
      fillBuffer bz fuel (new_size - s.newpos).toNat (ctrl buf 0) s.dstream =
        .done (some (diff, dstream)) →
      wrap32 (wrap32 (s.newpos + ctrl buf 0) + ctrl buf 1) ≤ new_size →
      FillCall bz new_size s (wrap32 (s.newpos + ctrl buf 0)) (ctrl buf 1) s.estream

/-- A call of `FillBuffer` at `pos`. -/
def fillAt (bz : Bz2) (fuel : Nat) (new_size pos size : Int) (strm : bz.Stream) :
    Outcome (Option (Bytes × bz.Stream)) :=
  fillBuffer bz fuel (new_size - pos).toNat size strm

section Turn

variable {bz : Bz2} {fuel fuel' : Nat} {old : Bytes} {new_size : Int} {s s' : PatchState bz}

theorem fillBuffer_unique {room : Nat} {size : Int} {strm : bz.Stream}
    {r r' : Option (Bytes × bz.Stream)} (h : fillBuffer bz fuel room size strm = .done r)
    (h' : fillBuffer bz fuel' room size strm = .done r') : r = r' := by
  have hl := (fillBuffer_extends bz (Nat.le_max_left fuel fuel') room size strm).done h
  have hr := (fillBuffer_extends bz (Nat.le_max_right fuel fuel') room size strm).done h'
  exact Outcome.done.inj (hl.symm.trans hr)

theorem addOldData_ofBytes (old : Bytes) (oldpos : Int) (diff : Bytes) :
    addOldData (.ofBytes old) oldpos diff = .done (EditScript.addOld old oldpos diff) := by
  have hsize : 0 + old.length ≤ old.length := by rw [Nat.zero_add]
  have h := addOldData_eq hsize diff oldpos
  simpa [OldData.ofBytes, slice] using h

/-- The turn in terms of its three calls of `FillBuffer`. -/
theorem patchStep_eq (bz : Bz2) (fuel : Nat) (old : Bytes) (new_size : Int) (s : PatchState bz) :
    patchStep bz fuel (.ofBytes old) new_size s = (do
      let some (buf, cstream) ← fillBuffer bz fuel 24 24 s.cstream | .done none
      if wrap32 (s.newpos + ctrl buf 0) > new_size then .done none
      else
        let some (diff, dstream) ← fillAt bz fuel new_size s.newpos (ctrl buf 0) s.dstream
          | .done none
        let newpos := wrap32 (s.newpos + ctrl buf 0)
        if wrap32 (newpos + ctrl buf 1) > new_size then .done none
        else
          let some (extra, estream) ← fillAt bz fuel new_size newpos (ctrl buf 1) s.estream
            | .done none
          .done (some ⟨s.newData ++ EditScript.addOld old s.oldpos diff ++ extra,
            wrap32 (wrap32 (s.oldpos + ctrl buf 0) + ctrl buf 2), cstream, dstream, estream⟩)) := by
  simp only [patchStep, addOldData_ofBytes, Outcome.done_bind]
  rfl

/-- More steps go on where fewer ran out. -/
theorem patchStep_extends {old : OldData} (h : fuel ≤ fuel') :
    (patchStep bz fuel old new_size s).Extends (patchStep bz fuel' old new_size s) := by
  unfold patchStep
  refine (fillBuffer_extends bz h _ _ _).bind fun r => ?_
  cases r with
  | none => exact .refl _
  | some r =>
    dsimp only
    by_cases h0 : wrap32 ((s.newData.length : Int) + wrap32 (offtin (r.1.take 8))) > new_size
    · rw [if_pos h0, if_pos h0]
      exact .refl _
    rw [if_neg h0, if_neg h0]
    refine (fillBuffer_extends bz h _ _ _).bind fun r' => ?_
    cases r' with
    | none => exact .refl _
    | some r' =>
      dsimp only
      refine (Outcome.Extends.refl _).bind fun added => ?_
      by_cases h1 : wrap32 (wrap32 ((s.newData.length : Int) + wrap32 (offtin (r.1.take 8))) +
          wrap32 (offtin (slice r.1 8 8))) > new_size
      · rw [if_pos h1, if_pos h1]
        exact .refl _
      rw [if_neg h1, if_neg h1]
      exact (fillBuffer_extends bz h _ _ _).bind fun _ => .refl _

theorem patchStep_unique {r r' : Option (PatchState bz)}
    (h : patchStep bz fuel (.ofBytes old) new_size s = .done r)
    (h' : patchStep bz fuel' (.ofBytes old) new_size s = .done r') : r = r' := by
  have hl := (patchStep_extends (Nat.le_max_left fuel fuel')).done h
  have hr := (patchStep_extends (Nat.le_max_right fuel fuel')).done h'
  exact Outcome.done.inj (hl.symm.trans hr)

/-- A turn that ends the loop body. -/
theorem patchStep_some (h : patchStep bz fuel (.ofBytes old) new_size s = .done (some s')) :
    ∃ buf cstream diff dstream extra estream,
      fillBuffer bz fuel 24 24 s.cstream = .done (some (buf, cstream)) ∧
      wrap32 (s.newpos + ctrl buf 0) ≤ new_size ∧
      fillAt bz fuel new_size s.newpos (ctrl buf 0) s.dstream = .done (some (diff, dstream)) ∧
      wrap32 (wrap32 (s.newpos + ctrl buf 0) + ctrl buf 1) ≤ new_size ∧
      fillAt bz fuel new_size (wrap32 (s.newpos + ctrl buf 0)) (ctrl buf 1) s.estream =
        .done (some (extra, estream)) ∧
      s' = ⟨s.newData ++ EditScript.addOld old s.oldpos diff ++ extra,
        wrap32 (wrap32 (s.oldpos + ctrl buf 0) + ctrl buf 2), cstream, dstream, estream⟩ := by
  rw [patchStep_eq] at h
  obtain ⟨r, hc, h⟩ := Outcome.bind_eq_done.mp h
  cases r with
  | none => cases h
  | some r =>
    obtain ⟨buf, cstream⟩ := r
    dsimp only at h
    by_cases h0 : wrap32 (s.newpos + ctrl buf 0) > new_size
    · rw [if_pos h0] at h
      cases h
    rw [if_neg h0] at h
    obtain ⟨r, hd, h⟩ := Outcome.bind_eq_done.mp h
    cases r with
    | none => cases h
    | some r =>
      obtain ⟨diff, dstream⟩ := r
      dsimp only at h
      by_cases h1 : wrap32 (wrap32 (s.newpos + ctrl buf 0) + ctrl buf 1) > new_size
      · rw [if_pos h1] at h
        cases h
      rw [if_neg h1] at h
      obtain ⟨r, he, h⟩ := Outcome.bind_eq_done.mp h
      cases r with
      | none => cases h
      | some r =>
        obtain ⟨extra, estream⟩ := r
        cases h
        exact ⟨buf, cstream, diff, dstream, extra, estream, hc, not_lt.mp h0, hd,
          not_lt.mp h1, he, rfl⟩

/-- A turn does not return a fault of its own. -/
theorem patchStep_fault (h : patchStep bz fuel (.ofBytes old) new_size s = .fault) :
    fillBuffer bz fuel 24 24 s.cstream = .fault ∨
      ∃ pos size strm, FillCall bz new_size s pos size strm ∧
        fillAt bz fuel new_size pos size strm = .fault := by
  rw [patchStep_eq] at h
  cases hc : fillBuffer bz fuel 24 24 s.cstream with
  | fault => exact .inl rfl
  | spin =>
    rw [hc] at h
    cases h
  | done r =>
    rw [hc, Outcome.done_bind] at h
    cases r with
    | none => cases h
    | some r =>
      obtain ⟨buf, cstream⟩ := r
      dsimp only at h
      by_cases h0 : wrap32 (s.newpos + ctrl buf 0) > new_size
      · rw [if_pos h0] at h
        cases h
      rw [if_neg h0] at h
      have hdiff := FillCall.diff hc (not_lt.mp h0)
      cases hd : fillAt bz fuel new_size s.newpos (ctrl buf 0) s.dstream with
      | fault => exact .inr ⟨_, _, _, hdiff, hd⟩
      | spin =>
        rw [hd] at h
        cases h
      | done r =>
        rw [hd, Outcome.done_bind] at h
        cases r with
        | none => cases h
        | some r =>
          obtain ⟨diff, dstream⟩ := r
          dsimp only at h
          by_cases h1 : wrap32 (wrap32 (s.newpos + ctrl buf 0) + ctrl buf 1) > new_size
          · rw [if_pos h1] at h
            cases h
          rw [if_neg h1] at h
          have hextra := FillCall.extra hc (not_lt.mp h0) hd (not_lt.mp h1)
          cases he : fillAt bz fuel new_size (wrap32 (s.newpos + ctrl buf 0)) (ctrl buf 1)
              s.estream with
          | fault => exact .inr ⟨_, _, _, hextra, he⟩
          | spin =>
            rw [he] at h
            cases h
          | done r =>
            rw [he, Outcome.done_bind] at h
            cases r with
            | none => cases h
            | some r => cases h

end Turn

/-! ## The states of the loop -/

/-- The loop goes on from `s` to `s'`. -/
def Turns (bz : Bz2) (old : Bytes) (new_size : Int) (s s' : PatchState bz) : Prop :=
  s.newpos < new_size ∧ ∃ fuel, patchStep bz fuel (.ofBytes old) new_size s = .done (some s')

/-- `s'` is a state of the loop that starts in `s`. -/
def Reached (bz : Bz2) (old : Bytes) (new_size : Int) : PatchState bz → PatchState bz → Prop :=
  Relation.ReflTransGen (Turns bz old new_size)

section Loop

variable {old : Bytes} {new_size pos size : Int} {fuel : Nat}

/-- What a call of `FillBuffer` that returned has filled, when the test in front of it
let it pass. -/
theorem fillAt_some {bz : BoundedBz2} {strm strm' : bz.Stream} {b : Bytes} (hpos : 0 ≤ pos)
    (hfit : pos ≤ new_size) (hnew : new_size < 2 ^ 31) (hsize : -2 ^ 31 ≤ size ∧ size < 2 ^ 31)
    (h : fillAt bz.toBz2 fuel new_size pos size strm = .done (some (b, strm'))) :
    size = b.length ∧ pos + b.length ≤ new_size ∧ wrap32 (pos + size) = pos + b.length := by
  obtain ⟨hlen, hroom⟩ := fillLoop_length h (Nat.zero_le _)
  rw [List.length_nil, Nat.zero_add] at hlen
  have hlt : toU32 size < 2 ^ 31 := by omega
  have hnonneg : 0 ≤ size := by
    by_contra hneg
    exact absurd (toU32_of_neg (not_le.mp hneg) hsize.1) (not_le.mpr hlt)
  have heq : size = b.length := by
    rw [hlen]
    obtain ⟨n, rfl⟩ := Int.eq_ofNat_of_zero_le hnonneg
    rw [toU32_of_range (by omega)]
  refine ⟨heq, by omega, ?_⟩
  rw [heq]
  exact wrap32_of_range (by omega) (by omega)

/-- One turn moves `newpos` forward, as far as the two strings are long, and not past the
end of the new file. -/
theorem Turns.newpos {bz : BoundedBz2} {s s' : PatchState bz.toBz2} (hnew : new_size < 2 ^ 31)
    (h : Turns bz.toBz2 old new_size s s') : s.newpos ≤ s'.newpos ∧ s'.newpos ≤ new_size := by
  obtain ⟨hlt, fuel, hstep⟩ := h
  obtain ⟨buf, _, diff, _, extra, _, _, _, hd, _, he, rfl⟩ := patchStep_some hstep
  have hpos : 0 ≤ s.newpos := Int.natCast_nonneg _
  obtain ⟨_, hfit, hmid⟩ := fillAt_some hpos (le_of_lt hlt) hnew (ctrl_range buf 0) hd
  rw [hmid] at he
  obtain ⟨_, hfit', _⟩ := fillAt_some (by omega) hfit hnew (ctrl_range buf 1) he
  simp only [PatchState.newpos, List.length_append, EditScript.addOld_length] at hfit' ⊢
  omega

theorem Reached.newpos {bz : BoundedBz2} {s s' : PatchState bz.toBz2} (hnew : new_size < 2 ^ 31)
    (hs : s.newpos ≤ new_size) (h : Reached bz.toBz2 old new_size s s') :
    s.newpos ≤ s'.newpos ∧ s'.newpos ≤ new_size := by
  induction h with
  | refl => exact ⟨le_rfl, hs⟩
  | tail _ hturn ih =>
    obtain ⟨hle, hend⟩ := Turns.newpos hnew hturn
    exact ⟨le_trans ih.1 hle, hend⟩

/-- The loop faults only in a turn. -/
theorem patchLoop_ne_fault {bz : Bz2} {s₀ : PatchState bz} (fillFuel : Nat)
    (h : ∀ s, Reached bz old new_size s₀ s → s.newpos < new_size →
      patchStep bz fillFuel (.ofBytes old) new_size s ≠ .fault) :
    patchLoop bz fillFuel (.ofBytes old) new_size fuel s₀ ≠ .fault := by
  induction fuel generalizing s₀ with
  | zero =>
    unfold patchLoop
    split_ifs
    · simp
    · simp
  | succ fuel ih =>
    unfold patchLoop
    by_cases hlt : (s₀.newData.length : Int) < new_size
    · rw [if_pos hlt]
      have hstep := h s₀ .refl hlt
      cases hr : patchStep bz fillFuel (.ofBytes old) new_size s₀ with
      | fault => exact absurd hr hstep
      | spin => simp
      | done r =>
        cases r with
        | none => simp
        | some s₁ =>
          exact ih fun s hs => h s (.head ⟨hlt, fillFuel, hr⟩ hs)
    · rw [if_neg hlt]
      simp

end Loop

/-! ## The header -/

/-- A number of the header of the patch at `off`. -/
def headerNumber (patch : Bytes) (off i : Nat) : Int :=
  wrap32 (offtin (slice patch (off + 8 * i) 8))

/-- The header passes the tests. -/
structure HeaderAccepted (patch : Bytes) (off : Nat) : Prop where
  magic : slice patch off 8 = BSDIFF40
  nonneg : ∀ i, i ∈ [1, 2, 3] → 0 ≤ headerNumber patch off i

/-- The header is read inside the patch. -/
structure HeaderInside (patch : Bytes) (off : Nat) : Prop where
  magic : off + 8 ≤ patch.length
  numbers : slice patch off 8 = BSDIFF40 → off + 32 ≤ patch.length

section Header

variable {bz : Bz2} {patch : Bytes} {off : Nat}

theorem load_of_lt {b : Bytes} {i n : Nat} (h : b.length < i + n) : load b i n = .fault := by
  unfold load
  rw [if_neg (by omega)]

theorem load_header {i : Nat} (hi : i < 4) (h : off + 32 ≤ patch.length) :
    load patch ((off : Int) + (8 * i : Nat)) 8 = .done (slice patch (off + 8 * i) 8) := by
  rw [← Int.natCast_add]
  exact load_ofNat (by omega)

/-- The state that the loop starts in. -/
def loopStart (bz : Bz2) (patch : Bytes) (off : Nat) : PatchState bz :=
  let cstart : Int := off + 32
  let dstart := cstart + headerNumber patch off 1
  let estart := dstart + headerNumber patch off 2
  ⟨[], 0, bz.decompressInit patch cstart (headerNumber patch off 1).toNat,
    bz.decompressInit patch dstart (headerNumber patch off 2).toNat,
    bz.decompressInit patch estart (toU32 (patch.length - estart))⟩

theorem openPatch_magic (h : HeaderInside patch off) (hmagic : slice patch off 8 ≠ BSDIFF40) :
    openPatch bz patch off = .done none := by
  rw [openPatch, load_ofNat h.magic, Outcome.done_bind, if_pos hmagic]

theorem openPatch_inside (h : HeaderInside patch off) (hmagic : slice patch off 8 = BSDIFF40) :
    openPatch bz patch off =
      if headerNumber patch off 1 < 0 ∨ headerNumber patch off 2 < 0 ∨ headerNumber patch off 3 < 0
      then .done none else .done (some (headerNumber patch off 3, loopStart bz patch off)) := by
  have hlen := h.numbers hmagic
  have h1 : load patch ((off : Int) + 8) 8 = _ := load_header (i := 1) (by omega) hlen
  have h2 : load patch ((off : Int) + 16) 8 = _ := load_header (i := 2) (by omega) hlen
  have h3 : load patch ((off : Int) + 24) 8 = _ := load_header (i := 3) (by omega) hlen
  have hne : ¬slice patch off 8 ≠ BSDIFF40 := fun h => h hmagic
  rw [openPatch, load_ofNat h.magic, Outcome.done_bind, if_neg hne, h1, Outcome.done_bind, h2,
    Outcome.done_bind, h3, Outcome.done_bind]
  rfl

theorem openPatch_accepted (h : HeaderInside patch off) (ha : HeaderAccepted patch off) :
    openPatch bz patch off = .done (some (headerNumber patch off 3, loopStart bz patch off)) := by
  rw [openPatch_inside h ha.magic, if_neg]
  have h1 := ha.nonneg 1 (by decide)
  have h2 := ha.nonneg 2 (by decide)
  have h3 := ha.nonneg 3 (by decide)
  omega

theorem openPatch_refused (h : HeaderInside patch off) (ha : ¬HeaderAccepted patch off) :
    openPatch bz patch off = .done none := by
  by_cases hmagic : slice patch off 8 = BSDIFF40
  · rw [openPatch_inside h hmagic, if_pos]
    by_contra hneg
    refine ha ⟨hmagic, fun i hi => ?_⟩
    simp only [List.mem_cons, List.not_mem_nil, or_false] at hi
    rcases hi with rfl | rfl | rfl
    · omega
    · omega
    · omega
  · exact openPatch_magic h hmagic

/-- The header is read inside the patch exactly when reading it is no fault. -/
theorem openPatch_ne_fault : openPatch bz patch off ≠ .fault ↔ HeaderInside patch off := by
  constructor
  · intro h
    have hmagic : off + 8 ≤ patch.length := by
      by_contra hlt
      exact h (by rw [openPatch, load_of_lt (not_le.mp hlt)]; rfl)
    refine ⟨hmagic, fun heq => ?_⟩
    by_contra hlt
    refine h ?_
    have hne : ¬slice patch off 8 ≠ BSDIFF40 := fun h => h heq
    rw [openPatch, load_ofNat hmagic, Outcome.done_bind, if_neg hne]
    have hload : ∀ i : Int, (∃ b, load patch i 8 = .done b) ∨ load patch i 8 = .fault := by
      intro i
      unfold load
      split_ifs
      · exact .inl ⟨_, rfl⟩
      · exact .inr rfl
    have h3 : load patch ((off : Int) + 24) 8 = .fault := by
      have := load_of_lt (b := patch) (i := off + 24) (n := 8) (by omega)
      exact_mod_cast this
    rcases hload (off + 8) with ⟨b, hb⟩ | hb
    · rcases hload (off + 16) with ⟨b', hb'⟩ | hb'
      · rw [hb, Outcome.done_bind, hb', Outcome.done_bind, h3]
        rfl
      · rw [hb, Outcome.done_bind, hb']
        rfl
    · rw [hb]
      rfl
  · intro h
    by_cases ha : HeaderAccepted patch off
    · rw [openPatch_accepted h ha]
      simp
    · rw [openPatch_refused h ha]
      simp

end Header

/-! ## Bounds -/

/-- `s` is a state of the loop on a patch whose header was accepted, and there is output
left to write. -/
def LoopState (bz : Bz2) (old patch : Bytes) (off : Nat) (s : PatchState bz) : Prop :=
  HeaderInside patch off ∧ HeaderAccepted patch off ∧
    Reached bz old (headerNumber patch off 3) (loopStart bz patch off) s ∧
    s.newpos < headerNumber patch off 3

/-- The input of the three streams is inside the patch. -/
def StreamsInside (patch : Bytes) (off : Nat) : Prop :=
  (off : Int) + 32 + headerNumber patch off 1 + headerNumber patch off 2 ≤ patch.length

/-- Nothing is accessed outside its object. -/
structure BoundsSafe (bz : Bz2) (old patch : Bytes) (off : Nat) : Prop where
  header : openPatch bz patch off ≠ .fault
  streams : HeaderInside patch off → HeaderAccepted patch off → StreamsInside patch off
  /-- what the library may write to is inside the new file -/
  fills : ∀ s, LoopState bz old patch off s → ∀ pos size strm,
    FillCall bz (headerNumber patch off 3) s pos size strm →
      0 ≤ pos ∧ pos + toU32 size ≤ headerNumber patch off 3
  /-- `newpos` behind each string -/
  newpos : ∀ s, LoopState bz old patch off s → ∀ pos size strm,
    FillCall bz (headerNumber patch off 3) s pos size strm →
      s.newpos ≤ pos ∧ pos ≤ wrap32 (pos + size) ∧
        wrap32 (pos + size) ≤ headerNumber patch off 3
  /-- no access of the whole run is a fault -/
  accesses : ∀ fuel, applyBSDiffPatchMem bz fuel (.ofBytes old) patch off ≠ .fault

/-- The header and its streams are inside the patch, and no control number that passes
the test for an overrun is negative or overflows when it is added to `newpos`. -/
structure BoundsCondition (bz : Bz2) (old patch : Bytes) (off : Nat) : Prop where
  header : HeaderInside patch off
  streams : HeaderAccepted patch off → StreamsInside patch off
  triples : ∀ s, LoopState bz old patch off s → ∀ pos size strm,
    FillCall bz (headerNumber patch off 3) s pos size strm → 0 ≤ size ∧ pos + size < 2 ^ 31

section Bounds

variable {bz : BoundedBz2} {old patch : Bytes} {off : Nat} {new_size pos size : Int}

theorem FillCall.size_range {bz : Bz2} {s : PatchState bz} {strm : bz.Stream}
    (h : FillCall bz new_size s pos size strm) : -2 ^ 31 ≤ size ∧ size < 2 ^ 31 := by
  cases h with
  | diff _ _ => exact ctrl_range _ _
  | extra _ _ _ _ => exact ctrl_range _ _

/-- The test in front of the call. -/
theorem FillCall.checked {bz : Bz2} {s : PatchState bz} {strm : bz.Stream}
    (h : FillCall bz new_size s pos size strm) : wrap32 (pos + size) ≤ new_size := by
  cases h with
  | diff _ h => exact h
  | extra _ _ _ h => exact h

/-- Calls are made at `newpos` or, for the extra string, behind the diff string. -/
theorem FillCall.pos_range {s : PatchState bz.toBz2} {strm : bz.Stream} (hnew : new_size < 2 ^ 31)
    (hlt : s.newpos < new_size) (h : FillCall bz.toBz2 new_size s pos size strm) :
    s.newpos ≤ pos ∧ pos ≤ new_size := by
  cases h with
  | diff _ _ => exact ⟨le_rfl, le_of_lt hlt⟩
  | extra _ _ hd _ =>
    have hpos : 0 ≤ s.newpos := Int.natCast_nonneg _
    obtain ⟨_, hfit, heq⟩ := fillAt_some hpos (le_of_lt hlt) hnew (ctrl_range _ _) hd
    rw [heq]
    omega

/-- A size that passes the test and does not overflow fits. -/
theorem FillCall.fits {s : PatchState bz.toBz2} {strm : bz.Stream}
    (h : FillCall bz.toBz2 new_size s pos size strm) (hpos : 0 ≤ pos) (hsize : 0 ≤ size)
    (hlt : pos + size < 2 ^ 31) :
    wrap32 (pos + size) = pos + size ∧ (toU32 size : Int) = size ∧ pos + size ≤ new_size := by
  have hchecked := h.checked
  have heq : wrap32 (pos + size) = pos + size := wrap32_of_range (by omega) (by omega)
  rw [heq] at hchecked
  refine ⟨heq, ?_, hchecked⟩
  obtain ⟨n, rfl⟩ := Int.eq_ofNat_of_zero_le hsize
  rw [toU32_of_range (by omega)]

theorem headerNumber_lt (patch : Bytes) (off i : Nat) : headerNumber patch off i < 2 ^ 31 :=
  (wrap32_range _).2

theorem BoundsCondition.fill (h : BoundsCondition bz.toBz2 old patch off)
    {s : PatchState bz.toBz2} (hs : LoopState bz.toBz2 old patch off s) {strm : bz.Stream}
    (hcall : FillCall bz.toBz2 (headerNumber patch off 3) s pos size strm) :
    s.newpos ≤ pos ∧ 0 ≤ pos ∧ 0 ≤ size ∧ wrap32 (pos + size) = pos + size ∧
      (toU32 size : Int) = size ∧ pos + size ≤ headerNumber patch off 3 := by
  obtain ⟨hle, _⟩ := hcall.pos_range (headerNumber_lt patch off 3) hs.2.2.2
  have hpos : 0 ≤ pos := le_trans (Int.natCast_nonneg _) hle
  obtain ⟨hsize, hlt⟩ := h.triples s hs pos size strm hcall
  exact ⟨hle, hpos, hsize, hcall.fits hpos hsize hlt⟩

/-- Every access of `ApplyBSDiffPatchMem` is inside its object exactly when the header
and its streams are inside the patch and the control numbers do not go backward. -/
theorem bounds_safe_iff (bz : BoundedBz2) (old patch : Bytes) (off : Nat) :
    BoundsSafe bz.toBz2 old patch off ↔ BoundsCondition bz.toBz2 old patch off := by
  constructor
  · intro h
    have hheader := openPatch_ne_fault.mp h.header
    refine ⟨hheader, h.streams hheader, fun s hs pos size strm hcall => ?_⟩
    obtain ⟨hpos, hfit⟩ := h.fills s hs pos size strm hcall
    have hnew := headerNumber_lt patch off 3
    have hlt : toU32 size < 2 ^ 31 := by omega
    have hsize : 0 ≤ size := by
      by_contra hneg
      have := toU32_of_neg (not_le.mp hneg) hcall.size_range.1
      omega
    obtain ⟨n, rfl⟩ := Int.eq_ofNat_of_zero_le hsize
    rw [toU32_of_range (by have := hcall.size_range.2; omega)] at hfit
    exact ⟨hsize, by omega⟩
  · intro h
    refine ⟨openPatch_ne_fault.mpr h.header, fun _ => h.streams, ?_, ?_, fun fuel => ?_⟩
    · intro s hs pos size strm hcall
      obtain ⟨_, hpos, _, _, heq, hfit⟩ := h.fill hs hcall
      rw [heq]
      exact ⟨hpos, hfit⟩
    · intro s hs pos size strm hcall
      obtain ⟨hle, _, hsize, heq, _, hfit⟩ := h.fill hs hcall
      rw [heq]
      exact ⟨hle, by omega, hfit⟩
    · rw [applyBSDiffPatchMem]
      by_cases ha : HeaderAccepted patch off
      · rw [openPatch_accepted h.header ha, Outcome.done_bind]
        have hloop : patchLoop bz.toBz2 fuel (.ofBytes old) (headerNumber patch off 3) fuel
            (loopStart bz.toBz2 patch off) ≠ .fault := by
          refine patchLoop_ne_fault fuel fun s hs hlt hfault => ?_
          rcases patchStep_fault hfault with hc | ⟨pos, size, strm, hcall, hfill⟩
          · have h24 : toU32 24 = 24 := toU32_of_range (n := 24) (by norm_num)
            exact fillLoop_ne_fault fuel (toU32 24) [] s.cstream (by rw [h24]; rfl) hc
          · obtain ⟨_, _, _, _, heq, hfit⟩ := h.fill ⟨h.header, ha, hs, hlt⟩ hcall
            refine fillLoop_ne_fault fuel (toU32 size) [] strm ?_ hfill
            rw [List.length_nil]
            omega
        dsimp only
        cases hr : patchLoop bz.toBz2 fuel (.ofBytes old) (headerNumber patch off 3) fuel
            (loopStart bz.toBz2 patch off) with
        | fault => exact absurd hr hloop
        | spin => simp
        | done r =>
          cases r with
          | none => simp
          | some s => simp
      · rw [openPatch_refused h.header ha]
        simp

end Bounds

/-- A patch of the eight bytes that `GenerateTarget` looks at: the header is read behind
its end. -/
theorem bounds_safe_magic_only :
    ¬∀ (bz : BoundedBz2) (old patch : Bytes) (off : Nat), off ≤ patch.length →
      BoundsSafe bz.toBz2 old patch off := by
  intro h
  have hsafe := h (DecodingBz2.ofTable ⟨[], by simp, by simp⟩).toBounded [] BSDIFF40 0 (Nat.zero_le _)
  have hinside := openPatch_ne_fault.mp hsafe.header
  exact absurd (hinside.numbers rfl) (by decide)

/-! ## Termination -/

/-- The stream was cut off before the next `n` bytes. -/
def DecodingBz2.Starves (bz : DecodingBz2) (strm : bz.Stream) (n : Nat) : Prop :=
  bz.ends strm = .truncated ∧ (bz.content strm).length < n

/-- Asked for `n` bytes, the stream writes more than `room`. -/
def DecodingBz2.Overruns (bz : DecodingBz2) (strm : bz.Stream) (room n : Nat) : Prop :=
  room < min n (bz.content strm).length

/-- `ApplyBSDiffPatchMem` returns. -/
def Terminates (bz : Bz2) (old patch : Bytes) (off : Nat) : Prop :=
  ∃ fuel r, applyBSDiffPatchMem bz fuel (.ofBytes old) patch off = .done r

/-- The header is inside the patch, and in no turn does `FillBuffer` want more than a
stream that was cut off still has, or get more than there is room for. -/
structure TerminationCondition (bz : DecodingBz2) (old patch : Bytes) (off : Nat) : Prop where
  header : HeaderInside patch off
  control : ∀ s, LoopState bz.toBz2 old patch off s → ¬bz.Starves s.cstream 24
  fills : ∀ s, LoopState bz.toBz2 old patch off s → ∀ pos size strm,
    FillCall bz.toBz2 (headerNumber patch off 3) s pos size strm →
      ¬bz.Starves strm (toU32 size) ∧
        ¬bz.Overruns strm (headerNumber patch off 3 - pos).toNat (toU32 size)

section Termination

variable {bz : DecodingBz2}

/-- One call, in terms of what the stream still delivers. -/
theorem DecodingBz2.call_cases (bz : DecodingBz2) (strm : bz.Stream) {avail : Nat} (h : 0 < avail) :
    ∃ status out strm', bz.decompress strm avail = (status, out, strm') ∧
      BzCall (bz.content strm) (bz.ends strm) avail status out (bz.content strm') (bz.ends strm') :=
  ⟨_, _, _, rfl, bz.call strm avail h⟩

theorem fillLoop_finished (room avail : Nat) (acc : Bytes) (strm : bz.Stream)
    (hacc : acc.length ≤ room) (h : bz.ends strm = .finished) :
    ∃ fuel r, fillLoop bz.toBz2 room fuel avail acc strm = .done r := by
  cases avail with
  | zero => exact ⟨0, _, fillLoop_zero bz.toBz2 room 0 acc strm⟩
  | succ avail =>
    obtain ⟨status, out, strm', hd, hcall⟩ := bz.call_cases strm (Nat.succ_pos avail)
    refine ⟨1, none, ?_⟩
    rw [fillLoop_succ, hd]
    rw [h] at hcall
    generalize bz.content strm = d at hcall
    generalize bz.content strm' = d' at hcall
    generalize bz.ends strm' = e' at hcall
    cases hcall with
    | deliver hne => exact absurd rfl hne
    | afterEnd =>
      rw [if_neg (by simpa using hacc)]

/-- `FillBuffer` returns when the stream is neither cut off too early nor too long. -/
theorem fillLoop_returns {room avail : Nat} {acc : Bytes} {strm : bz.Stream}
    (hstarves : ¬bz.Starves strm avail)
    (hroom : acc.length + min avail (bz.content strm).length ≤ room) :
    ∃ fuel r, fillLoop bz.toBz2 room fuel avail acc strm = .done r := by
  induction hn : avail using Nat.strong_induction_on generalizing avail acc strm with
  | _ n ih =>
    subst hn
    cases avail with
    | zero => exact ⟨0, _, fillLoop_zero bz.toBz2 room 0 acc strm⟩
    | succ avail =>
      obtain ⟨status, out, strm', hd, hcall⟩ := bz.call_cases strm (Nat.succ_pos avail)
      unfold DecodingBz2.Starves at hstarves
      generalize hcontent : bz.content strm = d at hcall hstarves hroom
      generalize hends : bz.ends strm = e at hcall hstarves
      generalize hcontent' : bz.content strm' = d' at hcall
      generalize hends' : bz.ends strm' = e' at hcall
      cases hcall with
      | deliver hne hout hle =>
        have hpos := List.length_pos_iff.mpr hout
        rw [List.length_append] at hroom hstarves
        have hstarves' : ¬bz.Starves strm' (avail + 1 - out.length) := by
          rintro ⟨ht, hlt⟩
          rw [hcontent'] at hlt
          exact hstarves ⟨hends'.symm.trans ht, by omega⟩
        have hroom' : (acc ++ out).length +
            min (avail + 1 - out.length) (bz.content strm').length ≤ room := by
          rw [List.length_append, hcontent']
          omega
        obtain ⟨fuel, r, hr⟩ := ih (avail + 1 - out.length) (by omega) hstarves' hroom' rfl
        refine ⟨fuel + 1, r, ?_⟩
        rw [fillLoop_succ, hd, if_neg (by simp only; omega)]
        exact hr
      | streamEnd hle =>
        have hfit : (acc ++ out).length ≤ room := by
          rw [List.length_append]
          omega
        obtain ⟨fuel, r, hr⟩ := fillLoop_finished room (avail + 1 - out.length) (acc ++ out) strm'
          hfit hends'
        rw [List.length_append] at hfit
        refine ⟨fuel + 1, r, ?_⟩
        rw [fillLoop_succ, hd, if_neg (by simp only; omega)]
        exact hr
      | afterEnd =>
        refine ⟨1, none, ?_⟩
        rw [fillLoop_succ, hd, if_neg (by simpa using hroom)]
      | exhausted => exact absurd ⟨rfl, Nat.succ_pos avail⟩ hstarves
      | corrupt hle =>
        refine ⟨1, none, ?_⟩
        rw [fillLoop_succ, hd, if_neg (by simp only; omega)]

/-- And only then. -/
theorem fillLoop_returned {room fuel avail : Nat} {acc : Bytes} {strm : bz.Stream}
    {r : Option (Bytes × bz.Stream)} (hacc : acc.length ≤ room)
    (h : fillLoop bz.toBz2 room fuel avail acc strm = .done r) :
    ¬bz.Starves strm avail ∧ acc.length + min avail (bz.content strm).length ≤ room := by
  induction fuel generalizing avail acc strm with
  | zero =>
    cases avail with
    | zero => exact ⟨fun h => absurd h.2 (Nat.not_lt_zero _), by simpa using hacc⟩
    | succ avail => cases h
  | succ fuel ih =>
    cases avail with
    | zero => exact ⟨fun h => absurd h.2 (Nat.not_lt_zero _), by simpa using hacc⟩
    | succ avail =>
      obtain ⟨status, out, strm', hd, hcall⟩ := bz.call_cases strm (Nat.succ_pos avail)
      rw [fillLoop_succ, hd] at h
      dsimp only at h
      split_ifs at h with hlt
      have hfit : (acc ++ out).length ≤ room := by
        rw [List.length_append]
        exact not_lt.mp hlt
      have hrec : ∀ {avail' : Nat}, fillLoop bz.toBz2 room fuel avail' (acc ++ out) strm' = .done r →
          ¬(bz.ends strm' = .truncated ∧ (bz.content strm').length < avail') ∧
            (acc ++ out).length + min avail' (bz.content strm').length ≤ room :=
        fun h => ih hfit h
      unfold DecodingBz2.Starves
      generalize bz.content strm = d at hcall ⊢
      generalize bz.ends strm = e at hcall ⊢
      generalize bz.content strm' = d' at hcall hrec
      generalize bz.ends strm' = e' at hcall hrec
      rw [List.length_append] at hfit hrec
      cases hcall with
      | deliver hne hout hle =>
        obtain ⟨hstarves, hroom⟩ := hrec h
        rw [List.length_append]
        exact ⟨fun ⟨ht, hlt⟩ => hstarves ⟨ht, by omega⟩, by omega⟩
      | streamEnd hle => exact ⟨fun h => (nomatch h.1), by omega⟩
      | afterEnd => exact ⟨fun h => (nomatch h.1), by simpa using hacc⟩
      | exhausted => exact absurd ⟨rfl, Nat.succ_pos avail⟩ (hrec h).1
      | corrupt hle => exact ⟨fun h => (nomatch h.1), by omega⟩

/-- What was filled is taken off the data of the stream. -/
theorem fillLoop_content {room fuel avail : Nat} {acc b : Bytes} {strm strm' : bz.Stream}
    (h : fillLoop bz.toBz2 room fuel avail acc strm = .done (some (b, strm'))) :
    b ++ bz.content strm' = acc ++ bz.content strm := by
  induction fuel generalizing avail acc strm with
  | zero =>
    cases avail with
    | zero =>
      cases h
      rfl
    | succ avail => cases h
  | succ fuel ih =>
    cases avail with
    | zero =>
      cases h
      rfl
    | succ avail =>
      obtain ⟨status, out, strm₁, hd, hcall⟩ := bz.call_cases strm (Nat.succ_pos avail)
      rw [fillLoop_succ, hd] at h
      dsimp only at h
      split_ifs at h
      have hrec : ∀ {avail' : Nat},
          fillLoop bz.toBz2 room fuel avail' (acc ++ out) strm₁ = .done (some (b, strm')) →
          b ++ bz.content strm' = acc ++ (out ++ bz.content strm₁) := by
        intro avail' h
        rw [ih h, List.append_assoc]
      generalize bz.content strm = d at hcall ⊢
      generalize bz.ends strm = e at hcall
      generalize bz.content strm₁ = d' at hcall hrec
      generalize bz.ends strm₁ = e' at hcall
      cases hcall with
      | deliver _ _ _ => exact hrec h
      | streamEnd _ => simpa using hrec h
      | afterEnd => cases h
      | exhausted => exact hrec h
      | corrupt _ => cases h

/-- A turn ends when its calls of `FillBuffer` do. -/
theorem patchStep_returns {bz : Bz2} {old : Bytes} {new_size : Int} {s : PatchState bz}
    (hc : ∃ fuel r, fillBuffer bz fuel 24 24 s.cstream = .done r)
    (h : ∀ pos size strm, FillCall bz new_size s pos size strm →
      ∃ fuel r, fillAt bz fuel new_size pos size strm = .done r) :
    ∃ fuel r, patchStep bz fuel (.ofBytes old) new_size s = .done r := by
  obtain ⟨f, r, hc⟩ := hc
  cases r with
  | none => exact ⟨f, none, by rw [patchStep_eq, hc]; rfl⟩
  | some r =>
    obtain ⟨buf, cstream⟩ := r
    by_cases h0 : wrap32 (s.newpos + ctrl buf 0) > new_size
    · refine ⟨f, none, ?_⟩
      rw [patchStep_eq, hc, Outcome.done_bind]
      exact if_pos h0
    obtain ⟨f', r, hd⟩ := h _ _ _ (.diff hc (not_lt.mp h0))
    have hc' := (fillBuffer_extends bz (Nat.le_max_left f f') _ _ _).done hc
    have hd' := (fillBuffer_extends bz (Nat.le_max_right f f') _ _ _).done hd
    generalize max f f' = f at hc' hd'
    cases r with
    | none =>
      refine ⟨f, none, ?_⟩
      rw [patchStep_eq, hc', Outcome.done_bind]
      dsimp only
      rw [if_neg h0, fillAt, hd']
      rfl
    | some r =>
      obtain ⟨diff, dstream⟩ := r
      by_cases h1 : wrap32 (wrap32 (s.newpos + ctrl buf 0) + ctrl buf 1) > new_size
      · refine ⟨f, none, ?_⟩
        rw [patchStep_eq, hc', Outcome.done_bind]
        dsimp only
        rw [if_neg h0, fillAt, hd', Outcome.done_bind]
        exact if_pos h1
      obtain ⟨f', r, he⟩ := h _ _ _ (.extra hc' (not_lt.mp h0) hd' (not_lt.mp h1))
      have hc'' := (fillBuffer_extends bz (Nat.le_max_left f f') _ _ _).done hc'
      have hd'' := (fillBuffer_extends bz (Nat.le_max_left f f') _ _ _).done hd'
      have he'' := (fillBuffer_extends bz (Nat.le_max_right f f') _ _ _).done he
      generalize max f f' = f at hc'' hd'' he''
      refine ⟨f, ?_⟩
      rw [patchStep_eq, hc'', Outcome.done_bind]
      dsimp only
      rw [if_neg h0, fillAt, hd'', Outcome.done_bind]
      dsimp only
      rw [if_neg h1, fillAt, he'', Outcome.done_bind]
      cases r with
      | none => exact ⟨_, rfl⟩
      | some r => exact ⟨_, rfl⟩

/-- And only then. -/
theorem patchStep_returned {bz : Bz2} {fuel : Nat} {old : Bytes} {new_size : Int}
    {s : PatchState bz} {r : Option (PatchState bz)}
    (h : patchStep bz fuel (.ofBytes old) new_size s = .done r) :
    (∃ r, fillBuffer bz fuel 24 24 s.cstream = .done r) ∧
      ∀ pos size strm, FillCall bz new_size s pos size strm →
        ∃ r, fillAt bz fuel new_size pos size strm = .done r := by
  rw [patchStep_eq] at h
  obtain ⟨r', hc, h⟩ := Outcome.bind_eq_done.mp h
  refine ⟨⟨r', hc⟩, fun pos size strm hcall => ?_⟩
  cases hcall with
  | @diff _ buf _ hc' h0 =>
    obtain rfl := fillBuffer_unique hc hc'
    dsimp only at h
    rw [if_neg (not_lt.mpr h0)] at h
    obtain ⟨r, hd, _⟩ := Outcome.bind_eq_done.mp h
    exact ⟨r, hd⟩
  | @extra _ buf _ diff _ hc' h0 hd' h1 =>
    obtain rfl := fillBuffer_unique hc hc'
    dsimp only at h
    rw [if_neg (not_lt.mpr h0)] at h
    obtain ⟨r, hd, h⟩ := Outcome.bind_eq_done.mp h
    obtain rfl := fillBuffer_unique hd hd'
    dsimp only at h
    rw [if_neg (not_lt.mpr h1)] at h
    obtain ⟨r, he, _⟩ := Outcome.bind_eq_done.mp h
    exact ⟨r, he⟩

/-- A turn takes a control triple off its stream. -/
theorem Turns.content {old : Bytes} {new_size : Int} {s s' : PatchState bz.toBz2}
    (h : Turns bz.toBz2 old new_size s s') :
    (bz.content s'.cstream).length < (bz.content s.cstream).length := by
  obtain ⟨_, fuel, hstep⟩ := h
  obtain ⟨buf, cstream, _, _, _, _, hc, _, _, _, _, rfl⟩ := patchStep_some hstep
  have hlen := (@fillLoop_length bz.toBounded 24 fuel (toU32 24) [] buf s.cstream cstream hc
    (Nat.zero_le _)).1
  have h24 : toU32 24 = 24 := toU32_of_range (n := 24) (by norm_num)
  rw [h24] at hlen
  have hcontent := congrArg List.length (fillLoop_content hc)
  rw [List.length_append, List.length_append, List.length_nil] at hcontent
  rw [List.length_nil] at hlen
  change (bz.content cstream).length < _
  omega

theorem patchLoop_extends {bz : Bz2} {old : OldData} {new_size : Int} {f f' n n' : Nat} (hf : f ≤ f')
    (hn : n ≤ n') (s : PatchState bz) :
    (patchLoop bz f old new_size n s).Extends (patchLoop bz f' old new_size n' s) := by
  induction n generalizing n' s with
  | zero =>
    by_cases hlt : (s.newData.length : Int) < new_size
    · unfold patchLoop
      rw [if_pos hlt]
      exact .of_spin
    · unfold patchLoop
      rw [if_neg hlt, if_neg hlt]
      exact .refl _
  | succ n ih =>
    obtain ⟨n', rfl⟩ : ∃ k, n' = k + 1 := ⟨n' - 1, by omega⟩
    unfold patchLoop
    by_cases hlt : (s.newData.length : Int) < new_size
    · rw [if_pos hlt, if_pos hlt]
      refine (patchStep_extends hf).bind fun r => ?_
      cases r with
      | none => exact .refl _
      | some s' => exact ih (Nat.le_of_succ_le_succ hn) s'
    · rw [if_neg hlt, if_neg hlt]
      exact .refl _

theorem applyBSDiffPatchMem_extends (bz : Bz2) {f f' : Nat} (hf : f ≤ f') (old : OldData)
    (patch : Bytes) (patch_offset : Int) :
    (applyBSDiffPatchMem bz f old patch patch_offset).Extends
      (applyBSDiffPatchMem bz f' old patch patch_offset) := by
  unfold applyBSDiffPatchMem
  refine (Outcome.Extends.refl _).bind fun r => ?_
  cases r with
  | none => exact .refl _
  | some r => exact (patchLoop_extends hf hf r.2).bind fun _ => .refl _

/-- When every turn ends, the loop does: the control stream runs out. -/
theorem patchLoop_returns {old : Bytes} {new_size : Int} (s₀ : PatchState bz.toBz2)
    (h : ∀ s, Reached bz.toBz2 old new_size s₀ s → s.newpos < new_size →
      ∃ fuel r, patchStep bz.toBz2 fuel (.ofBytes old) new_size s = .done r) :
    ∃ fuel r, patchLoop bz.toBz2 fuel (.ofBytes old) new_size fuel s₀ = .done r := by
  induction hn : (bz.content s₀.cstream).length using Nat.strong_induction_on generalizing s₀ with
  | _ n ih =>
    subst hn
    by_cases hlt : (s₀.newData.length : Int) < new_size
    · obtain ⟨f, r, hr⟩ := h s₀ .refl hlt
      cases r with
      | none =>
        refine ⟨f + 1, none, ?_⟩
        have hr' := (patchStep_extends (Nat.le_succ f)).done hr
        unfold patchLoop
        rw [if_pos hlt, hr']
        rfl
      | some s₁ =>
        have hturn : Turns bz.toBz2 old new_size s₀ s₁ := ⟨hlt, f, hr⟩
        obtain ⟨f', r, hr'⟩ := ih _ hturn.content s₁ (fun s hs => h s (.head hturn hs)) rfl
        refine ⟨max f f' + 1, r, ?_⟩
        have hstep := (patchStep_extends (Nat.le_trans (Nat.le_max_left f f') (Nat.le_succ _))).done hr
        have hloop := (patchLoop_extends (Nat.le_trans (Nat.le_max_right f f') (Nat.le_succ _))
          (Nat.le_max_right f f') s₁).done hr'
        unfold patchLoop
        rw [if_pos hlt, hstep]
        exact hloop
    · refine ⟨0, some s₀, ?_⟩
      unfold patchLoop
      rw [if_neg hlt]

/-- When the loop returns, it does from every state it reaches. -/
theorem patchLoop_returned {bz : Bz2} {old : Bytes} {new_size : Int} {f n : Nat}
    {s₀ s : PatchState bz} {r : Option (PatchState bz)} (hs : Reached bz old new_size s₀ s)
    (h : patchLoop bz f (.ofBytes old) new_size n s₀ = .done r) :
    ∃ n, patchLoop bz f (.ofBytes old) new_size n s = .done r := by
  induction hs with
  | refl => exact ⟨n, h⟩
  | tail _ hturn ih =>
    obtain ⟨n, hn⟩ := ih
    obtain ⟨hlt, fuel, hstep⟩ := hturn
    have hlt' : _ < new_size := hlt
    rw [PatchState.newpos] at hlt'
    unfold patchLoop at hn
    rw [if_pos hlt'] at hn
    cases n with
    | zero => cases hn
    | succ n =>
      obtain ⟨r', hr', hn⟩ := Outcome.bind_eq_done.mp hn
      obtain rfl := patchStep_unique hr' hstep
      exact ⟨n, hn⟩

theorem fillAt_returns_iff {new_size pos size : Int} {strm : bz.Stream} :
    (∃ fuel r, fillAt bz.toBz2 fuel new_size pos size strm = .done r) ↔
      ¬bz.Starves strm (toU32 size) ∧ ¬bz.Overruns strm (new_size - pos).toNat (toU32 size) := by
  unfold DecodingBz2.Overruns
  constructor
  · rintro ⟨fuel, r, h⟩
    obtain ⟨hstarves, hroom⟩ := fillLoop_returned (Nat.zero_le _) h
    rw [List.length_nil, Nat.zero_add] at hroom
    exact ⟨hstarves, not_lt.mpr hroom⟩
  · rintro ⟨hstarves, hroom⟩
    exact fillLoop_returns hstarves (by rw [List.length_nil, Nat.zero_add]; exact not_lt.mp hroom)

theorem fill_control_returns_iff {strm : bz.Stream} :
    (∃ fuel r, fillBuffer bz.toBz2 fuel 24 24 strm = .done r) ↔ ¬bz.Starves strm 24 := by
  have h24 : toU32 24 = 24 := toU32_of_range (n := 24) (by norm_num)
  unfold fillBuffer
  rw [h24]
  constructor
  · rintro ⟨fuel, r, h⟩
    exact (fillLoop_returned (Nat.zero_le _) h).1
  · intro h
    exact fillLoop_returns h (by simp)

/-- A call that returns met the condition on the way. -/
theorem Terminates.condition {old patch : Bytes} {off : Nat}
    (h : Terminates bz.toBz2 old patch off) : TerminationCondition bz old patch off := by
  obtain ⟨fuel, r, h⟩ := h
  have hheader : HeaderInside patch off := by
    refine (@openPatch_ne_fault bz.toBz2 patch off).mp fun hfault => ?_
    rw [applyBSDiffPatchMem, hfault] at h
    cases h
  have hturn : ∀ s, LoopState bz.toBz2 old patch off s → ∃ r,
      patchStep bz.toBz2 fuel (.ofBytes old) (headerNumber patch off 3) s = .done r := by
    rintro s ⟨_, ha, hs, hlt⟩
    rw [applyBSDiffPatchMem, openPatch_accepted hheader ha, Outcome.done_bind] at h
    obtain ⟨r', hloop, _⟩ := Outcome.bind_eq_done.mp h
    obtain ⟨n, hn⟩ := patchLoop_returned hs hloop
    have hlt' : (s.newData.length : Int) < headerNumber patch off 3 := hlt
    unfold patchLoop at hn
    rw [if_pos hlt'] at hn
    cases n with
    | zero => cases hn
    | succ n =>
      obtain ⟨r', hr', _⟩ := Outcome.bind_eq_done.mp hn
      exact ⟨r', hr'⟩
  refine ⟨hheader, fun s hs => ?_, fun s hs pos size strm hcall => ?_⟩
  · obtain ⟨r, hr⟩ := hturn s hs
    obtain ⟨r', hc⟩ := (patchStep_returned hr).1
    exact fill_control_returns_iff.mp ⟨fuel, r', hc⟩
  · obtain ⟨r, hr⟩ := hturn s hs
    obtain ⟨r', hfill⟩ := (patchStep_returned hr).2 pos size strm hcall
    exact fillAt_returns_iff.mp ⟨fuel, r', hfill⟩

/-- `ApplyBSDiffPatchMem` returns exactly when the header is inside the patch and no
`FillBuffer` waits for a stream that was cut off or fills more than there is room for. -/
theorem terminates_iff (bz : DecodingBz2) (old patch : Bytes) (off : Nat) :
    Terminates bz.toBz2 old patch off ↔ TerminationCondition bz old patch off := by
  constructor
  · exact fun h => h.condition
  · intro h
    by_cases ha : HeaderAccepted patch off
    · have hturn : ∀ s, Reached bz.toBz2 old (headerNumber patch off 3)
          (loopStart bz.toBz2 patch off) s → s.newpos < headerNumber patch off 3 →
          ∃ fuel r, patchStep bz.toBz2 fuel (.ofBytes old) (headerNumber patch off 3) s = .done r := by
        intro s hs hlt
        have hstate : LoopState bz.toBz2 old patch off s := ⟨h.header, ha, hs, hlt⟩
        exact patchStep_returns (fill_control_returns_iff.mpr (h.control s hstate))
          fun pos size strm hcall => fillAt_returns_iff.mpr (h.fills s hstate pos size strm hcall)
      obtain ⟨fuel, r, hr⟩ := patchLoop_returns _ hturn
      refine ⟨fuel, ?_⟩
      rw [applyBSDiffPatchMem, openPatch_accepted h.header ha, Outcome.done_bind]
      dsimp only
      rw [hr, Outcome.done_bind]
      cases r with
      | none => exact ⟨_, rfl⟩
      | some s => exact ⟨_, rfl⟩
    · exact ⟨0, none, by rw [applyBSDiffPatchMem, openPatch_refused h.header ha]; rfl⟩

end Termination

/-- A header that announces one byte of output, with no control stream behind it. -/
def emptyControlPatch : Bytes := BSDIFF40 ++ offtout 0 ++ offtout 0 ++ offtout 1

/-- `BZ2_bzDecompress` has no input, and `FillBuffer` waits for it forever. -/
theorem terminates_empty_control :
    ¬∀ (bz : DecodingBz2) (old patch : Bytes), BSDIFF40 <+: patch →
      Terminates bz.toBz2 old patch 0 := by
  intro h
  let bz := DecodingBz2.ofTable ⟨[], by simp, by simp⟩
  have hcond := (h bz [] emptyControlPatch ⟨_, rfl⟩).condition
  have h1 : offtin (slice emptyControlPatch 8 8) = 0 := by decide
  have h2 : offtin (slice emptyControlPatch 16 8) = 0 := by decide
  have h3 : offtin (slice emptyControlPatch 24 8) = 1 := by decide
  have hnum : headerNumber emptyControlPatch 0 1 = 0 ∧ headerNumber emptyControlPatch 0 2 = 0 ∧
      headerNumber emptyControlPatch 0 3 = 1 := by
    refine ⟨?_, ?_, ?_⟩
    · exact (congrArg wrap32 h1).trans (wrap32_of_range (by norm_num) (by norm_num))
    · exact (congrArg wrap32 h2).trans (wrap32_of_range (by norm_num) (by norm_num))
    · exact (congrArg wrap32 h3).trans (wrap32_of_range (by norm_num) (by norm_num))
  have haccepted : HeaderAccepted emptyControlPatch 0 := by
    refine ⟨rfl, fun i hi => ?_⟩
    simp only [List.mem_cons, List.not_mem_nil, or_false] at hi
    rcases hi with rfl | rfl | rfl
    · rw [hnum.1]
    · rw [hnum.2.1]
    · rw [hnum.2.2]
      exact Int.one_nonneg
  refine hcond.control (loopStart bz.toBz2 emptyControlPatch 0)
    ⟨hcond.header, haccepted, .refl, ?_⟩ ?_
  · rw [hnum.2.2]
    exact Int.one_pos
  · have hstart : (loopStart bz.toBz2 emptyControlPatch 0).cstream = TableStream.truncated := by
      have hslice : slice emptyControlPatch ((((0 : Nat) : Int) + 32).toNat)
          (headerNumber emptyControlPatch 0 1).toNat = [] := by
        rw [hnum.1]
        exact slice_zero _ _
      exact congrArg (TableStream.open_ ⟨[], by simp, by simp⟩) hslice
    rw [hstart]
    exact ⟨rfl, by decide⟩

end BootableRecovery.Applypatch
