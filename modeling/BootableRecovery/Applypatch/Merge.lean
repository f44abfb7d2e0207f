import BootableRecovery.Applypatch.Imgdiff
import BootableRecovery.Lib.Runs

/-!
# `applypatch/imgdiff.c`: merging the chunks of an image

`MergeAdjacentNormalChunks` compacts the array of chunks in place: a run of NORMAL chunks,
each beginning where the one before it ends, becomes one chunk. `main` merges the chunks of
the source and of the target image on their own, and then takes them in pairs.

Main result:
* `merge_adjacent_normal_chunks`: what a merge leaves as it is, that nothing is left to merge
  behind it, and that the lists of an image pair stay parallel.
-/

namespace BootableRecovery.Applypatch

/-! ## `MergeAdjacentNormalChunks` -/

/-- `chunks[i]` -/
def chunkAt (chunks : List ImageChunk) (i : Nat) : Outcome ImageChunk :=
  match chunks[i]? with
  | some c => .done c
  | none => .fault

/-- An assignment to `chunks[i]`. -/
def setChunk (chunks : List ImageChunk) (i : Nat) (c : ImageChunk) : Outcome (List ImageChunk) :=
  if i < chunks.length then .done (chunks.set i c) else .fault

/-- The loop that looks for the end of a run of NORMAL chunks. -/
def runEnd (chunks : List ImageChunk) (num_chunks : Nat) : Nat → Nat → Outcome Nat
  | fuel, in_end =>
    if in_end < num_chunks then do
      let c ← chunkAt chunks in_end
      let before ← chunkAt chunks (in_end - 1)
      if c.type = CHUNK_NORMAL ∧ c.start = before.start + before.len ∧
          c.data = before.data + before.len then
        match fuel with
        | 0 => .spin
        | fuel + 1 => runEnd chunks num_chunks fuel (in_end + 1)
      else .done in_end
    else .done in_end

/-- `in_end`, for the run that starts with `first` -/
def findEnd (chunks : List ImageChunk) (num_chunks fuel in_start : Nat) (first : ImageChunk) :
    Outcome Nat :=
  if first.type ≠ CHUNK_NORMAL then .done (in_start + 1)
  else runEnd chunks num_chunks fuel (in_start + 1)

/-- Write the chunk for `[in_start, in_end - 1]` to `chunks[out]`. -/
def writeRun (chunks : List ImageChunk) (out in_start in_end : Nat) (first : ImageChunk) :
    Outcome (List ImageChunk) :=
  if in_end = in_start + 1 then
    if out ≠ in_start then setChunk chunks out first else .done chunks
  else do
    let last ← chunkAt chunks (in_end - 1)
    let old ← chunkAt chunks out
    setChunk chunks out { old with
      type := CHUNK_NORMAL, start := first.start, data := first.data,
      len := last.len + (last.start - first.start) }

/-- The main loop: the array, and how many of its elements are in the list. -/
def mergeLoop (num_chunks : Nat) :
    Nat → List ImageChunk → Nat → Nat → Outcome (List ImageChunk × Nat)
  | fuel, chunks, out, in_start =>
    if in_start < num_chunks then
      match fuel with
      | 0 => .spin
      | fuel + 1 => do
        let first ← chunkAt chunks in_start
        let in_end ← findEnd chunks num_chunks fuel in_start first
        let chunks' ← writeRun chunks out in_start in_end first
        mergeLoop num_chunks fuel chunks' (out + 1) in_end
    else .done (chunks, out)

/-- `MergeAdjacentNormalChunks`: the list that it leaves in the array. -/
def mergeAdjacentNormalChunks (fuel : Nat) (chunks : List ImageChunk) :
    Outcome (List ImageChunk) := do
  let (chunks', out) ← mergeLoop chunks.length fuel chunks 0 0
  .done (chunks'.take out)

/-! ## The runs of a list -/

/-- Two NORMAL chunks that are one solid block of data, in the file and in memory. -/
def joins (a b : ImageChunk) : Bool :=
  a.type = CHUNK_NORMAL ∧ b.type = CHUNK_NORMAL ∧ b.start = a.start + a.len ∧
    b.data = a.data + a.len

/-- What becomes of a run, in the element `old` of the array. -/
def collapse (old : ImageChunk) : List ImageChunk → ImageChunk
  | [] => old
  | [c] => c
  | first :: c :: rest =>
    let last := (c :: rest).getLast (List.cons_ne_nil c rest)
    { old with
      type := CHUNK_NORMAL, start := first.start, data := first.data,
      len := last.len + (last.start - first.start) }

/-- The merged list. -/
def merged (chunks : List ImageChunk) : List ImageChunk :=
  Runs.compact joins collapse chunks chunks

section Loop

variable {chunks unread : List ImageChunk} {in_end in_start out : Nat} {c : ImageChunk}

theorem joins_iff {a b : ImageChunk} : joins a b = true ↔
    a.type = CHUNK_NORMAL ∧ b.type = CHUNK_NORMAL ∧ b.start = a.start + a.len ∧
      b.data = a.data + a.len := by
  rw [joins, decide_eq_true_iff]

theorem chunkAt_drop {i : Nat} (h : chunks.drop i = c :: unread) : chunkAt chunks i = .done c := by
  have hi : chunks[i]? = some c := by
    rw [← List.head?_drop, h]
    rfl
  rw [chunkAt, hi]

theorem drop_succ_of_cons {i : Nat} (h : chunks.drop i = c :: unread) :
    chunks.drop (i + 1) = unread := by
  rw [← List.drop_drop, h]
  rfl

theorem lt_of_drop_cons {i : Nat} (h : chunks.drop i = c :: unread) : i < chunks.length := by
  by_contra hlen
  rw [List.drop_eq_nil_of_le (not_lt.mp hlen)] at h
  cases h

/-- The loop stops behind the run. -/
theorem runEnd_eq (fuel : Nat) (hfuel : unread.length ≤ fuel) (hc : c.type = CHUNK_NORMAL)
    (h : chunks.drop in_start = c :: unread) :
    runEnd chunks chunks.length fuel (in_start + 1) =
      .done (in_start + 1 + Runs.runLength joins c unread) := by
  induction fuel generalizing in_start c unread with
  | zero =>
    obtain rfl := List.eq_nil_of_length_eq_zero (Nat.le_zero.mp hfuel)
    have hlen : ¬in_start + 1 < chunks.length := by
      rw [not_lt, ← List.drop_eq_nil_iff]
      exact drop_succ_of_cons h
    rw [runEnd, if_neg hlen]
    rfl
  | succ fuel ih =>
    cases unread with
    | nil =>
      have hlen : ¬in_start + 1 < chunks.length := by
        rw [not_lt, ← List.drop_eq_nil_iff]
        exact drop_succ_of_cons h
      rw [runEnd, if_neg hlen]
      rfl
    | cons b unread =>
      have hnext := drop_succ_of_cons h
      rw [runEnd, if_pos (lt_of_drop_cons hnext), chunkAt_drop hnext, Outcome.done_bind,
        Nat.add_sub_cancel, chunkAt_drop h, Outcome.done_bind, Runs.runLength]
      by_cases hjoins : joins c b = true
      · have hb := joins_iff.mp hjoins
        rw [if_pos hb.2, if_pos hjoins]
        rw [ih (Nat.le_of_succ_le_succ hfuel) hb.2.1 hnext]
        congr 1
        omega
      · rw [if_neg fun hb => hjoins (joins_iff.mpr ⟨hc, hb⟩), if_neg hjoins]

/-- The last chunk of a run is where the loop has stopped. -/
theorem chunkAt_last {run rest : List ImageChunk} (hne : run ≠ [])
    (h : chunks.drop in_start = run ++ rest) :
    chunkAt chunks (in_start + run.length - 1) = .done (run.getLast hne) := by
  have hpos := List.length_pos_of_ne_nil hne
  have hlast : (run ++ rest)[run.length - 1]? = some (run.getLast hne) := by
    rw [List.getElem?_append_left (by omega), ← List.getLast?_eq_getElem?,
      List.getLast?_eq_some_getLast hne]
  rw [← h, List.getElem?_drop, ← Nat.add_sub_assoc hpos] at hlast
  rw [chunkAt, hlast]

theorem findEnd_eq (fuel : Nat) (hfuel : unread.length ≤ fuel)
    (h : chunks.drop in_start = c :: unread) :
    findEnd chunks chunks.length fuel in_start c =
      .done (in_start + 1 + Runs.runLength joins c unread) := by
  rw [findEnd]
  by_cases hc : c.type = CHUNK_NORMAL
  · rw [if_neg (not_not_intro hc), runEnd_eq fuel hfuel hc h]
  · rw [if_pos hc]
    cases unread with
    | nil => rfl
    | cons b unread => rw [Runs.runLength, if_neg fun hj => hc (joins_iff.mp hj).1]

/-- The run becomes one chunk of the array. -/
theorem writeRun_eq {run rest olds : List ImageChunk} {old : ImageChunk}
    (h : chunks.drop in_start = (c :: run) ++ rest) (holds : chunks.drop out = old :: olds) :
    writeRun chunks out in_start (in_start + 1 + run.length) c =
      .done (chunks.set out (collapse old (c :: run))) := by
  have hout := lt_of_drop_cons holds
  rw [writeRun]
  cases run with
  | nil =>
    rw [List.length_nil, Nat.add_zero, if_pos rfl, collapse]
    by_cases hsame : out = in_start
    · have hc : chunks[out] = c := by
        rw [← Option.some_inj, ← List.getElem?_eq_getElem hout, ← List.head?_drop, hsame, h]
        rfl
      rw [if_neg (not_not_intro hsame), ← hc, List.set_getElem_self]
    · rw [if_pos hsame, setChunk, if_pos hout]
  | cons b run =>
    have hlast := chunkAt_last (List.cons_ne_nil c (b :: run)) h
    rw [List.getLast_cons_cons, List.length_cons, ← Nat.add_assoc, Nat.add_right_comm] at hlast
    rw [if_neg (by rw [List.length_cons]; omega), hlast, Outcome.done_bind, chunkAt_drop holds,
      Outcome.done_bind, setChunk, if_pos hout]
    rfl

/-- One round of the loop takes the first run. -/
theorem mergeLoop_round (fuel : Nat) {olds : List ImageChunk} {old : ImageChunk}
    (holds : chunks.drop out = old :: olds) (h : chunks.drop in_start = c :: unread)
    (hfuel : unread.length ≤ fuel) :
    mergeLoop chunks.length (fuel + 1) chunks out in_start =
      mergeLoop chunks.length fuel
        (chunks.set out (collapse old (c :: unread.take (Runs.runLength joins c unread))))
        (out + 1) (in_start + 1 + Runs.runLength joins c unread) := by
  have hrun : (unread.take (Runs.runLength joins c unread)).length =
      Runs.runLength joins c unread := by
    rw [List.length_take, Nat.min_eq_left (Runs.runLength_le joins c unread)]
  have hsplit : chunks.drop in_start = (c :: unread.take (Runs.runLength joins c unread)) ++
      unread.drop (Runs.runLength joins c unread) := by
    rw [h, List.cons_append, List.take_append_drop]
  have hwrite := writeRun_eq hsplit holds
  rw [hrun] at hwrite
  rw [mergeLoop, if_pos (lt_of_drop_cons h), chunkAt_drop h, Outcome.done_bind,
    findEnd_eq fuel hfuel h, Outcome.done_bind, hwrite, Outcome.done_bind]

/-- The merged runs stand in front of what the loop has not overwritten. -/
theorem mergeLoop_eq (fuel : Nat) (hout : out ≤ in_start) (h : chunks.drop in_start = unread)
    (hfuel : unread.length ≤ fuel) :
    ∃ chunks', mergeLoop chunks.length fuel chunks out in_start =
        .done (chunks', out + (unread.splitBy joins).length) ∧
      chunks'.take (out + (unread.splitBy joins).length) =
        chunks.take out ++ List.zipWith collapse (chunks.drop out) (unread.splitBy joins) := by
  induction fuel generalizing chunks out in_start unread with
  | zero =>
    obtain rfl := List.eq_nil_of_length_eq_zero (Nat.le_zero.mp hfuel)
    have hlen : ¬in_start < chunks.length := not_lt.mpr (List.drop_eq_nil_iff.mp h)
    refine ⟨chunks, by rw [mergeLoop, if_neg hlen]; rfl, ?_⟩
    rw [List.splitBy_nil, List.zipWith_nil_right, List.append_nil, List.length_nil, Nat.add_zero]
  | succ fuel ih =>
    cases unread with
    | nil =>
      have hlen : ¬in_start < chunks.length := not_lt.mpr (List.drop_eq_nil_iff.mp h)
      refine ⟨chunks, by rw [mergeLoop, if_neg hlen]; rfl, ?_⟩
      rw [List.splitBy_nil, List.zipWith_nil_right, List.append_nil, List.length_nil, Nat.add_zero]
    | cons c unread =>
      have hin := lt_of_drop_cons h
      obtain ⟨old, olds, holds⟩ : ∃ old olds, chunks.drop out = old :: olds :=
        List.exists_cons_of_ne_nil (by rw [Ne, List.drop_eq_nil_iff]; omega)
      have hround := mergeLoop_round fuel holds h (Nat.le_of_succ_le_succ hfuel)
      generalize hn : Runs.runLength joins c unread = n at hround
      generalize hx : collapse old (c :: unread.take n) = x at hround
      -- behind `out` the array is as it was
      have hrest : (chunks.set out x).drop (in_start + 1 + n) = unread.drop n := by
        rw [List.drop_set_of_lt (by omega), ← List.drop_drop, drop_succ_of_cons h]
      obtain ⟨chunks', hloop, htake⟩ := @ih _ _ (in_start + 1 + n) (out + 1) (by omega) hrest
        (by rw [List.length_drop]; have := Nat.le_of_succ_le_succ hfuel; omega)
      rw [List.length_set] at hloop
      have hcount : ((c :: unread).splitBy joins).length =
          1 + ((unread.drop n).splitBy joins).length := by
        rw [Runs.splitBy_cons, List.length_cons, hn, Nat.add_comm]
      refine ⟨chunks', ?_, ?_⟩
      · rw [hround, hloop, hcount, Nat.add_assoc]
      · rw [hcount, ← Nat.add_assoc, htake, List.drop_set_of_lt (Nat.lt_succ_self out),
          drop_succ_of_cons holds, holds, Runs.splitBy_cons, hn, List.zipWith_cons_cons, hx,
          List.take_succ_eq_append_getElem (by rw [List.length_set]; exact lt_of_drop_cons holds),
          List.take_set_of_le le_rfl, List.getElem_set_self, List.append_assoc]
        rfl

/-- `MergeAdjacentNormalChunks` returns, with the merged list. -/
theorem mergeAdjacentNormalChunks_eq (fuel : Nat) (hfuel : chunks.length ≤ fuel) :
    mergeAdjacentNormalChunks fuel chunks = .done (merged chunks) := by
  obtain ⟨chunks', hloop, htake⟩ := @mergeLoop_eq chunks chunks 0 0 fuel le_rfl rfl hfuel
  rw [mergeAdjacentNormalChunks, hloop, Outcome.done_bind]
  dsimp only
  rw [htake]
  rfl

/-- More turns go on where fewer ran out. -/
theorem runEnd_extends {fuel fuel' : Nat} (h : fuel ≤ fuel') (num_chunks in_end : Nat) :
    (runEnd chunks num_chunks fuel in_end).Extends (runEnd chunks num_chunks fuel' in_end) := by
  induction fuel generalizing fuel' in_end with
  | zero =>
    rw [runEnd.eq_def, runEnd.eq_def]
    dsimp only
    split_ifs
    · refine (Outcome.Extends.refl _).bind fun c => (Outcome.Extends.refl _).bind fun before => ?_
      split_ifs
      · exact .of_spin
      · exact .refl _
    · exact .refl _
  | succ fuel ih =>
    obtain ⟨fuel', rfl⟩ := Nat.exists_eq_succ_of_ne_zero (Nat.ne_zero_of_lt h)
    rw [runEnd, runEnd]
    split_ifs
    · refine (Outcome.Extends.refl _).bind fun c => (Outcome.Extends.refl _).bind fun before => ?_
      split_ifs
      · exact ih (Nat.le_of_succ_le_succ h) _
      · exact .refl _
    · exact .refl _

theorem mergeLoop_extends {fuel fuel' : Nat} (h : fuel ≤ fuel')
    (num_chunks : Nat) (chunks : List ImageChunk) (out in_start : Nat) :
    (mergeLoop num_chunks fuel chunks out in_start).Extends
      (mergeLoop num_chunks fuel' chunks out in_start) := by
  induction fuel generalizing fuel' chunks out in_start with
  | zero =>
    rw [mergeLoop.eq_def, mergeLoop.eq_def]
    dsimp only
    split_ifs
    · exact .of_spin
    · exact .refl _
  | succ fuel ih =>
    obtain ⟨fuel', rfl⟩ := Nat.exists_eq_succ_of_ne_zero (Nat.ne_zero_of_lt h)
    have hle := Nat.le_of_succ_le_succ h
    rw [mergeLoop, mergeLoop]
    split_ifs
    · refine (Outcome.Extends.refl _).bind fun first => ?_
      have hend : (findEnd chunks num_chunks fuel in_start first).Extends
          (findEnd chunks num_chunks fuel' in_start first) := by
        rw [findEnd, findEnd]
        split_ifs
        · exact .refl _
        · exact runEnd_extends hle num_chunks _
      refine hend.bind fun in_end => (Outcome.Extends.refl _).bind fun chunks' => ?_
      exact ih hle chunks' _ _
    · exact .refl _

/-- Whenever it returns, it is with the merged list. -/
theorem mergeAdjacentNormalChunks_done {fuel : Nat} {chunks' : List ImageChunk}
    (h : mergeAdjacentNormalChunks fuel chunks = .done chunks') : chunks' = merged chunks := by
  have hmore : (mergeAdjacentNormalChunks fuel chunks).Extends
      (mergeAdjacentNormalChunks (max fuel chunks.length) chunks) :=
    (mergeLoop_extends (Nat.le_max_left _ _) _ _ _ _).bind fun _ => .refl _
  have hdone := hmore.done h
  rw [mergeAdjacentNormalChunks_eq _ (Nat.le_max_right _ _)] at hdone
  cases hdone
  rfl

end Loop

/-! ## What a merge does -/

/-- The positions of the file that the chunk stands for. -/
def ImageChunk.fileRange (c : ImageChunk) : List Nat := List.range' c.start c.extent

/-- The addresses of the data of the chunk. -/
def ImageChunk.dataRange (c : ImageChunk) : List Nat := List.range' c.data c.len

section Runs

variable {run : List ImageChunk} {first c old : ImageChunk}

/-- The ranges of a run, at positions that go on from chunk to chunk, are one range. -/
theorem run_range (p : ImageChunk → Nat) (hp : ∀ a b, joins a b = true → p b = p a + a.len)
    (h : (c :: run).IsChain fun a b => joins a b) :
    ∃ d, p ((c :: run).getLast (List.cons_ne_nil c run)) = p c + d ∧
      (c :: run).flatMap (fun a => List.range' (p a) a.len) =
        List.range' (p c) (((c :: run).getLast (List.cons_ne_nil c run)).len + d) := by
  induction run generalizing c with
  | nil => exact ⟨0, rfl, by simp⟩
  | cons b run ih =>
    obtain ⟨d, hlast, hrange⟩ := ih h.tail
    have hb := hp c b h.rel
    refine ⟨c.len + d, by rw [List.getLast_cons_cons, hlast, hb, Nat.add_assoc], ?_⟩
    rw [List.flatMap_cons, hrange, hb, List.range'_append_1, List.getLast_cons_cons]
    congr 1
    omega

theorem run_normal {b : ImageChunk} (h : (c :: b :: run).IsChain fun a b => joins a b) :
    ∀ a ∈ c :: b :: run, a.type = CHUNK_NORMAL := by
  induction run generalizing c b with
  | nil =>
    have hb := joins_iff.mp h.rel
    intro a ha
    rcases List.mem_cons.mp ha with rfl | ha
    · exact hb.1
    · rw [List.mem_singleton.mp ha]
      exact hb.2.1
  | cons b' run ih =>
    intro a ha
    rcases List.mem_cons.mp ha with rfl | ha
    · exact (joins_iff.mp h.rel).1
    · exact ih h.tail a ha

/-- How far the last chunk of a run is from the first, in the file as in memory. -/
theorem run_last (h : (c :: run).IsChain fun a b => joins a b) :
    ∃ d, ((c :: run).getLast (List.cons_ne_nil c run)).start = c.start + d ∧
      ((c :: run).getLast (List.cons_ne_nil c run)).data = c.data + d := by
  induction run generalizing c with
  | nil => exact ⟨0, rfl, rfl⟩
  | cons b run ih =>
    obtain ⟨d, hstart, hdata⟩ := ih h.tail
    have hb := joins_iff.mp h.rel
    refine ⟨c.len + d, ?_, ?_⟩
    · rw [List.getLast_cons_cons, hstart, hb.2.2.1, Nat.add_assoc]
    · rw [List.getLast_cons_cons, hdata, hb.2.2.2, Nat.add_assoc]

theorem collapse_fileRange (hne : run ≠ []) (h : run.IsChain fun a b => joins a b) :
    (collapse old run).fileRange = run.flatMap ImageChunk.fileRange := by
  match run, hne with
  | [c], _ => simp [collapse]
  | c :: b :: run, _ =>
    have hnormal := run_normal h
    obtain ⟨d, hlast, hrange⟩ := run_range ImageChunk.start (fun a b hab => (joins_iff.mp hab).2.2.1) h
    have hext : (c :: b :: run).flatMap ImageChunk.fileRange =
        (c :: b :: run).flatMap fun a => List.range' a.start a.len := by
      refine List.flatMap_congr fun a ha => ?_
      rw [ImageChunk.fileRange, ImageChunk.extent_normal (hnormal a ha)]
    rw [hext, hrange, collapse, ImageChunk.fileRange, ImageChunk.extent_normal rfl]
    rw [List.getLast_cons_cons] at hlast
    dsimp only
    rw [hlast, Nat.add_sub_cancel_left, List.getLast_cons_cons]

theorem collapse_dataRange (hne : run ≠ []) (h : run.IsChain fun a b => joins a b) :
    (collapse old run).dataRange = run.flatMap ImageChunk.dataRange := by
  match run, hne with
  | [c], _ => simp [collapse]
  | c :: b :: run, _ =>
    obtain ⟨d, hlast, hrange⟩ := run_range ImageChunk.data (fun a b hab => (joins_iff.mp hab).2.2.2) h
    obtain ⟨d', hstart, hdata⟩ := run_last h
    obtain rfl : d' = d := Nat.add_left_cancel (hdata.symm.trans hlast)
    have hrange' : (c :: b :: run).flatMap ImageChunk.dataRange = _ := hrange
    rw [hrange', collapse, ImageChunk.dataRange]
    rw [List.getLast_cons_cons] at hstart
    dsimp only
    rw [hstart, Nat.add_sub_cancel_left, List.getLast_cons_cons]

theorem collapse_type (hne : run ≠ []) (h : run.IsChain fun a b => joins a b) :
    (collapse old run).type = (run.head hne).type := by
  match run, hne with
  | [c], _ => rfl
  | c :: b :: run, _ => exact (run_normal h c List.mem_cons_self).symm

theorem collapse_filter (hne : run ≠ []) (h : run.IsChain fun a b => joins a b) :
    [collapse old run].filter (fun c => c.type ≠ CHUNK_NORMAL) =
      run.filter fun c => c.type ≠ CHUNK_NORMAL := by
  match run, hne with
  | [c], _ => rfl
  | c :: b :: run, _ =>
    have hnone : (c :: b :: run).filter (fun c => c.type ≠ CHUNK_NORMAL) = [] := by
      rw [List.filter_eq_nil_iff]
      intro a ha
      simp [run_normal h a ha]
    rw [hnone]
    rfl

/-- The chunk of a run is joined to others as the ends of the run are. -/
theorem collapse_joins {old' : ImageChunk} {a b : List ImageChunk} (ha : a ≠ []) (hb : b ≠ [])
    (hachain : a.IsChain fun x y => joins x y) (hbchain : b.IsChain fun x y => joins x y) :
    joins (collapse old a) (collapse old' b) = joins (a.getLast ha) (b.head hb) := by
  have hhead : (collapse old' b).type = (b.head hb).type ∧
      (collapse old' b).start = (b.head hb).start ∧ (collapse old' b).data = (b.head hb).data := by
    refine ⟨collapse_type hb hbchain, ?_⟩
    match b, hb with
    | [c], _ => exact ⟨rfl, rfl⟩
    | c :: d :: run, _ => exact ⟨rfl, rfl⟩
  have hlast : (collapse old a).type = (a.getLast ha).type ∧
      (collapse old a).start + (collapse old a).len = (a.getLast ha).start + (a.getLast ha).len ∧
      (collapse old a).data + (collapse old a).len = (a.getLast ha).data + (a.getLast ha).len := by
    match a, ha with
    | [c], _ => exact ⟨rfl, rfl, rfl⟩
    | c :: d :: run, _ =>
      obtain ⟨n, hstart, hdata⟩ := run_last hachain
      rw [List.getLast_cons_cons] at hstart hdata
      rw [List.getLast_cons_cons, collapse]
      dsimp only
      refine ⟨?_, ?_, ?_⟩
      · exact (run_normal hachain _ (List.mem_cons_of_mem _ (List.getLast_mem _))).symm
      · omega
      · omega
  rw [Bool.eq_iff_iff, joins_iff, joins_iff, hhead.1, hhead.2.1, hhead.2.2, hlast.1, hlast.2.1,
    hlast.2.2]

end Runs

/-! ## The image mode of `main` -/

section Model

variable (z : Zlib) (mem : Nat → UInt8)

def BUFFER_SIZE : Nat := 32768
def Z_DEFLATED : Int := 8
def Z_DEFAULT_STRATEGY : Int := 0

/-- The `n` bytes of memory at an address. -/
def bytesAt (p n : Nat) : Bytes := (List.range' p n).map mem

/-- The loop of `TryReconstruction`. -/
def tryLoop (chunk : ImageChunk) : Nat → Nat → z.DeflateStream → Outcome Int
  | 0, _, _ => .spin
  | fuel + 1, p, strm =>
    let (ret, out, strm') := z.deflate strm BUFFER_SIZE
    let p' := p + out.length
    if out ≠ bytesAt mem (chunk.deflate_data + p) out.length then .done (-1)
    else if ret ≠ Z_STREAM_END then tryLoop chunk fuel p' strm'
    else if p' ≠ chunk.deflate_len then .done (-1) else .done 0

/-- `TryReconstruction` -/
def tryReconstruction (fuel : Nat) (chunk : ImageChunk) : Outcome Int :=
  let (_, strm) := z.deflateInit2 (bytesAt mem chunk.data chunk.len) chunk.level chunk.method
    chunk.windowBits chunk.memLevel chunk.strategy
  tryLoop z mem chunk fuel 0 strm

/-- The loop over the levels. -/
def levelLoop (fuel : Nat) : List Int → ImageChunk → Outcome (Int × ImageChunk)
  | [], chunk => .done (-1, chunk)
  | level :: levels, chunk => do
    let chunk := { chunk with
      level := level, windowBits := -15, memLevel := 8, method := Z_DEFLATED,
      strategy := Z_DEFAULT_STRATEGY }
    let ret ← tryReconstruction z mem fuel chunk
    if ret = 0 then .done (0, chunk)
    else levelLoop fuel levels { chunk with level := chunk.level + 3 }

/-- `ReconstructDeflateChunk`: its return value and the chunk with the parameters. -/
def reconstructDeflateChunk (fuel : Nat) (chunk : ImageChunk) : Outcome (Int × ImageChunk) :=
  if chunk.type ≠ CHUNK_DEFLATE then .done (-1, chunk)
  else levelLoop z mem fuel [6, 9] { chunk with level := 6 }

/-- `ChangeDeflateChunkToNormal` -/
def changeDeflateChunkToNormal (ch : ImageChunk) : ImageChunk :=
  if ch.type ≠ CHUNK_DEFLATE then ch
  else { ch with type := CHUNK_NORMAL, data := ch.deflate_data, len := ch.deflate_len }

/-- `AreChunksEqual` -/
def areChunksEqual (a b : ImageChunk) : Bool :=
  if a.type ≠ b.type then false
  else if a.type = CHUNK_NORMAL then
    a.len = b.len ∧ bytesAt mem a.data a.len = bytesAt mem b.data a.len
  else if a.type = CHUNK_DEFLATE then
    a.deflate_len = b.deflate_len ∧
      bytesAt mem a.deflate_data a.deflate_len = bytesAt mem b.deflate_data a.deflate_len
  else false

/-- The body of the loop that looks for DEFLATE chunks to treat as NORMAL ones, on a target
chunk and the source chunk with the same index. -/
def demoteStep (fuel : Nat) (tgt src : ImageChunk) : Outcome (ImageChunk × ImageChunk) :=
  if tgt.type = CHUNK_DEFLATE then do
    let (ret, tgt) ← reconstructDeflateChunk z mem fuel tgt
    if ret < 0 ∨ areChunksEqual mem tgt src then
      .done (changeDeflateChunkToNormal tgt, changeDeflateChunkToNormal src)
    else .done (tgt, src)
  else .done (tgt, src)

/-- The loop itself; there is a source chunk for every target chunk. -/
def demoteLoop (fuel : Nat) :
    List ImageChunk → List ImageChunk → Outcome (List ImageChunk × List ImageChunk)
  | tgt :: tgt_chunks, src :: src_chunks => do
    let (tgt, src) ← demoteStep z mem fuel tgt src
    let (tgt_chunks, src_chunks) ← demoteLoop fuel tgt_chunks src_chunks
    .done (tgt :: tgt_chunks, src :: src_chunks)
  | [], src_chunks => .done ([], src_chunks)
  | _ :: _, [] => .fault

/-- What `main` comes to before it makes patches, when it is not in zip mode. -/
inductive ImageMode where
  | numberDiffers
  | structureDiffers
  | wentAwry
  | patches (src tgt : List ImageChunk)
  deriving DecidableEq, Repr

/-- `main` on the chunks of the source and of the target image. -/
def imageMode (fuel : Nat) (src_chunks tgt_chunks : List ImageChunk) : Outcome ImageMode := do
  let tgt_chunks ← mergeAdjacentNormalChunks fuel tgt_chunks
  let src_chunks ← mergeAdjacentNormalChunks fuel src_chunks
  if src_chunks.length ≠ tgt_chunks.length then .done .numberDiffers
  else if src_chunks.map ImageChunk.type ≠ tgt_chunks.map ImageChunk.type then
    .done .structureDiffers
  else
    let (tgt_chunks, src_chunks) ← demoteLoop z mem fuel tgt_chunks src_chunks
    let tgt_chunks ← mergeAdjacentNormalChunks fuel tgt_chunks
    let src_chunks ← mergeAdjacentNormalChunks fuel src_chunks
    if src_chunks.length ≠ tgt_chunks.length then .done .wentAwry
    else .done (.patches src_chunks tgt_chunks)

end Model

/-! ## Parallel lists -/

/-- Two types that can be joined. -/
def bothNormal (s t : Int) : Bool := s = CHUNK_NORMAL ∧ t = CHUNK_NORMAL

/-- The chunks are pieces of an image at `base`: each starts where the one before it ends, and
points to its own bytes. -/
def PiecesAt (base pos : Nat) (chunks : List ImageChunk) : Prop :=
  (∃ e, Tiled pos chunks e) ∧ ∀ c ∈ chunks, c.InImage base

section Parallel

variable {base base' pos pos' : Nat} {chunks chunks' : List ImageChunk} {c : ImageChunk}

theorem PiecesAt.cons (h : PiecesAt base pos (c :: chunks)) :
    c.start = pos ∧ c.InImage base ∧ PiecesAt base (pos + c.extent) chunks :=
  ⟨h.1.choose_spec.1, h.2 c List.mem_cons_self, ⟨_, h.1.choose_spec.2⟩,
    fun a ha => h.2 a (List.mem_cons_of_mem _ ha)⟩

/-- In an image, two NORMAL neighbours are always joined. -/
theorem PiecesAt.isChain_joins (h : PiecesAt base pos chunks) :
    chunks.IsChain fun a b => joins a b = bothNormal a.type b.type := by
  induction chunks generalizing pos with
  | nil => exact .nil
  | cons a chunks ih =>
    obtain ⟨hstart, hin, hrest⟩ := h.cons
    cases chunks with
    | nil => exact .singleton a
    | cons b chunks =>
      refine (ih hrest).cons_cons ?_
      obtain ⟨hstart', hin', -⟩ := hrest.cons
      rw [Bool.eq_iff_iff, joins_iff, bothNormal, decide_eq_true_iff]
      refine ⟨fun hab => ⟨hab.1, hab.2.1⟩, fun hab => ⟨hab.1, hab.2, ?_, ?_⟩⟩
      · rw [hstart', hstart, ImageChunk.extent_normal hab.1]
      · have hdata := hin.data_normal hab.1
        have hdata' := hin'.data_normal hab.2
        rw [hdata', hdata, hstart', hstart, ImageChunk.extent_normal hab.1, Nat.add_assoc]

/-- The types of the merged list depend on the types alone. -/
theorem PiecesAt.merged_types (h : PiecesAt base pos chunks) :
    (merged chunks).map ImageChunk.type =
      ((chunks.map ImageChunk.type).splitBy bothNormal).map fun types => types.headD 0 := by
  rw [Runs.splitBy_map ImageChunk.type h.isChain_joins, List.map_map, merged]
  refine Runs.compact_map le_rfl fun old run hne hchain => ?_
  rw [collapse_type hne hchain]
  cases run with
  | nil => exact absurd rfl hne
  | cons c run => rfl

theorem collapse_extent {old : ImageChunk} {run : List ImageChunk} (hne : run ≠ [])
    (h : run.IsChain fun a b => joins a b) :
    (collapse old run).extent = (run.map ImageChunk.extent).sum := by
  have hlen := congrArg List.length (@collapse_fileRange run old hne h)
  rw [ImageChunk.fileRange, List.length_range', List.length_flatMap] at hlen
  rw [hlen]
  congr 1
  refine List.map_congr_left fun a _ => ?_
  rw [ImageChunk.fileRange, List.length_range']

/-- The chunk of a run stands where the run stands. -/
theorem collapse_piecesAt {old : ImageChunk} {run rest : List ImageChunk}
    (h : PiecesAt base pos (run ++ rest)) (hne : run ≠ [])
    (hchain : run.IsChain fun a b => joins a b) :
    (collapse old run).start = pos ∧ (collapse old run).InImage base ∧
      PiecesAt base (pos + (collapse old run).extent) rest := by
  have hrest : PiecesAt base (pos + (run.map ImageChunk.extent).sum) rest := by
    clear hchain hne
    induction run generalizing pos with
    | nil => exact h
    | cons c run ih =>
      rw [List.map_cons, List.sum_cons, ← Nat.add_assoc]
      exact ih h.cons.2.2
  rw [collapse_extent hne hchain]
  match run, hne with
  | [c], _ => exact ⟨h.cons.1, h.cons.2.1, hrest⟩
  | c :: b :: run, _ =>
    refine ⟨h.cons.1, .inl ⟨rfl, ?_⟩, hrest⟩
    exact h.cons.2.1.data_normal (run_normal hchain c List.mem_cons_self)

theorem zipWith_piecesAt {olds : List ImageChunk} {runs : List (List ImageChunk)}
    (h : PiecesAt base pos runs.flatten) (hlen : runs.length ≤ olds.length)
    (hruns : ∀ run ∈ runs, run ≠ [] ∧ run.IsChain fun a b => joins a b) :
    PiecesAt base pos (List.zipWith collapse olds runs) := by
  induction runs generalizing olds pos with
  | nil => rwa [List.zipWith_nil_right]
  | cons run runs ih =>
    cases olds with
    | nil => exact absurd hlen (by simp)
    | cons old olds =>
      obtain ⟨hne, hchain⟩ := hruns run List.mem_cons_self
      obtain ⟨hstart, hin, hrest⟩ := collapse_piecesAt h hne hchain
      obtain ⟨⟨e, htiled⟩, hall⟩ := ih hrest (Nat.le_of_succ_le_succ hlen)
        fun run hrun => hruns run (List.mem_cons_of_mem _ hrun)
      refine ⟨⟨e, hstart, htiled⟩, fun c hc => ?_⟩
      rcases List.mem_cons.mp hc with rfl | hc
      · exact hin
      · exact hall c hc

/-- The merged chunks are pieces of the image again. -/
theorem merged_piecesAt (h : PiecesAt base pos chunks) : PiecesAt base pos (merged chunks) := by
  refine zipWith_piecesAt (by rwa [List.flatten_splitBy]) (Runs.length_splitBy_le _ _) ?_
  exact fun run hrun => ⟨List.ne_nil_of_mem_splitBy hrun, List.isChain_of_mem_splitBy hrun⟩

/-- Pieces with the same types are merged to lists with the same types. -/
theorem PiecesAt.parallel (h : PiecesAt base pos chunks) (h' : PiecesAt base' pos' chunks')
    (htypes : chunks.map ImageChunk.type = chunks'.map ImageChunk.type) :
    (merged chunks).map ImageChunk.type =
      (merged chunks').map ImageChunk.type := by
  rw [h.merged_types, h'.merged_types, htypes]

end Parallel

/-! ## Demotion -/

section Demotion

variable {z : Zlib} {mem : Nat → UInt8} {fuel base base' pos pos' : Nat}
  {src tgt src' tgt' c c' : ImageChunk}

/-- A chunk takes the place of another: it stands for the same bytes. -/
def ImageChunk.Replaces (c' c : ImageChunk) : Prop :=
  c'.start = c.start ∧ c'.extent = c.extent ∧ ∀ base, c.InImage base → c'.InImage base

theorem changeDeflateChunkToNormal_replaces (c : ImageChunk) :
    (changeDeflateChunkToNormal c).Replaces c := by
  rw [changeDeflateChunkToNormal]
  by_cases hc : c.type = CHUNK_DEFLATE
  · rw [if_neg (not_not_intro hc)]
    exact ⟨rfl, (ImageChunk.extent_deflate hc).symm, fun base h => .inl ⟨rfl, h.deflate_data hc⟩⟩
  · rw [if_pos hc]
    exact ⟨rfl, rfl, fun _ h => h⟩

theorem changeDeflateChunkToNormal_type (h : c.type = c'.type) :
    (changeDeflateChunkToNormal c).type = (changeDeflateChunkToNormal c').type := by
  rw [changeDeflateChunkToNormal, changeDeflateChunkToNormal, h]
  split_ifs
  · exact h
  · rfl

theorem levelLoop_replaces {levels : List Int} {ret : Int}
    (h : levelLoop z mem fuel levels c = .done (ret, c')) : c'.Replaces c ∧ c'.type = c.type := by
  induction levels generalizing c with
  | nil =>
    cases h
    exact ⟨⟨rfl, rfl, fun _ h => h⟩, rfl⟩
  | cons level levels ih =>
    obtain ⟨r, -, h⟩ := Outcome.bind_eq_done.mp h
    split_ifs at h with hr
    · cases h
      exact ⟨⟨rfl, rfl, fun _ h => h⟩, rfl⟩
    · obtain ⟨⟨hstart, hextent, hin⟩, htype⟩ := ih h
      exact ⟨⟨hstart, hextent, hin⟩, htype⟩

theorem reconstructDeflateChunk_replaces {ret : Int}
    (h : reconstructDeflateChunk z mem fuel c = .done (ret, c')) :
    c'.Replaces c ∧ c'.type = c.type := by
  rw [reconstructDeflateChunk] at h
  split_ifs at h with hc
  · cases h
    exact ⟨⟨rfl, rfl, fun _ h => h⟩, rfl⟩
  · obtain ⟨⟨hstart, hextent, hin⟩, htype⟩ := levelLoop_replaces h
    exact ⟨⟨hstart, hextent, hin⟩, htype⟩

/-- Two chunks of one type stay two chunks of one type. -/
theorem demoteStep_parallel (htype : src.type = tgt.type)
    (h : demoteStep z mem fuel tgt src = .done (tgt', src')) :
    tgt'.Replaces tgt ∧ src'.Replaces src ∧ src'.type = tgt'.type := by
  have hself : ∀ c : ImageChunk, c.Replaces c := fun c => ⟨rfl, rfl, fun _ h => h⟩
  rw [demoteStep] at h
  split_ifs at h with hdeflate
  · obtain ⟨⟨ret, t⟩, hreconstruct, h⟩ := Outcome.bind_eq_done.mp h
    obtain ⟨hreplaces, htype'⟩ := reconstructDeflateChunk_replaces hreconstruct
    dsimp only at h
    split_ifs at h with hdemote
    · cases h
      have hnormal := changeDeflateChunkToNormal_replaces t
      refine ⟨⟨hnormal.1.trans hreplaces.1, hnormal.2.1.trans hreplaces.2.1, fun base hin => ?_⟩,
        changeDeflateChunkToNormal_replaces src,
        changeDeflateChunkToNormal_type (htype.trans htype'.symm)⟩
      exact hnormal.2.2 base (hreplaces.2.2 base hin)
    · cases h
      exact ⟨hreplaces, hself _, htype.trans htype'.symm⟩
  · cases h
    exact ⟨hself _, hself _, htype⟩

theorem PiecesAt.replace {chunks chunks' : List ImageChunk} (h : PiecesAt base pos (c :: chunks))
    (hc : c'.Replaces c) (hrest : PiecesAt base (pos + c.extent) chunks') :
    PiecesAt base pos (c' :: chunks') := by
  obtain ⟨hstart, hin, -⟩ := h.cons
  obtain ⟨⟨e, htiled⟩, hall⟩ := hrest
  refine ⟨⟨e, hc.1.trans hstart, by rwa [hc.2.1]⟩, fun a ha => ?_⟩
  rcases List.mem_cons.mp ha with rfl | ha
  · exact hc.2.2 base hin
  · exact hall a ha

/-- The demotions keep the lists parallel, and pieces of their images. -/
theorem demoteLoop_parallel {src tgt src' tgt' : List ImageChunk}
    (hsrc : PiecesAt base pos src) (htgt : PiecesAt base' pos' tgt)
    (htypes : src.map ImageChunk.type = tgt.map ImageChunk.type)
    (h : demoteLoop z mem fuel tgt src = .done (tgt', src')) :
    PiecesAt base pos src' ∧ PiecesAt base' pos' tgt' ∧
      src'.map ImageChunk.type = tgt'.map ImageChunk.type := by
  induction tgt generalizing src src' tgt' pos pos' with
  | nil =>
    cases h
    exact ⟨hsrc, htgt, htypes⟩
  | cons t tgt ih =>
    cases src with
    | nil => exact absurd htypes (by simp)
    | cons s src =>
      rw [List.map_cons, List.map_cons, List.cons.injEq] at htypes
      obtain ⟨⟨t', s'⟩, hstep, h⟩ := Outcome.bind_eq_done.mp h
      obtain ⟨⟨ts, ss⟩, hloop, h⟩ := Outcome.bind_eq_done.mp h
      cases h
      obtain ⟨ht, hs, htype⟩ := demoteStep_parallel htypes.1 hstep
      obtain ⟨hsrc', htgt', htypes'⟩ := ih hsrc.cons.2.2 htgt.cons.2.2 htypes.2 hloop
      refine ⟨hsrc.replace hs hsrc', htgt.replace ht htgt', ?_⟩
      rw [List.map_cons, List.map_cons, htype, htypes']

/-- A run of the image mode on pieces of two images does not go awry. -/
theorem imageMode_not_awry {src tgt : List ImageChunk} (hsrc : PiecesAt base pos src)
    (htgt : PiecesAt base' pos' tgt) : imageMode z mem fuel src tgt ≠ .done .wentAwry := by
  intro h
  obtain ⟨tgt₁, htgt₁, h⟩ := Outcome.bind_eq_done.mp h
  obtain ⟨src₁, hsrc₁, h⟩ := Outcome.bind_eq_done.mp h
  obtain rfl := mergeAdjacentNormalChunks_done htgt₁
  obtain rfl := mergeAdjacentNormalChunks_done hsrc₁
  split_ifs at h with hlen htypes
  · cases h
  · cases h
  obtain ⟨⟨tgt₂, src₂⟩, hdemote, h⟩ := Outcome.bind_eq_done.mp h
  obtain ⟨hsrc₂, htgt₂, htypes₂⟩ :=
    demoteLoop_parallel (merged_piecesAt hsrc) (merged_piecesAt htgt) (not_not.mp htypes) hdemote
  obtain ⟨tgt₃, htgt₃, h⟩ := Outcome.bind_eq_done.mp h
  obtain ⟨src₃, hsrc₃, h⟩ := Outcome.bind_eq_done.mp h
  obtain rfl := mergeAdjacentNormalChunks_done htgt₃
  obtain rfl := mergeAdjacentNormalChunks_done hsrc₃
  have hsame := congrArg List.length (hsrc₂.parallel htgt₂ htypes₂)
  rw [List.length_map, List.length_map] at hsame
  rw [if_neg (not_not_intro hsame)] at h
  cases h

end Demotion

/-! ## The merged list -/

/-- What is expected of the list that a merge of `chunks` leaves. -/
structure MergeOf (chunks out : List ImageChunk) : Prop where
  same_file : out.flatMap ImageChunk.fileRange = chunks.flatMap ImageChunk.fileRange
  same_data : out.flatMap ImageChunk.dataRange = chunks.flatMap ImageChunk.dataRange
  others : out.filter (fun c => c.type ≠ CHUNK_NORMAL) = chunks.filter fun c => c.type ≠ CHUNK_NORMAL
  apart : out.IsChain fun a b => joins a b = false
  idempotent : ∀ fuel, out.length ≤ fuel → mergeAdjacentNormalChunks fuel out = .done out

theorem merged_apart (chunks : List ImageChunk) :
    (merged chunks).IsChain fun a b => joins a b = false :=
  Runs.compact_isChain fun _ _ _ _ => collapse_joins

theorem merged_mergeOf (chunks : List ImageChunk) : MergeOf chunks (merged chunks) where
  same_file := Runs.compact_flatMap le_rfl fun _ _ => collapse_fileRange
  same_data := Runs.compact_flatMap le_rfl fun _ _ => collapse_dataRange
  others := Runs.compact_filter le_rfl fun _ _ => collapse_filter
  apart := merged_apart chunks
  idempotent := by
    intro fuel hfuel
    rw [mergeAdjacentNormalChunks_eq fuel hfuel]
    congr 1
    exact Runs.compact_of_isChain (fun _ _ => rfl) (merged_apart chunks)

/-- A merge returns, for every list, and its result stands for the same bytes, with nothing
left to merge. Two lists of pieces of two images with the same types stay parallel, so that in
image mode `main` never finds that the merging went awry. -/
theorem merge_adjacent_normal_chunks :
    (∀ chunks, ∃ out, (∀ fuel, chunks.length ≤ fuel →
      mergeAdjacentNormalChunks fuel chunks = .done out) ∧ MergeOf chunks out) ∧
    (∀ base base' size size' fuel src tgt src' tgt',
      Tiled 0 src size → (∀ c ∈ src, ImageChunk.InImage base c) →
      Tiled 0 tgt size' → (∀ c ∈ tgt, ImageChunk.InImage base' c) →
      src.map ImageChunk.type = tgt.map ImageChunk.type →
      mergeAdjacentNormalChunks fuel src = .done src' →
      mergeAdjacentNormalChunks fuel tgt = .done tgt' →
      src'.length = tgt'.length ∧ src'.map ImageChunk.type = tgt'.map ImageChunk.type) ∧
    ∀ lib z mem base base' malloc malloc' fuel file file' src tgt,
      readImage lib base malloc fuel file = .done (some src) →
      readImage lib base' malloc' fuel file' = .done (some tgt) →
      imageMode z mem fuel src tgt ≠ .done .wentAwry := by
  refine ⟨fun chunks => ⟨merged chunks, fun fuel hfuel => mergeAdjacentNormalChunks_eq fuel hfuel,
    merged_mergeOf chunks⟩, ?_, ?_⟩
  · intro base base' size size' fuel src tgt src' tgt' hsrc hsrcIn htgt htgtIn htypes hsrc' htgt'
    obtain rfl := mergeAdjacentNormalChunks_done hsrc'
    obtain rfl := mergeAdjacentNormalChunks_done htgt'
    have hsame := PiecesAt.parallel ⟨⟨size, hsrc⟩, hsrcIn⟩ ⟨⟨size', htgt⟩, htgtIn⟩ htypes
    refine ⟨?_, hsame⟩
    have hlen := congrArg List.length hsame
    rwa [List.length_map, List.length_map] at hlen
  · intro lib z mem base base' malloc malloc' fuel file file' src tgt hsrc htgt
    exact imageMode_not_awry (readLoop_tiled hsrc) (readLoop_tiled htgt)

/-- Two NORMAL chunks that are one block, of an image at `base`. -/
def twoChunks (base : Nat) : List ImageChunk :=
  [{ ImageChunk.blank with type := CHUNK_NORMAL, start := 0, len := 2, data := base },
    { ImageChunk.blank with type := CHUNK_NORMAL, start := 2, len := 3, data := base + 2 }]

theorem merge_adjacent_normal_chunks_two :
    (merged (twoChunks 0)).length = (merged (twoChunks 7)).length ∧
      (merged (twoChunks 0)).map ImageChunk.type = (merged (twoChunks 7)).map ImageChunk.type :=
  merge_adjacent_normal_chunks.2.1 0 7 5 5 2 (twoChunks 0) (twoChunks 7) _ _
    ⟨rfl, rfl, rfl⟩ (by decide) ⟨rfl, rfl, rfl⟩ (by decide) rfl
    (mergeAdjacentNormalChunks_eq 2 le_rfl) (mergeAdjacentNormalChunks_eq 2 le_rfl)

end BootableRecovery.Applypatch
