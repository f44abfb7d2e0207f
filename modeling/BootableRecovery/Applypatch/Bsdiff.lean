import BootableRecovery.Applypatch.Bspatch

/-!
# `applypatch/bsdiff.c`: computing a BSDIFF40 patch

The encoder walks over the new file with a scan position, looks each suffix up
in the old file through a suffix array `I`, and emits one control triple per
approximate match. Every `off_t` of the source is an `Int` here, so that a
length can come out negative if the code lets it. `qsufsort` is not modelled:
`I` is an argument, and nothing below needs it to be sorted.

Main results:
* `bsdiff_script`: the encoder terminates, and the patch it writes is the
  patch file of an edit script that replays to the new file.
* `bsdiff_roundtrip`: applying the patch gives the new file back.
-/

namespace BootableRecovery.Applypatch
open EditScript

/-! ## Searching the old file -/

/-- `matchlen`: the number of leading bytes two strings have in common. -/
def matchlen : Bytes → Bytes → Nat
  | a :: old, b :: new => if a = b then matchlen old new + 1 else 0
  | _, _ => 0

/-- `memcmp` of two strings up to the shorter one. -/
def memcmp : Bytes → Bytes → Int
  | a :: s, b :: t => if a = b then memcmp s t else (a.toNat : Int) - b.toNat
  | _, _ => 0

/-- `search(I, old, oldsize, new, newsize, st, en, &pos)`: the position in
`old` of a match for the start of `new`, and its length. -/
def search (I : List Nat) (old new : Bytes) (st en : Nat) : Nat × Nat :=
  if en - st < 2 then
    let x := matchlen (old.drop (I.getD st 0)) new
    let y := matchlen (old.drop (I.getD en 0)) new
    if x > y then (I.getD st 0, x) else (I.getD en 0, y)
  else
    let x := st + (en - st) / 2
    if memcmp (old.drop (I.getD x 0)) new < 0 then search I old new x en
    else search I old new st x
termination_by en - st

/-! ## The scan loop -/

/-- `old[k+lastoffset] == new[k]`, with the bound the source checks. -/
def agrees (old new : Bytes) (lastoffset k : Int) : Bool :=
  decide (k + lastoffset < old.length) && byteAt old (k + lastoffset) == byteAt new k

/-- `for(;scsc<scan+len;scsc++)`: how many of the next `n` positions agree. -/
def countAgreeing (old new : Bytes) (lastoffset : Int) : Nat → Int → Int
  | 0, _ => 0
  | n + 1, scsc =>
    (if agrees old new lastoffset scsc then 1 else 0) +
      countAgreeing old new lastoffset n (scsc + 1)

/-- The variables of the inner scan loop. -/
structure Scan where
  scan : Int
  scsc : Int
  pos : Int
  len : Int
  oldscore : Int
  deriving DecidableEq, Repr

/-- `for(scsc=scan+=len;scan<newsize;scan++)`, with `n` positions left before
`newsize`. -/
def scanLoop (I : List Nat) (old new : Bytes) (lastoffset : Int) : Nat → Scan → Scan
  | 0, s => s
  | n + 1, s =>
    let r := search I old (new.drop s.scan.toNat) 0 old.length
    let len : Int := r.2
    let oldscore := s.oldscore +
      countAgreeing old new lastoffset (s.scan + len - s.scsc).toNat s.scsc
    let s' : Scan := ⟨s.scan, max s.scsc (s.scan + len), r.1, len, oldscore⟩
    if (len = oldscore ∧ len ≠ 0) ∨ len > oldscore + 8 then s'
    else
      scanLoop I old new lastoffset n
        { s' with
          scan := s.scan + 1
          oldscore := if agrees old new lastoffset s.scan then oldscore - 1 else oldscore }

/-! ## Extending and splitting matches -/

/-- The three loops that choose a match length have one shape. Turn `i` adds
`gain i` to the running count `s`; the length `i + 1` is kept when its score
`score s (i + 1)` beats the score of the best length so far, `bestLen`, which
was found with the count `bestS`. `n` turns are left. -/
def bestLength (gain : Int → Int) (score : Int → Int → Int) : Nat → Int → Int → Int → Int → Int
  | 0, _, _, _, bestLen => bestLen
  | n + 1, i, s, bestS, bestLen =>
    if score (s + gain i) (i + 1) > score bestS bestLen then
      bestLength gain score n (i + 1) (s + gain i) (s + gain i) (i + 1)
    else bestLength gain score n (i + 1) (s + gain i) bestS bestLen

/-- The forward extension `lenf` from `(lastscan, lastpos)`; `turns` is the
number of turns of `for(i=0;(lastscan+i<scan)&&(lastpos+i<oldsize);)`. -/
def extendForward (old new : Bytes) (lastscan lastpos : Int) (turns : Nat) : Int :=
  bestLength (fun i => if byteAt old (lastpos + i) = byteAt new (lastscan + i) then 1 else 0)
    (fun s i => s * 2 - i) turns 0 0 0 0

/-- The backward extension `lenb` from `(scan, pos)`; `turns` is the number of
turns of `for(i=1;(scan>=lastscan+i)&&(pos>=i);i++)`, and turn `i` compares at
distance `i + 1`. -/
def extendBackward (old new : Bytes) (scan pos : Int) (turns : Nat) : Int :=
  bestLength (fun i => if byteAt old (pos - (i + 1)) = byteAt new (scan - (i + 1)) then 1 else 0)
    (fun s i => s * 2 - i) turns 0 0 0 0

/-- Where to split the overlap of two extensions (`lens`): the new bytes from
`j` on are compared with the old bytes from `pf` (forward) and `pb` (backward). -/
def splitOverlap (old new : Bytes) (j pf pb : Int) (overlap : Nat) : Int :=
  bestLength (fun i => (if byteAt new (j + i) = byteAt old (pf + i) then 1 else 0) -
      (if byteAt new (j + i) = byteAt old (pb + i) then 1 else 0))
    (fun s _ => s) overlap 0 0 0 0

/-- The variables of the outer loop, with the bytes given to the three
streams so far. -/
structure Encoder where
  scan : Int
  len : Int
  pos : Int
  lastscan : Int
  lastpos : Int
  lastoffset : Int
  ctrl : Bytes
  db : Bytes
  eb : Bytes
  deriving DecidableEq, Repr

/-- The lengths `lenf` and `lenb` of a triple, after the overlap is split. -/
def matchLengths (old new : Bytes) (e : Encoder) : Int × Int :=
  let lenf := extendForward old new e.lastscan e.lastpos
    (min (e.scan - e.lastscan) (old.length - e.lastpos)).toNat
  let lenb :=
    if e.scan < new.length then
      extendBackward old new e.scan e.pos (min (e.scan - e.lastscan) e.pos).toNat
    else 0
  if e.lastscan + lenf > e.scan - lenb then
    let overlap := (e.lastscan + lenf) - (e.scan - lenb)
    let lens := splitOverlap old new (e.scan - lenb) (e.lastpos + lenf - overlap) (e.pos - lenb)
      overlap.toNat
    (lenf + (lens - overlap), lenb - lens)
  else (lenf, lenb)

/-- Emit one control triple with its diff and extra bytes. -/
def emit (old new : Bytes) (e : Encoder) : Encoder :=
  let lenf := (matchLengths old new e).1
  let lenb := (matchLengths old new e).2
  let extra := (e.scan - lenb) - (e.lastscan + lenf)
  { e with
    lastscan := e.scan - lenb
    lastpos := e.pos - lenb
    lastoffset := e.pos - e.scan
    ctrl := e.ctrl ++ (offtout lenf ++ offtout extra ++
      offtout ((e.pos - lenb) - (e.lastpos + lenf)))
    db := e.db ++ (List.range lenf.toNat).map fun (i : Nat) =>
      (byteAt new (e.lastscan + i)).getD 0 - (byteAt old (e.lastpos + i)).getD 0
    eb := e.eb ++ (List.range extra.toNat).map fun (i : Nat) =>
      (byteAt new (e.lastscan + lenf + i)).getD 0 }

/-- One turn of `while(scan<newsize)`. -/
def encodeStep (I : List Nat) (old new : Bytes) (e : Encoder) : Encoder :=
  let s := scanLoop I old new e.lastoffset (new.length - (e.scan + e.len)).toNat
    ⟨e.scan + e.len, e.scan + e.len, e.pos, e.len, 0⟩
  let e' := { e with scan := s.scan, pos := s.pos, len := s.len }
  if s.len ≠ s.oldscore ∨ s.scan = new.length then emit old new e' else e'

/-- `while(scan<newsize)`. -/
def encodeLoop (I : List Nat) (old new : Bytes) : Nat → Encoder → Outcome Encoder
  | fuel, e =>
    if e.scan < new.length then
      match fuel with
      | 0 => .spin
      | fuel + 1 => encodeLoop I old new fuel (encodeStep I old new e)
    else .done e

/-! ## Writing the patch file -/

/-- A file that is written like a plain file: contents and position. -/
structure PlainFile where
  bytes : Bytes
  pos : Nat
  deriving DecidableEq, Repr

/-- `fwrite` at the current position. -/
def PlainFile.fwrite (f : PlainFile) (d : Bytes) : PlainFile :=
  ⟨f.bytes.take f.pos ++ d ++ f.bytes.drop (f.pos + d.length), f.pos + d.length⟩

/-- `fseeko(pf, 0, SEEK_SET)`. -/
def PlainFile.rewind (f : PlainFile) : PlainFile := ⟨f.bytes, 0⟩

/-- Writing at the end of a file appends. -/
theorem PlainFile.fwrite_end (b d : Bytes) :
    PlainFile.fwrite ⟨b, b.length⟩ d = ⟨b ++ d, (b ++ d).length⟩ := by
  simp [PlainFile.fwrite]

/-- Rewriting the first bytes of a file keeps the rest. -/
theorem PlainFile.fwrite_start (a a' b : Bytes) (h : a'.length = a.length) :
    (PlainFile.fwrite ⟨a ++ b, 0⟩ a').bytes = a' ++ b := by
  simp [PlainFile.fwrite, h]

/-- `bsdiff(old, oldsize, IP, new, newsize, patch_filename)`: the contents of
the patch file. A `BZFILE` appends the compressed bytes when it is closed. -/
def bsdiff (bz : Bz2) (fuel : Nat) (I : List Nat) (old new : Bytes) : Outcome Bytes := do
  let f := PlainFile.fwrite ⟨[], 0⟩ (BSDIFF40 ++ offtout 0 ++ offtout 0 ++ offtout new.length)
  let e ← encodeLoop I old new fuel ⟨0, 0, 0, 0, 0, 0, [], [], []⟩
  let f := f.fwrite (bz.compress e.ctrl)
  let len := f.pos
  let f := f.fwrite (bz.compress e.db)
  let newsize := f.pos
  let f := f.fwrite (bz.compress e.eb)
  let f := f.rewind.fwrite (BSDIFF40 ++ offtout (len - 32) ++ offtout (newsize - len) ++
    offtout new.length)
  .done f.bytes

/-! ## Bounds of the helper loops -/

theorem matchlen_le (old new : Bytes) : matchlen old new ≤ new.length := by
  induction old generalizing new with
  | nil => simp [matchlen]
  | cons a old ih =>
    cases new with
    | nil => simp [matchlen]
    | cons b new =>
      rw [matchlen]
      split
      · have := ih new
        simp only [List.length_cons]
        omega
      · omega

/-- A search stays inside both files, whatever the order of `I` is. -/
theorem search_bounds {I : List Nat} {old : Bytes} (hI : ∀ i, I.getD i 0 ≤ old.length)
    (new : Bytes) (st en : Nat) :
    (search I old new st en).1 ≤ old.length ∧ (search I old new st en).2 ≤ new.length := by
  induction st, en using search.induct I old new with
  | case1 st en h x y hxy =>
    rw [search, if_pos h, if_pos hxy]
    exact ⟨hI st, matchlen_le _ _⟩
  | case2 st en h x y hxy =>
    rw [search, if_pos h, if_neg hxy]
    exact ⟨hI en, matchlen_le _ _⟩
  | case3 st en h x hlt ih =>
    rw [search, if_neg h, if_pos hlt]
    exact ih
  | case4 st en h x hlt ih =>
    rw [search, if_neg h, if_neg hlt]
    exact ih

/-- The chosen length lies between zero and the number of turns. -/
theorem bestLength_bounds (gain : Int → Int) (score : Int → Int → Int) (n : Nat) :
    ∀ (i s bestS bestLen : Int), 0 ≤ bestLen → bestLen ≤ i →
      0 ≤ bestLength gain score n i s bestS bestLen ∧
      bestLength gain score n i s bestS bestLen ≤ i + n := by
  induction n with
  | zero =>
    intro i s bestS bestLen h0 h1
    simp only [bestLength]
    omega
  | succ n ih =>
    intro i s bestS bestLen h0 h1
    have hcast : i + ((n + 1 : Nat) : Int) = i + 1 + n := by omega
    rw [bestLength, hcast]
    split
    · exact ih (i + 1) _ _ (i + 1) (by omega) le_rfl
    · exact ih (i + 1) _ bestS bestLen h0 (by omega)

/-- What the indices of the encoder satisfy when a triple is emitted. -/
structure Encoder.Ready (old new : Bytes) (e : Encoder) : Prop where
  scan_le : e.scan ≤ new.length
  lastscan_nonneg : 0 ≤ e.lastscan
  lastscan_le : e.lastscan ≤ e.scan
  pos_nonneg : 0 ≤ e.pos
  pos_le : e.pos ≤ old.length
  lastpos_nonneg : 0 ≤ e.lastpos
  lastpos_le : e.lastpos ≤ old.length

/-- The lengths of a triple are not negative, the forward match ends before
the backward one starts, and both lie inside the two files. -/
structure LengthsOk (old new : Bytes) (e : Encoder) (lenf lenb : Int) : Prop where
  lenf_nonneg : 0 ≤ lenf
  lenb_nonneg : 0 ≤ lenb
  disjoint : e.lastscan + lenf ≤ e.scan - lenb
  forward_in_old : e.lastpos + lenf ≤ old.length
  backward_in_old : lenb ≤ e.pos
  at_end : e.scan = new.length → lenb = 0

theorem matchLengths_ok {old new : Bytes} {e : Encoder} (h : e.Ready old new) :
    LengthsOk old new e (matchLengths old new e).1 (matchLengths old new e).2 := by
  obtain ⟨hscan, hls0, hls, hp0, hp, hlp0, hlp⟩ := h
  unfold matchLengths
  have hf := bestLength_bounds
    (fun i => if byteAt old (e.lastpos + i) = byteAt new (e.lastscan + i) then 1 else 0)
    (fun s i => s * 2 - i) (min (e.scan - e.lastscan) (old.length - e.lastpos)).toNat 0 0 0 0
    le_rfl le_rfl
  change 0 ≤ extendForward old new e.lastscan e.lastpos _ ∧
    extendForward old new e.lastscan e.lastpos _ ≤ _ at hf
  have hb : ∃ lenb, (if e.scan < new.length then
        extendBackward old new e.scan e.pos (min (e.scan - e.lastscan) e.pos).toNat
      else 0) = lenb ∧ 0 ≤ lenb ∧ lenb ≤ e.scan - e.lastscan ∧ lenb ≤ e.pos ∧
      (e.scan = new.length → lenb = 0) := by
    split
    · obtain ⟨hb0, hb⟩ := bestLength_bounds
        (fun i => if byteAt old (e.pos - (i + 1)) = byteAt new (e.scan - (i + 1)) then 1 else 0)
        (fun s i => s * 2 - i) (min (e.scan - e.lastscan) e.pos).toNat 0 0 0 0 le_rfl le_rfl
      exact ⟨_, rfl, hb0, hb.trans (by omega), hb.trans (by omega), by omega⟩
    · exact ⟨0, rfl, le_rfl, by omega, by omega, fun _ => rfl⟩
  obtain ⟨lenb, hlenb, hb0, hbs, hbp, hbend⟩ := hb
  simp only [hlenb]
  generalize extendForward old new e.lastscan e.lastpos
    (min (e.scan - e.lastscan) (old.length - e.lastpos)).toNat = lenf at hf ⊢
  obtain ⟨hf0, hf⟩ := hf
  split
  · rename_i hover
    have hs : ∀ pf pb, 0 ≤ splitOverlap old new (e.scan - lenb) pf pb
          (e.lastscan + lenf - (e.scan - lenb)).toNat ∧
        splitOverlap old new (e.scan - lenb) pf pb (e.lastscan + lenf - (e.scan - lenb)).toNat ≤
          0 + ((e.lastscan + lenf - (e.scan - lenb)).toNat : Int) := by
      intro pf pb
      exact bestLength_bounds _ _ _ 0 0 0 0 le_rfl le_rfl
    obtain ⟨hs0, hs⟩ := hs (e.lastpos + lenf - (e.lastscan + lenf - (e.scan - lenb))) (e.pos - lenb)
    generalize splitOverlap old new (e.scan - lenb)
      (e.lastpos + lenf - (e.lastscan + lenf - (e.scan - lenb))) (e.pos - lenb)
      (e.lastscan + lenf - (e.scan - lenb)).toNat = lens at hs0 hs ⊢
    exact ⟨by omega, by omega, by omega, by omega, by omega, by intro h; have := hbend h; omega⟩
  · rename_i hover
    exact ⟨hf0, hb0, by omega, by omega, hbp, hbend⟩

/-! ## The scan loop -/

/-- What the inner scan loop, started at position `start`, leaves behind. -/
structure ScanOk (old new : Bytes) (start : Int) (r : Scan) : Prop where
  scan_ge : start ≤ r.scan
  scan_le : r.scan ≤ new.length
  pos_nonneg : 0 ≤ r.pos
  pos_le : r.pos ≤ old.length
  len_nonneg : 0 ≤ r.len
  len_le : r.scan < new.length → r.scan + r.len ≤ new.length

/-- The scan loop stops inside the new file, with a match inside both files. -/
theorem scanLoop_ok {I : List Nat} {old : Bytes} (new : Bytes)
    (hI : ∀ i, I.getD i 0 ≤ old.length) (lastoffset : Int) (n : Nat) :
    ∀ scan scsc pos len oldscore : Int, 0 ≤ scan → scan + n = new.length → 0 ≤ pos →
      pos ≤ old.length → 0 ≤ len →
      ScanOk old new scan (scanLoop I old new lastoffset n ⟨scan, scsc, pos, len, oldscore⟩) := by
  induction n with
  | zero =>
    intro scan scsc pos len oldscore h0 hn hp0 hp hl
    rw [scanLoop]
    exact ⟨le_rfl, by simp only; omega, hp0, hp, hl, by simp only; omega⟩
  | succ n ih =>
    intro scan scsc pos len oldscore h0 hn hp0 hp hl
    obtain ⟨hpos, hlen⟩ := search_bounds hI (new.drop scan.toNat) 0 old.length
    simp only [List.length_drop] at hlen
    simp only [scanLoop]
    split
    · exact ⟨le_rfl, by simp only; omega, by simp only; omega, by simp only; omega,
        by simp only; omega, by simp only; omega⟩
    · obtain ⟨h1, h2, h3, h4, h5, h6⟩ := ih (scan + 1) _ _ _ _ (by omega) (by omega)
        (Int.natCast_nonneg (search I old (new.drop scan.toNat) 0 old.length).1)
        (by omega) (Int.natCast_nonneg (search I old (new.drop scan.toNat) 0 old.length).2)
      exact ⟨by omega, h2, h3, h4, h5, h6⟩

/-- A scan that starts with an empty score either finds a non-empty match or
moves on. -/
theorem scanLoop_progress {I : List Nat} {old : Bytes} (new : Bytes)
    (hI : ∀ i, I.getD i 0 ≤ old.length) (lastoffset pos len : Int) {n : Nat} {scan : Int}
    (h0 : 0 ≤ scan) (hn : scan + n = new.length) :
    let r := scanLoop I old new lastoffset n ⟨scan, scan, pos, len, 0⟩
    r.scan = new.length ∨ scan < r.scan ∨ 0 < r.len := by
  cases n with
  | zero => exact Or.inl (by simp only [scanLoop]; omega)
  | succ n =>
    obtain ⟨hpos, hlen⟩ := search_bounds hI (new.drop scan.toNat) 0 old.length
    simp only [scanLoop]
    split
    · rename_i hbreak
      refine Or.inr (Or.inr ?_)
      -- With length 0 nothing was counted, so the score is still 0 and the loop does not stop.
      by_contra hzero
      have hlen0 : ((search I old (new.drop scan.toNat) 0 old.length).2 : Int) = 0 := by
        simp only at hzero
        omega
      rw [hlen0] at hbreak
      simp [countAgreeing] at hbreak
    · refine Or.inr (Or.inl (lt_of_lt_of_le (lt_add_one scan) (scanLoop_ok new hI
        lastoffset n (scan + 1) _ _ _ _ (by omega) (by omega) ?_ ?_ ?_).scan_ge))
      · exact Int.natCast_nonneg _
      · exact Int.ofNat_le.mpr hpos
      · exact Int.natCast_nonneg _

/-! ## Emitting a triple -/

/-- The segment of the triple that `emit` writes. -/
def emitted (old new : Bytes) (e : Encoder) : Segment :=
  let lenf := (matchLengths old new e).1
  let lenb := (matchLengths old new e).2
  ⟨diffBytes old new e.lastpos.toNat e.lastscan.toNat lenf.toNat,
    slice new (e.lastscan + lenf).toNat ((e.scan - lenb) - (e.lastscan + lenf)).toNat,
    (e.pos - lenb) - (e.lastpos + lenf)⟩

/-- `emit` appends the control triple, the diff bytes and the extra bytes of
one segment. -/
theorem emit_streams {old new : Bytes} {e : Encoder} (h : e.Ready old new) :
    (emit old new e).ctrl = e.ctrl ++ ctrlBytes (emitted old new e) ∧
    (emit old new e).db = e.db ++ (emitted old new e).diff ∧
    (emit old new e).eb = e.eb ++ (emitted old new e).extra := by
  obtain ⟨hf0, hb0, hdis, hfo, hbo, -⟩ := matchLengths_ok h
  obtain ⟨hscan, hls0, hls, -, -, hlp0, -⟩ := h
  simp only [emit, emitted, ctrlBytes]
  generalize (matchLengths old new e).1 = lenf at *
  generalize (matchLengths old new e).2 = lenb at *
  have hdb : (List.range lenf.toNat).map (fun i => (byteAt new (e.lastscan + (i : Nat))).getD 0 -
      (byteAt old (e.lastpos + (i : Nat))).getD 0) =
      diffBytes old new e.lastpos.toNat e.lastscan.toNat lenf.toNat := by
    refine List.map_congr_left fun i _ => ?_
    have hi : e.lastscan + (i : Int) = ((e.lastscan.toNat + i : Nat) : Int) := by omega
    have hj : e.lastpos + (i : Int) = ((e.lastpos.toNat + i : Nat) : Int) := by omega
    rw [hi, hj, byteAt_ofNat, byteAt_ofNat]
  have hin : (e.lastscan + lenf).toNat + ((e.scan - lenb) - (e.lastscan + lenf)).toNat ≤
      new.length := by omega
  have heb : (List.range ((e.scan - lenb) - (e.lastscan + lenf)).toNat).map
      (fun i => (byteAt new (e.lastscan + lenf + (i : Nat))).getD 0) =
      slice new (e.lastscan + lenf).toNat ((e.scan - lenb) - (e.lastscan + lenf)).toNat := by
    apply List.ext_getElem?
    intro i
    by_cases hi : i < ((e.scan - lenb) - (e.lastscan + lenf)).toNat
    · have hidx : e.lastscan + lenf + (i : Int) = (((e.lastscan + lenf).toNat + i : Nat) : Int) := by
        omega
      have hlt : (e.lastscan + lenf).toNat + i < new.length := by omega
      rw [slice_getElem? _ _ _ _ hi, List.getElem?_map, List.getElem?_range hi, Option.map_some,
        hidx, byteAt_ofNat, List.getElem?_eq_getElem hlt, Option.getD_some]
    · rw [List.getElem?_eq_none (by simp; omega),
        List.getElem?_eq_none (by rw [slice_length_of_le hin]; omega)]
  have hlen1 : ((diffBytes old new e.lastpos.toNat e.lastscan.toNat lenf.toNat).length : Int) =
      lenf := by
    rw [diffBytes_length]
    omega
  have hlen2 : ((slice new (e.lastscan + lenf).toNat
      ((e.scan - lenb) - (e.lastscan + lenf)).toNat).length : Int) =
      (e.scan - lenb) - (e.lastscan + lenf) := by
    rw [slice_length_of_le hin]
    omega
  exact ⟨by rw [hlen1, hlen2], by rw [hdb], by rw [heb]⟩

/-- The emitted segment, replayed at `lastpos`, gives the new bytes from the
old `lastscan` to the new one, and leaves the cursor at the new `lastpos`. -/
theorem emitted_replay {old new : Bytes} {e : Encoder} (h : e.Ready old new) :
    (emitted old new e).output old e.lastpos =
      slice new e.lastscan.toNat ((emit old new e).lastscan - e.lastscan).toNat ∧
    (emitted old new e).next e.lastpos = (emit old new e).lastpos := by
  obtain ⟨hf0, hb0, hdis, hfo, hbo, -⟩ := matchLengths_ok h
  obtain ⟨hscan, hls0, hls, -, -, hlp0, -⟩ := h
  simp only [emit, emitted, Segment.output, Segment.next]
  generalize (matchLengths old new e).1 = lenf at *
  generalize (matchLengths old new e).2 = lenb at *
  constructor
  · have hlp : e.lastpos = (e.lastpos.toNat : Int) := by omega
    have hadd : addOld old e.lastpos
        (diffBytes old new e.lastpos.toNat e.lastscan.toNat lenf.toNat) =
        slice new e.lastscan.toNat lenf.toNat := by
      conv_lhs => rw [hlp]
      exact addOld_diffBytes (by omega)
    have hstart : (e.lastscan + lenf).toNat = e.lastscan.toNat + lenf.toNat := by omega
    have hsum : ((e.scan - lenb) - e.lastscan).toNat =
        lenf.toNat + ((e.scan - lenb) - (e.lastscan + lenf)).toNat := by omega
    rw [hadd, hstart, slice_append_slice, hsum]
  · rw [diffBytes_length]
    omega

/-! ## The outer loop -/

/-- The invariant of `while(scan<newsize)`: the indices stay inside the two
files, and the triples written so far are a script for the first `lastscan`
bytes of the new file that leaves the cursor at `lastpos`. -/
structure Encoder.Inv (old new : Bytes) (e : Encoder) (segs : List Segment) : Prop
    extends e.Ready old new where
  scan_nonneg : 0 ≤ e.scan
  len_nonneg : 0 ≤ e.len
  len_le : e.scan < new.length → e.scan + e.len ≤ new.length
  complete : e.scan = new.length → e.lastscan = new.length ∧ EndsInOutput segs
  ctrl_eq : e.ctrl = segs.flatMap ctrlBytes
  db_eq : e.db = segs.flatMap Segment.diff
  eb_eq : e.eb = segs.flatMap Segment.extra
  replay_eq : replay old 0 segs = new.take e.lastscan.toNat
  cursor_eq : cursor 0 segs = e.lastpos
  inRange : InRange (2 ^ 31) 0 segs

theorem Encoder.inv_init (old new : Bytes) :
    Encoder.Inv old new ⟨0, 0, 0, 0, 0, 0, [], [], []⟩ [] := by
  constructor
  · exact ⟨Int.natCast_nonneg _, le_rfl, le_rfl, le_rfl, Int.natCast_nonneg _, le_rfl,
      Int.natCast_nonneg _⟩
  · exact le_rfl
  · exact le_rfl
  · exact fun _ => Int.natCast_nonneg _
  · intro h
    refine ⟨h, ?_⟩
    intro s hs
    simp at hs
  · rfl
  · rfl
  · rfl
  · simp [replay]
  · rfl
  · exact ⟨by norm_num, by norm_num⟩

/-- The segment that is emitted next stays in range. -/
theorem emitted_inRange {old new : Bytes} {e : Encoder} (h : e.Ready old new)
    (hold : old.length < 2 ^ 31) : InRange (2 ^ 31) e.lastpos [emitted old new e] := by
  have hnext := (emitted_replay h).2
  obtain ⟨hf0, hb0, hdis, hfo, hbo, -⟩ := matchLengths_ok h
  obtain ⟨-, -, -, hp0, hp, hlp0, hlp⟩ := h
  have hdiff : ((emitted old new e).diff.length : Int) = (matchLengths old new e).1 := by
    simp only [emitted, diffBytes_length]
    omega
  have hseek : (emitted old new e).seek =
      (e.pos - (matchLengths old new e).2) - (e.lastpos + (matchLengths old new e).1) := rfl
  have hlast : (emit old new e).lastpos = e.pos - (matchLengths old new e).2 := rfl
  simp only [InRange, hnext, hdiff, hseek, hlast]
  omega

/-- Emitting a triple keeps the invariant; at the end of the new file the last
triple is not empty. -/
theorem emit_inv {old new : Bytes} {e : Encoder} {segs : List Segment}
    (h : e.Ready old new) (hlen0 : 0 ≤ e.len)
    (hlen : e.scan < new.length → e.scan + e.len ≤ new.length)
    (hmore : e.lastscan < new.length) (hctrl : e.ctrl = segs.flatMap ctrlBytes)
    (hdb : e.db = segs.flatMap Segment.diff) (heb : e.eb = segs.flatMap Segment.extra)
    (hreplay : replay old 0 segs = new.take e.lastscan.toNat) (hcur : cursor 0 segs = e.lastpos)
    (hrange : InRange (2 ^ 31) 0 segs) (hold : old.length < 2 ^ 31) :
    (emit old new e).Inv old new (segs ++ [emitted old new e]) := by
  obtain ⟨hc, hd, hx⟩ := emit_streams h
  obtain ⟨hout, hnext⟩ := emitted_replay h
  obtain ⟨hf0, hb0, hdis, hfo, hbo, hend⟩ := matchLengths_ok h
  have hready := h
  obtain ⟨hscan, hls0, hls, hp0, hp, hlp0, hlp⟩ := h
  have hlast : (emit old new e).lastscan = e.scan - (matchLengths old new e).2 := rfl
  have hlastp : (emit old new e).lastpos = e.pos - (matchLengths old new e).2 := rfl
  constructor
  · exact ⟨hscan, by rw [hlast]; omega, by rw [hlast]; exact Int.sub_le_self _ hb0, hp0, hp,
      by rw [hlastp]; omega, by rw [hlastp]; omega⟩
  · exact hls0.trans hls
  · exact hlen0
  · exact hlen
  · intro hfin
    have hb : (matchLengths old new e).2 = 0 := hend hfin
    have hfin' : e.scan = new.length := hfin
    refine ⟨by rw [hlast, hb, hfin']; simp, ?_⟩
    intro s hs
    obtain rfl : emitted old new e = s := by simpa using hs
    have hsize := congrArg List.length hout
    rw [output_length, slice_length_of_le (by rw [hlast]; omega), hlast, hb] at hsize
    omega
  · rw [hc, hctrl]; simp
  · rw [hd, hdb]; simp
  · rw [hx, heb]; simp
  · rw [replay_append, hreplay, hcur]
    simp only [replay, List.append_nil]
    rw [hout, take_append_slice]
    congr 1
    rw [hlast]
    omega
  · rw [cursor_append, hcur]
    exact hnext
  · exact hrange.append (by rw [hcur]; exact emitted_inRange hready hold)

/-- One turn of the outer loop keeps the invariant and moves `scan + len`
forward, unless it ends the loop. -/
theorem encodeStep_inv {I : List Nat} {old new : Bytes} (hI : ∀ i, I.getD i 0 ≤ old.length)
    (hold : old.length < 2 ^ 31) {e : Encoder} {segs : List Segment} (h : e.Inv old new segs)
    (hscan : e.scan < new.length) :
    (∃ segs', (encodeStep I old new e).Inv old new segs') ∧
    ((encodeStep I old new e).scan = new.length ∨
      e.scan + e.len < (encodeStep I old new e).scan + (encodeStep I old new e).len) := by
  obtain ⟨⟨-, hls0, hls, hp0, hp, hlp0, hlp⟩, hs0, hl0, hl, -, hctrl, hdb, heb, hreplay, hcur,
    hrange⟩ := h
  have hl := hl hscan
  have hturns : e.scan + e.len + ((new.length - (e.scan + e.len)).toNat : Int) = new.length := by
    omega
  have hr := scanLoop_ok new hI e.lastoffset (new.length - (e.scan + e.len)).toNat
    (e.scan + e.len) (e.scan + e.len) e.pos e.len 0 (by omega) hturns hp0 hp hl0
  have hprog := scanLoop_progress new hI e.lastoffset e.pos e.len (by omega) hturns
  unfold encodeStep
  generalize scanLoop I old new e.lastoffset (new.length - (e.scan + e.len)).toNat
    ⟨e.scan + e.len, e.scan + e.len, e.pos, e.len, 0⟩ = r at hr hprog ⊢
  obtain ⟨hge, hle, hrp0, hrp, hrl0, hrl⟩ := hr
  have hready : Encoder.Ready old new { e with scan := r.scan, pos := r.pos, len := r.len } :=
    ⟨hle, hls0, by simp only; omega, hrp0, hrp, hlp0, hlp⟩
  have hmove : r.scan = new.length ∨ e.scan + e.len < r.scan + r.len := by
    rcases hprog with h | h | h
    · exact Or.inl h
    · exact Or.inr (by omega)
    · exact Or.inr (by omega)
  simp only
  split
  · exact ⟨⟨_, emit_inv hready hrl0 hrl (by simp only; omega) hctrl hdb heb hreplay hcur hrange
      hold⟩, hmove⟩
  · rename_i hstay
    have hne : r.scan ≠ new.length := fun h => hstay (Or.inr h)
    refine ⟨⟨segs, ?_⟩, hmove⟩
    exact ⟨hready, by simp only; omega, hrl0, hrl, fun h => absurd h hne, hctrl, hdb, heb, hreplay,
      hcur, hrange⟩

/-- The outer loop terminates: `scan + len` grows in every turn and never
passes the end of the new file. -/
theorem encodeLoop_inv {I : List Nat} {old new : Bytes} (hI : ∀ i, I.getD i 0 ≤ old.length)
    (hold : old.length < 2 ^ 31) (fuel : Nat) :
    ∀ (e : Encoder) (segs : List Segment), e.Inv old new segs →
      (e.scan < new.length → new.length - (e.scan + e.len) < (fuel : Int)) →
      ∃ e' segs', encodeLoop I old new fuel e = .done e' ∧ e'.Inv old new segs' ∧
        e'.scan = new.length := by
  induction fuel with
  | zero =>
    intro e segs h hfuel
    have hdone : ¬ e.scan < new.length := fun hlt => by
      have := hfuel hlt
      have := h.len_le hlt
      omega
    have := h.scan_le
    exact ⟨e, segs, by unfold encodeLoop; rw [if_neg hdone], h, by omega⟩
  | succ fuel ih =>
    intro e segs h hfuel
    by_cases hscan : e.scan < new.length
    · obtain ⟨⟨segs₁, h₁⟩, hmove⟩ := encodeStep_inv hI hold h hscan
      have := hfuel hscan
      obtain ⟨e', segs', hrun, h', hfin⟩ := ih _ segs₁ h₁ (fun hlt => by omega)
      refine ⟨e', segs', ?_, h', hfin⟩
      unfold encodeLoop
      rw [if_pos hscan]
      exact hrun
    · have := h.scan_le
      exact ⟨e, segs, by unfold encodeLoop; rw [if_neg hscan], h, by omega⟩

/-- More fuel does not change the result of the loop. -/
theorem encodeLoop_fuel_mono {I : List Nat} {old new : Bytes} {fuel fuel' : Nat}
    (hle : fuel ≤ fuel') {e e' : Encoder} (h : encodeLoop I old new fuel e = .done e') :
    encodeLoop I old new fuel' e = .done e' := by
  induction fuel generalizing fuel' e with
  | zero =>
    unfold encodeLoop at h ⊢
    split at h
    · cases h
    · rename_i hdone
      rw [if_neg hdone]
      exact h
  | succ fuel ih =>
    obtain ⟨fuel', rfl⟩ : ∃ k, fuel' = k + 1 := ⟨fuel' - 1, by omega⟩
    unfold encodeLoop at h ⊢
    split at h
    · rename_i hgo
      rw [if_pos hgo]
      exact ih (by omega) h
    · rename_i hdone
      rw [if_neg hdone]
      exact h

/-! ## The round trip -/

/-- A permutation of `0..|old|` points into the old file or to its end. -/
theorem getD_le_of_perm {I : List Nat} {n : Nat} (hI : I.Perm (List.range (n + 1))) (i : Nat) :
    I.getD i 0 ≤ n := by
  rw [List.getD_eq_getElem?_getD]
  cases hi : I[i]? with
  | none => simp
  | some x =>
    have hx : x ∈ List.range (n + 1) := hI.mem_iff.mp (List.mem_of_getElem? hi)
    rw [Option.getD_some]
    exact Nat.lt_succ_iff.mp (List.mem_range.mp hx)

/-- The patch file that `bsdiff` leaves when the loop ends in state `e`: the
final header overwrites the first one. -/
theorem bsdiff_file {bz : Bz2} {fuel : Nat} {I : List Nat} {old new : Bytes} {e : Encoder}
    (h : encodeLoop I old new fuel ⟨0, 0, 0, 0, 0, 0, [], [], []⟩ = .done e) :
    bsdiff bz fuel I old new = .done (BSDIFF40 ++ offtout (bz.compress e.ctrl).length ++
      offtout (bz.compress e.db).length ++ offtout new.length ++ bz.compress e.ctrl ++
      bz.compress e.db ++ bz.compress e.eb) := by
  have hlen : ∀ x y z : Int,
      (BSDIFF40 ++ offtout x ++ offtout y ++ offtout z).length = 32 := by
    intro x y z
    simp [BSDIFF40]
  set head := BSDIFF40 ++ offtout 0 ++ offtout 0 ++ offtout new.length with hhead
  have h0 : head.length = 32 := hlen 0 0 new.length
  have hstart : PlainFile.fwrite ⟨[], 0⟩ head = ⟨head, head.length⟩ := by
    simpa using PlainFile.fwrite_end [] head
  have hX : ((head ++ bz.compress e.ctrl).length : Int) - 32 = (bz.compress e.ctrl).length := by
    rw [List.length_append, h0]
    omega
  have hY : ((head ++ bz.compress e.ctrl ++ bz.compress e.db).length : Int) -
      (head ++ bz.compress e.ctrl).length = (bz.compress e.db).length := by
    rw [List.length_append]
    omega
  simp only [bsdiff, ← hhead, h, Outcome.done_bind, hstart, PlainFile.fwrite_end,
    PlainFile.rewind]
  rw [hX, hY, List.append_assoc, List.append_assoc, PlainFile.fwrite_start _ _ _ (by rw [hlen, h0])]
  simp only [List.append_assoc]

/-- `bsdiff` terminates on every pair of files, with any permutation `I`, and
its patch file is the one of a script that replays to the new file. -/
theorem bsdiff_script (bz : Bz2) {I : List Nat} {old : Bytes} (new : Bytes)
    (hI : I.Perm (List.range (old.length + 1))) (hold : old.length < 2 ^ 31) :
    ∃ segs, (∀ fuel, new.length < fuel → bsdiff bz fuel I old new = .done (patchFile bz segs)) ∧
      replay old 0 segs = new ∧ EndsInOutput segs ∧ InRange (2 ^ 31) 0 segs := by
  obtain ⟨e, segs, hrun, hinv, hscan⟩ := encodeLoop_inv (getD_le_of_perm hI) hold (new.length + 1)
    _ [] (Encoder.inv_init old new) (fun _ => by simp only; omega)
  obtain ⟨hlast, hends⟩ := hinv.complete hscan
  have hreplay : replay old 0 segs = new := by
    rw [hinv.replay_eq, hlast, Int.toNat_natCast, List.take_length]
  have hsize : size segs = new.length := by
    rw [← replay_length old segs 0, hreplay]
  refine ⟨segs, ?_, hreplay, hends, hinv.inRange⟩
  intro fuel hfuel
  rw [bsdiff_file (encodeLoop_fuel_mono hfuel hrun), patchFile, hinv.ctrl_eq, hinv.db_eq,
    hinv.eb_eq, hsize]

/-- The control triples of a patch: they are what the control block encodes,
their diff and extra lengths are not negative and add up to the lengths of the
diff and extra blocks, the new file is complete after the last triple and not
before, and the header gives the lengths of the first two streams. -/
structure PatchLayout (bz : Bz2) (patch new : Bytes) (triples : List (Int × Int × Int))
    (ctrl diff extra : Bytes) : Prop where
  file : patch = BSDIFF40 ++ offtout (bz.compress ctrl).length ++
    offtout (bz.compress diff).length ++ offtout new.length ++ bz.compress ctrl ++
    bz.compress diff ++ bz.compress extra
  ctrl_eq : ctrl = triples.flatMap fun t => offtout t.1 ++ offtout t.2.1 ++ offtout t.2.2
  nonneg : ∀ t ∈ triples, 0 ≤ t.1 ∧ 0 ≤ t.2.1
  diff_length : (triples.map fun t => t.1).sum = diff.length
  extra_length : (triples.map fun t => t.2.1).sum = extra.length
  total : (triples.map fun t => t.1 + t.2.1).sum = new.length
  not_before : ∀ k < triples.length, ((triples.take k).map fun t => t.1 + t.2.1).sum < new.length

/-- The triple of a segment. -/
def triple (s : Segment) : Int × Int × Int := (s.diff.length, s.extra.length, s.seek)

theorem sum_triple_size (segs : List Segment) :
    ((segs.map triple).map fun t => t.1 + t.2.1).sum = (size segs : Int) := by
  induction segs with
  | nil => rfl
  | cons s segs ih =>
    rw [List.map_cons, List.map_cons, List.sum_cons, ih, size_cons]
    simp only [triple, Segment.size]
    omega

/-- A script that ends in output is not complete before its last segment. -/
theorem size_take_lt {segs : List Segment} (h : EndsInOutput segs) {k : Nat}
    (hk : k < segs.length) : size (segs.take k) < size segs := by
  have hdrop : EndsInOutput (segs.drop k) := by
    intro s hs
    refine h s ?_
    rw [List.getLast?_drop, if_neg (by omega)] at hs
    exact hs
  obtain ⟨s, rest, hsplit⟩ : ∃ s rest, segs.drop k = s :: rest := by
    cases hd : segs.drop k with
    | nil => exact absurd (List.drop_eq_nil_iff.mp hd) (by omega)
    | cons s rest => exact ⟨s, rest, rfl⟩
  rw [hsplit] at hdrop
  have hpos := hdrop.size_pos
  have hsum : size segs = size (segs.take k) + size (segs.drop k) := by
    rw [← size_append, List.take_append_drop]
  rw [hsum, hsplit]
  omega

theorem patchFile_layout (bz : Bz2) {segs : List Segment} {new : Bytes}
    (hsize : size segs = new.length) (hends : EndsInOutput segs) :
    PatchLayout bz (patchFile bz segs) new (segs.map triple) (segs.flatMap ctrlBytes)
      (segs.flatMap Segment.diff) (segs.flatMap Segment.extra) := by
  constructor
  · rw [patchFile, hsize]
  · rw [List.flatMap_map]
    rfl
  · intro t ht
    obtain ⟨s, -, rfl⟩ := List.mem_map.mp ht
    exact ⟨Int.natCast_nonneg _, Int.natCast_nonneg _⟩
  · rw [List.length_flatMap, List.map_map, Nat.cast_list_sum, List.map_map]
    rfl
  · rw [List.length_flatMap, List.map_map, Nat.cast_list_sum, List.map_map]
    rfl
  · rw [sum_triple_size, hsize]
  · intro k hk
    rw [List.length_map] at hk
    have := size_take_lt hends hk
    rw [← List.map_take, sum_triple_size]
    omega

/-- The bsdiff round trip. For every old and new file and every permutation
`I` of `0..|old|`, `bsdiff` terminates with one patch file, which has the
layout of `PatchLayout`. Applied to the old file it gives the new file back,
and the loop of `ApplyBSDiffPatchMem` ends with nothing left in any of the
three streams. -/
theorem bsdiff_roundtrip {bz : Bz2} {pending : bz.Stream → Bytes → Prop}
    (hbz : bz.Inverts pending) {I : List Nat} {old new : Bytes}
    (hI : I.Perm (List.range (old.length + 1))) (hold : old.length < SSIZE_LIMIT)
    (hnew : new.length < SSIZE_LIMIT) :
    ∃ patch, (∀ fuel, new.length < fuel → bsdiff bz fuel I old new = .done patch) ∧
      (∃ triples ctrl diff extra, PatchLayout bz patch new triples ctrl diff extra) ∧
      (patch.length < SSIZE_LIMIT → ∃ enough, ∀ fuel, enough ≤ fuel →
        applyBSDiffPatchMem bz fuel (.ofBytes old) patch 0 = .done (some new) ∧
        ∃ s s', openPatch bz patch 0 = .done (some ((new.length : Int), s)) ∧
          patchLoop bz fuel (.ofBytes old) new.length fuel s = .done (some s') ∧
          pending s'.cstream [] ∧ pending s'.dstream [] ∧ pending s'.estream []) := by
  obtain ⟨segs, hrun, hreplay, hends, hrange⟩ := bsdiff_script bz new hI hold
  have hsize : size segs = new.length := by
    rw [← replay_length old segs 0, hreplay]
  have hnew' : size segs < 2 ^ 31 := by rw [hsize]; exact hnew
  refine ⟨patchFile bz segs, hrun, ⟨_, _, _, _, patchFile_layout bz hsize hends⟩, ?_⟩
  intro hpatch
  have hpatch' : ([] ++ patchFile bz segs ++ []).length < 2 ^ 31 := by
    simpa [SSIZE_LIMIT] using hpatch
  refine ⟨24 + size segs + segs.length, fun fuel hfuel => ⟨?_, ?_⟩⟩
  · have h := applyBSDiffPatchMem_of_layout hbz old 0 old.length (by omega)
      hpatch' hnew' hends hrange hfuel
    rw [slice_zero_length, hreplay] at h
    simpa [OldData.ofBytes] using h
  · obtain ⟨s, hopen, hdata, hcur, hs⟩ := openPatch_of_layout hbz hpatch' hnew'
    obtain ⟨s', hloop, -, hs'⟩ := patchLoop_replay hbz old 0 old.length (by omega)
      hnew' fuel (by omega) segs fuel s hs hends (by simp [hdata])
      (by rw [hcur]; exact hrange) (by omega)
    refine ⟨s, s', ?_, ?_, hs'.ctrl, hs'.diff, hs'.extra⟩
    · rw [← hsize]
      simpa using hopen
    · rw [← hsize]
      simpa [OldData.ofBytes] using hloop

/-- What bzip2 at its highest level makes of nothing, of the letter A, and of
the control block of a patch that inserts one byte. -/
def bzTable : CodeTable where
  entries := [
    ([], [0x42, 0x5a, 0x68, 0x39, 0x17, 0x72, 0x45, 0x38, 0x50, 0x90, 0x00, 0x00, 0x00, 0x00]),
    ([0x41], [0x42, 0x5a, 0x68, 0x39, 0x31, 0x41, 0x59, 0x26, 0x53, 0x59, 0x81, 0xb0, 0x2d, 0x8b,
      0x00, 0x00, 0x00, 0x04, 0x00, 0x20, 0x00, 0x20, 0x00, 0x21, 0x18, 0x46, 0x82, 0xee,
      0x48, 0xa7, 0x0a, 0x12, 0x10, 0x36, 0x05, 0xb1, 0x60]),
    (offtout 0 ++ offtout 1 ++ offtout 0, [
      0x42, 0x5a, 0x68, 0x39, 0x31, 0x41, 0x59, 0x26, 0x53, 0x59, 0x2b, 0xe4, 0x3c, 0xff,
      0x00, 0x00, 0x00, 0x40, 0x00, 0x64, 0x08, 0x20, 0x00, 0x21, 0x8c, 0x83, 0x34, 0xd1,
      0x09, 0x5d, 0x38, 0xbb, 0x92, 0x29, 0xc2, 0x84, 0x81, 0x5f, 0x21, 0xe7, 0xf8])]
  marked := by
    intro e he
    simp only [List.mem_cons, List.not_mem_nil, or_false] at he
    rcases he with rfl | rfl | rfl
    · exact ⟨_, _, rfl, by decide⟩
    · exact ⟨_, _, rfl, by decide⟩
    · exact ⟨_, _, rfl, by decide⟩
  prefixFree := by decide

theorem bsdiff_roundtrip_insert :
    ∃ patch, (∀ fuel, 1 < fuel → bsdiff (.ofTable bzTable) fuel [0] [] [0x41] = .done patch) ∧
      (∃ triples ctrl diff extra,
        PatchLayout (.ofTable bzTable) patch [0x41] triples ctrl diff extra) ∧
      (patch.length < SSIZE_LIMIT → ∃ enough, ∀ fuel, enough ≤ fuel →
        applyBSDiffPatchMem (.ofTable bzTable) fuel (.ofBytes []) patch 0 =
            .done (some [0x41]) ∧
        ∃ s s', openPatch (.ofTable bzTable) patch 0 = .done (some (1, s)) ∧
          patchLoop (.ofTable bzTable) fuel (.ofBytes []) 1 fuel s = .done (some s') ∧
          s'.cstream = some [] ∧ s'.dstream = some [] ∧ s'.estream = some []) :=
  @bsdiff_roundtrip _ _ (Bz2.ofTable_inverts bzTable) [0] [] [0x41]
    (by decide) (by decide) (by decide)

end BootableRecovery.Applypatch
