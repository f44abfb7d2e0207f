import BootableRecovery.Lib.CodeTable
import BootableRecovery.Lib.EditScript

/-!
# `applypatch/bspatch.c`: applying a BSDIFF40 patch in memory

A BSDIFF40 patch is a 32-byte header and three bzip2 streams:

    0       8       "BSDIFF40"
    8       8       X
    16      8       Y
    24      8       size of the new file
    32      X       bzip2 of the control block
    32+X    Y       bzip2 of the diff block
    32+X+Y  ...     bzip2 of the extra block

The control block is a sequence of triples `(x, y, z)`: add `x` diff bytes to
the old file at the cursor, copy `y` extra bytes, move the cursor by `z`.

The library `libbz2` is a parameter (`Bz2`). `int`, `off_t` and `ssize_t` are
the 32-bit types of the target `libapplypatch` is built for; `SSIZE_LIMIT` is
the first size that they do not hold.

Main results:
* `offtin_offtout`: the header and control numbers survive their encoding.
* `patchLoop_replay`: on streams that deliver the blocks of an edit script,
  the loop writes the new file of the script.
* `applyBSDiffPatchMem_of_layout`: the same for a whole patch file, at any
  offset and with any bytes after it.
-/

namespace BootableRecovery.Applypatch
open EditScript

/-- The first size that an `ssize_t` of the target does not hold. -/
def SSIZE_LIMIT : Nat := 2 ^ 31

/-! ## libbz2 -/

/-- The return value of `BZ2_bzDecompress`. -/
inductive BzStatus where
  | ok
  | streamEnd
  | error (code : Int)
  deriving DecidableEq, Repr

/-- The part of `libbz2` the code uses. `compress` is what
`BZ2_bzWriteOpen`/`BZ2_bzWrite`/`BZ2_bzWriteClose` append to the file for the
bytes written. `decompressInit mem next_in avail_in` opens a stream on memory,
and `decompress strm avail_out` is one call of `BZ2_bzDecompress`: its status,
the bytes it puts at `next_out`, and the stream afterwards. -/
structure Bz2 where
  Stream : Type
  compress : Bytes → Bytes
  decompressInit : Bytes → Int → Nat → Stream
  decompress : Stream → Nat → BzStatus × Bytes × Stream

/-- `libbz2` decompression inverts compression. `pending strm d` says that
`strm` still has the bytes `d` to deliver. A stream opened on a compressed
block, with anything after the block, has the whole block to deliver; a call
with room for some of the pending bytes delivers a non-empty part of them. -/
structure Bz2.Inverts (bz : Bz2) (pending : bz.Stream → Bytes → Prop) : Prop where
  opened : ∀ (mem : Bytes) (i n : Nat) (d rest : Bytes),
    slice mem i n = bz.compress d ++ rest → pending (bz.decompressInit mem i n) d
  step : ∀ (strm : bz.Stream) (d : Bytes) (room : Nat),
    pending strm d → 0 < room → room ≤ d.length →
    ∃ status out strm', bz.decompress strm room = (status, out, strm') ∧
      (status = .ok ∨ status = .streamEnd) ∧ 0 < out.length ∧ out.length ≤ room ∧
      out = d.take out.length ∧ pending strm' (d.drop out.length)

/-- `libbz2` with the codes of a table. A stream is the data that is left, or
`none` when the input is not a code. -/
def Bz2.ofTable (t : CodeTable) : Bz2 where
  Stream := Option Bytes
  compress := t.encode
  decompressInit mem next_in avail_in :=
    (t.decode (slice mem next_in.toNat avail_in)).map Prod.fst
  decompress
    | none, _ => (.error (-5), [], none)
    | some d, room =>
      (if d.length ≤ room then .streamEnd else .ok, d.take room, some (d.drop room))

theorem Bz2.ofTable_inverts (t : CodeTable) :
    (Bz2.ofTable t).Inverts fun strm d => strm = some d := by
  constructor
  · intro mem i n d rest h
    have hcode : slice mem i n = t.encode d ++ rest := h
    simp [Bz2.ofTable, hcode, t.decode_encode]
  · rintro _ d room rfl hpos hle
    refine ⟨_, _, _, rfl, ?_, ?_, ?_, ?_, ?_⟩
    · split
      · exact .inr rfl
      · exact .inl rfl
    · rw [List.length_take]
      omega
    · rw [List.length_take]
      omega
    · simp
    · rw [List.length_take, Nat.min_eq_left hle]

/-! ## Sign-and-magnitude numbers -/

/-- `offtin`: an 8-byte number, sign in the top bit of the last byte. -/
def offtin (buf : Bytes) : Int :=
  let y : Int := leNat (buf.take 7) + 256 ^ 7 * ((buf[7]?).getD 0 &&& 0x7F).toNat
  if (buf[7]?).getD 0 &&& 0x80 ≠ 0 then -y else y

/-- `offtout` of `bsdiff.c`, the inverse of `offtin`. -/
def offtout (x : Int) : Bytes :=
  let y := x.natAbs
  let hi := UInt8.ofNat (y / 256 ^ 7 % 256)
  leBytes 7 y ++ [if x < 0 then hi ||| 0x80 else hi]

@[simp] theorem offtout_length (x : Int) : (offtout x).length = 8 := by
  simp [offtout]

/-- A number below `2 ^ 55` in magnitude is read back as it was written. -/
theorem offtin_offtout {x : Int} (h : x.natAbs < 2 ^ 55) : offtin (offtout x) = x := by
  have hdiv : x.natAbs / 256 ^ 7 = 0 := Nat.div_eq_of_lt (lt_of_lt_of_le h (by norm_num))
  have hmag : leNat (leBytes 7 x.natAbs) = x.natAbs :=
    leNat_leBytes_of_lt (lt_of_lt_of_le h (by norm_num))
  have htake : ∀ b, (leBytes 7 x.natAbs ++ [b]).take 7 = leBytes 7 x.natAbs := by
    intro b
    rw [List.take_left' (by simp)]
  have hlast : ∀ b, ((leBytes 7 x.natAbs ++ [b])[7]?).getD 0 = b := by
    intro b
    rw [List.getElem?_append_right (by simp)]
    simp
  have hhi : UInt8.ofNat (x.natAbs / 256 ^ 7 % 256) = 0 := by
    rw [hdiv]
    rfl
  simp only [offtin, offtout, htake, hlast, hmag, hhi]
  by_cases hx : x < 0
  · have hlow : ((0 ||| 0x80 : UInt8) &&& 0x7F).toNat = 0 := by decide
    have hsign : (0 ||| 0x80 : UInt8) &&& 0x80 ≠ 0 := by decide
    rw [if_pos hx, hlow, if_pos hsign]
    omega
  · have hlow : ((0 : UInt8) &&& 0x7F).toNat = 0 := by decide
    have hsign : ¬ ((0 : UInt8) &&& 0x80 ≠ 0) := by decide
    rw [if_neg hx, hlow, if_neg hsign]
    omega

/-! ## `FillBuffer` -/

/-- The loop of `FillBuffer`: `avail` bytes are still wanted and `acc` is what
was written to the buffer so far. The buffer has `room` bytes; a write past
its end is a fault. -/
def fillLoop (bz : Bz2) (room : Nat) : Nat → Nat → Bytes → bz.Stream →
    Outcome (Option (Bytes × bz.Stream))
  | _, 0, acc, strm => .done (some (acc, strm))
  | 0, _ + 1, _, _ => .spin
  | fuel + 1, avail + 1, acc, strm =>
    let (status, out, strm') := bz.decompress strm (avail + 1)
    if room < acc.length + out.length then .fault
    else match status with
      | .error _ => .done none
      | _ => fillLoop bz room fuel (avail + 1 - out.length) (acc ++ out) strm'

/-- `FillBuffer(buffer, size, stream)` on a buffer of `room` bytes: the bytes
read, or `none` when it returns -1. `size` is an `int` that is stored in the
unsigned `avail_out`. -/
def fillBuffer (bz : Bz2) (fuel room : Nat) (size : Int) (strm : bz.Stream) :
    Outcome (Option (Bytes × bz.Stream)) :=
  fillLoop bz room fuel (toU32 size) [] strm

/-! ## `ApplyBSDiffPatchMem` -/

/-- The old file: `size` bytes that start at offset `start` of `mem`. -/
structure OldData where
  mem : Bytes
  start : Int
  size : Int
  deriving DecidableEq, Repr

/-- A byte string as the old file. -/
def OldData.ofBytes (old : Bytes) : OldData := ⟨old, 0, old.length⟩

/-- One byte of the diff string plus the old byte at `pos`, which is read only
when `0 ≤ pos < old_size`. -/
def addOldByte (old : OldData) (pos : Int) (b : UInt8) : Outcome UInt8 :=
  if 0 ≤ pos ∧ pos < old.size then
    match byteAt old.mem (old.start + pos) with
    | some o => .done (b + o)
    | none => .fault
  else .done b

/-- Add old data to the diff string. -/
def addOldData (old : OldData) (oldpos : Int) : Bytes → Outcome Bytes
  | [] => .done []
  | b :: diff => do
    let b' ← addOldByte old oldpos b
    let rest ← addOldData old (oldpos + 1) diff
    .done (b' :: rest)

/-- The variables of the loop: `new_data` up to `newpos`, `oldpos`, and the
control, diff and extra streams. -/
structure PatchState (bz : Bz2) where
  newData : Bytes
  oldpos : Int
  cstream : bz.Stream
  dstream : bz.Stream
  estream : bz.Stream

/-- One turn of the loop: read a control triple, its diff and extra strings,
and move the cursors. `none` is the return value 1. -/
def patchStep (bz : Bz2) (fuel : Nat) (old : OldData) (new_size : Int) (s : PatchState bz) :
    Outcome (Option (PatchState bz)) := do
  let newpos : Int := s.newData.length
  let some (buf, cstream) ← fillBuffer bz fuel 24 24 s.cstream | .done none
  let ctrl0 := wrap32 (offtin (buf.take 8))
  let ctrl1 := wrap32 (offtin (slice buf 8 8))
  let ctrl2 := wrap32 (offtin (slice buf 16 8))
  if wrap32 (newpos + ctrl0) > new_size then .done none
  else
    let some (diff, dstream) ← fillBuffer bz fuel (new_size - newpos).toNat ctrl0 s.dstream
      | .done none
    let added ← addOldData old s.oldpos diff
    let newpos := wrap32 (newpos + ctrl0)
    let oldpos := wrap32 (s.oldpos + ctrl0)
    if wrap32 (newpos + ctrl1) > new_size then .done none
    else
      let some (extra, estream) ← fillBuffer bz fuel (new_size - newpos).toNat ctrl1 s.estream
        | .done none
      .done (some ⟨s.newData ++ added ++ extra, wrap32 (oldpos + ctrl2), cstream, dstream, estream⟩)

/-- `while (newpos < *new_size)`. -/
def patchLoop (bz : Bz2) (fillFuel : Nat) (old : OldData) (new_size : Int) :
    Nat → PatchState bz → Outcome (Option (PatchState bz))
  | fuel, s =>
    if (s.newData.length : Int) < new_size then
      match fuel with
      | 0 => .spin
      | fuel + 1 => do
        let some s' ← patchStep bz fillFuel old new_size s | .done none
        patchLoop bz fillFuel old new_size fuel s'
    else .done (some s)

/-- The magic number of a patch. -/
def BSDIFF40 : Bytes := [0x42, 0x53, 0x44, 0x49, 0x46, 0x46, 0x34, 0x30]

/-- The header checks and the three `BZ2_bzDecompressInit` calls: `*new_size`
and the state the loop starts in, or `none` when the header is refused. -/
def openPatch (bz : Bz2) (patch : Bytes) (patch_offset : Int) :
    Outcome (Option (Int × PatchState bz)) := do
  let magic ← load patch patch_offset 8
  if magic ≠ BSDIFF40 then .done none
  else
    let ctrl_len := wrap32 (offtin (← load patch (patch_offset + 8) 8))
    let data_len := wrap32 (offtin (← load patch (patch_offset + 16) 8))
    let new_size := wrap32 (offtin (← load patch (patch_offset + 24) 8))
    if ctrl_len < 0 ∨ data_len < 0 ∨ new_size < 0 then .done none
    else
      let cstart := patch_offset + 32
      let dstart := patch_offset + 32 + ctrl_len
      let estart := patch_offset + 32 + ctrl_len + data_len
      .done (some (new_size,
        ⟨[], 0, bz.decompressInit patch cstart ctrl_len.toNat,
          bz.decompressInit patch dstart data_len.toNat,
          bz.decompressInit patch estart (toU32 (patch.length - estart))⟩))

/-- `ApplyBSDiffPatchMem(old_data, old_size, patch, patch_offset, ...)`: the
new data, or `none` when it returns 1. -/
def applyBSDiffPatchMem (bz : Bz2) (fuel : Nat) (old : OldData) (patch : Bytes)
    (patch_offset : Int) : Outcome (Option Bytes) := do
  let some (new_size, s) ← openPatch bz patch patch_offset | .done none
  let some s' ← patchLoop bz fuel old new_size fuel s | .done none
  .done (some s'.newData)

/-! ## Specifications -/

section Specs

variable {bz : Bz2} {pending : bz.Stream → Bytes → Prop}

/-- The loop of `FillBuffer` delivers the next `avail` pending bytes. Every
call makes progress, so `avail` turns are enough. -/
theorem fillLoop_spec (hbz : bz.Inverts pending) (room : Nat) :
    ∀ (fuel avail : Nat) (acc d : Bytes) (strm : bz.Stream), pending strm d →
      avail ≤ d.length → acc.length + avail ≤ room → avail ≤ fuel →
      ∃ strm', fillLoop bz room fuel avail acc strm = .done (some (acc ++ d.take avail, strm')) ∧
        pending strm' (d.drop avail) := by
  intro fuel
  induction fuel with
  | zero =>
    intro avail acc d strm hp _ _ hf
    obtain rfl : avail = 0 := by omega
    exact ⟨strm, by simp [fillLoop], by simpa using hp⟩
  | succ fuel ih =>
    intro avail acc d strm hp hd hr hf
    cases avail with
    | zero => exact ⟨strm, by simp [fillLoop], by simpa using hp⟩
    | succ avail =>
      obtain ⟨status, out, strm₁, hcall, hstatus, hpos, hle, hout, hp₁⟩ :=
        hbz.step strm d (avail + 1) hp (by omega) hd
      have hlen : out.length ≤ d.length := by omega
      obtain ⟨strm', hrun, hp'⟩ := ih (avail + 1 - out.length) (acc ++ out) (d.drop out.length)
        strm₁ hp₁ (by simp; omega) (by simp; omega) (by omega)
      have hroom : ¬ room < acc.length + out.length := by omega
      refine ⟨strm', ?_, ?_⟩
      · have hsplit : out ++ (d.drop out.length).take (avail + 1 - out.length) =
            d.take (avail + 1) := by
          have hsum : avail + 1 = out.length + (avail + 1 - out.length) := by omega
          rw [hsum, List.take_add, ← hout]
          simp
        rw [List.append_assoc, hsplit] at hrun
        rcases hstatus with rfl | rfl
        · simp only [fillLoop, hcall, if_neg hroom, hrun]
        · simp only [fillLoop, hcall, if_neg hroom, hrun]
      · rwa [List.drop_drop, show out.length + (avail + 1 - out.length) = avail + 1 by omega] at hp'

/-- `FillBuffer` of `n` bytes, when the stream still has `a ++ rest` to
deliver and `a` has `n` bytes. -/
theorem fillBuffer_spec (hbz : bz.Inverts pending) (fuel room : Nat) {a rest : Bytes}
    {strm : bz.Stream} (hp : pending strm (a ++ rest)) (hsize : a.length < 2 ^ 31)
    (hroom : a.length ≤ room) (hfuel : a.length ≤ fuel) :
    ∃ strm', fillBuffer bz fuel room a.length strm = .done (some (a, strm')) ∧
      pending strm' rest := by
  obtain ⟨strm', hrun, hp'⟩ := fillLoop_spec hbz room fuel a.length [] (a ++ rest) strm hp
    (by simp) (by simpa using hroom) hfuel
  refine ⟨strm', ?_, by simpa using hp'⟩
  rw [fillBuffer, toU32_of_range (by omega), hrun]
  simp

theorem addOldByte_eq {mem : Bytes} {start n : Nat} (h : start + n ≤ mem.length) (p : Int)
    (b : UInt8) :
    addOldByte ⟨mem, start, n⟩ p b = .done (b + (byteAt (slice mem start n) p).getD 0) := by
  unfold addOldByte
  by_cases hp : 0 ≤ p ∧ p < (n : Int)
  · obtain ⟨k, rfl⟩ : ∃ k : Nat, p = k := ⟨p.toNat, by omega⟩
    have hk : k < n := by omega
    have hmem : start + k < mem.length := by omega
    rw [if_pos hp, ← Int.natCast_add, byteAt_ofNat, byteAt_ofNat, slice_getElem? _ _ _ _ hk,
      List.getElem?_eq_getElem hmem]
    rfl
  · have hnone : byteAt (slice mem start n) p = none := by
      unfold byteAt
      split
      · rfl
      · have := slice_length_of_le h
        exact List.getElem?_eq_none (by omega)
    rw [if_neg hp, hnone]
    simp

/-- Adding old data never faults inside the old file, and is `addOld` on its
bytes. -/
theorem addOldData_eq {mem : Bytes} {start n : Nat} (h : start + n ≤ mem.length) (diff : Bytes)
    (p : Int) :
    addOldData ⟨mem, start, n⟩ p diff = .done (addOld (slice mem start n) p diff) := by
  induction diff generalizing p with
  | nil => rfl
  | cons b diff ih =>
    rw [addOldData, addOld_cons, addOldByte_eq h, Outcome.done_bind, ih, Outcome.done_bind]

/-- The control triple of a segment. -/
def ctrlBytes (s : Segment) : Bytes :=
  offtout s.diff.length ++ offtout s.extra.length ++ offtout s.seek

@[simp] theorem ctrlBytes_length (s : Segment) : (ctrlBytes s).length = 24 := by
  simp [ctrlBytes]

/-- The three numbers of a control triple are read back. -/
theorem offtin_ctrlBytes {s : Segment} (hd : s.diff.length < 2 ^ 31) (he : s.extra.length < 2 ^ 31)
    (hs : -2 ^ 31 ≤ s.seek ∧ s.seek < 2 ^ 31) :
    wrap32 (offtin ((ctrlBytes s).take 8)) = s.diff.length ∧
    wrap32 (offtin (slice (ctrlBytes s) 8 8)) = s.extra.length ∧
    wrap32 (offtin (slice (ctrlBytes s) 16 8)) = s.seek := by
  have h0 : (ctrlBytes s).take 8 = offtout s.diff.length := by
    rw [ctrlBytes, List.append_assoc, List.take_left' (by simp)]
  have h1 : slice (ctrlBytes s) 8 8 = offtout s.extra.length := by
    exact slice_of_append (p := offtout s.diff.length) (q := offtout s.seek) (by simp [ctrlBytes])
      (by simp) (by simp)
  have h2 : slice (ctrlBytes s) 16 8 = offtout s.seek := by
    exact slice_of_append (p := offtout s.diff.length ++ offtout s.extra.length) (q := [])
      (by simp [ctrlBytes]) (by simp) (by simp)
  rw [h0, h1, h2, offtin_offtout (by omega), offtin_offtout (by omega), offtin_offtout (by omega)]
  exact ⟨wrap32_of_range (by omega) (by omega), wrap32_of_range (by omega) (by omega),
    wrap32_of_range hs.1 hs.2⟩

/-- The streams of a state deliver the blocks of a script. -/
structure Streams (pending : bz.Stream → Bytes → Prop) (s : PatchState bz)
    (segs : List Segment) : Prop where
  ctrl : pending s.cstream (segs.flatMap ctrlBytes)
  diff : pending s.dstream (segs.flatMap Segment.diff)
  extra : pending s.estream (segs.flatMap Segment.extra)

/-- One turn of the loop replays one segment. -/
theorem patchStep_spec (hbz : bz.Inverts pending) {fuel start n : Nat} {mem : Bytes}
    (hold : start + n ≤ mem.length) {new_size : Nat} {s : PatchState bz} {seg : Segment}
    {rest : List Segment} (hs : Streams pending s (seg :: rest))
    (hsize : s.newData.length + seg.size ≤ new_size) (hnew : new_size < 2 ^ 31)
    (hrange : InRange (2 ^ 31) s.oldpos (seg :: rest)) (hfuel : 24 + new_size ≤ fuel) :
    ∃ s', patchStep bz fuel ⟨mem, start, n⟩ new_size s = .done (some s') ∧
      s'.newData = s.newData ++ seg.output (slice mem start n) s.oldpos ∧
      s'.oldpos = seg.next s.oldpos ∧ Streams pending s' rest := by
  obtain ⟨hp0, hp1, hseek, hrest⟩ := hrange
  have hnext := hrest.start
  rw [Segment.next] at hnext
  simp only [Segment.size] at hsize
  obtain ⟨hc, hd, he⟩ := hs
  simp only [List.flatMap_cons] at hc hd he
  obtain ⟨c', hfill0, hc'⟩ := fillBuffer_spec hbz fuel 24 hc (by simp)
    (by simp) (by simp; omega)
  obtain ⟨d', hfill1, hd'⟩ := fillBuffer_spec hbz fuel
    (new_size - s.newData.length) hd (by omega) (by omega) (by omega)
  obtain ⟨e', hfill2, he'⟩ := fillBuffer_spec hbz fuel
    (new_size - (s.newData.length + seg.diff.length)) he (by omega) (by omega) (by omega)
  have hroom0 : ((new_size : Int) - s.newData.length).toNat = new_size - s.newData.length := by
    omega
  have hroom1 : ((new_size : Int) - (s.newData.length + seg.diff.length)).toNat =
      new_size - (s.newData.length + seg.diff.length) := by omega
  have hfit0 : ¬ ((s.newData.length : Int) + seg.diff.length > new_size) := by omega
  have hfit1 : ¬ ((s.newData.length : Int) + seg.diff.length + seg.extra.length > new_size) := by
    omega
  have hdlen : seg.diff.length < 2 ^ 31 := by omega
  have helen : seg.extra.length < 2 ^ 31 := by omega
  have hlow0 : -2 ^ 31 ≤ (s.newData.length : Int) + seg.diff.length := by omega
  have hlow1 : -2 ^ 31 ≤ (s.newData.length : Int) + seg.diff.length + seg.extra.length := by omega
  have hup0 : (s.newData.length : Int) + seg.diff.length < 2 ^ 31 := by omega
  have hup1 : (s.newData.length : Int) + seg.diff.length + seg.extra.length < 2 ^ 31 := by omega
  have hpos0 := wrap32_of_range hlow0 hup0
  have hpos1 := wrap32_of_range hlow1 hup1
  have hold0 := wrap32_of_range hp1.1 hp1.2
  have hold1 := wrap32_of_range hnext.1 hnext.2
  obtain ⟨h0, h1, h2⟩ := offtin_ctrlBytes hdlen helen hseek
  refine ⟨⟨s.newData ++ addOld (slice mem start n) s.oldpos seg.diff ++ seg.extra,
    s.oldpos + seg.diff.length + seg.seek, c', d', e'⟩, ?_, ?_, rfl, ⟨hc', hd', he'⟩⟩
  · simp only [ctrlBytes_length, Nat.cast_ofNat] at hfill0
    simp only [patchStep, hfill0, Outcome.done_bind, h0, h1, h2, hpos0, hold0, hroom0, hfill1]
    rw [if_neg hfit0, addOldData_eq hold]
    simp only [Outcome.done_bind, hpos1, hroom1, hfill2, hold1]
    rw [if_neg hfit1]
  · simp [Segment.output]

/-- The loop replays a whole script and stops with all three streams empty. -/
theorem patchLoop_replay (hbz : bz.Inverts pending) (mem : Bytes) (start n : Nat)
    (hold : start + n ≤ mem.length) {new_size : Nat} (hnew : new_size < 2 ^ 31) (fillFuel : Nat)
    (hfill : 24 + new_size ≤ fillFuel) (segs : List Segment) :
    ∀ (fuel : Nat) (s : PatchState bz), Streams pending s segs → EndsInOutput segs →
      s.newData.length + size segs = new_size → InRange (2 ^ 31) s.oldpos segs →
      segs.length ≤ fuel →
      ∃ s', patchLoop bz fillFuel ⟨mem, start, n⟩ new_size fuel s = .done (some s') ∧
        s'.newData = s.newData ++ replay (slice mem start n) s.oldpos segs ∧
        Streams pending s' [] := by
  induction segs with
  | nil =>
    intro fuel s hs _ hsize _ _
    have hstop : ¬ (s.newData.length : Int) < new_size := by
      simp only [size_nil] at hsize
      omega
    refine ⟨s, ?_, by simp [replay], hs⟩
    unfold patchLoop
    rw [if_neg hstop]
  | cons seg segs ih =>
    intro fuel s hs hend hsize hrange hfuel
    have hpos := hend.size_pos
    simp only [size_cons] at hpos hsize
    have hgo : (s.newData.length : Int) < new_size := by omega
    obtain ⟨fuel, rfl⟩ : ∃ k, fuel = k + 1 := ⟨fuel - 1, by simp at hfuel; omega⟩
    obtain ⟨s₁, hstep, hdata, hcur, hs₁⟩ :=
      patchStep_spec hbz hold hs (by omega) hnew hrange hfill
    obtain ⟨s', hrun, hdata', hs'⟩ := ih fuel s₁ hs₁ hend.tail
      (by rw [hdata, List.length_append, output_length]; omega)
      (by rw [hcur]; exact hrange.2.2.2) (by simpa using hfuel)
    refine ⟨s', ?_, ?_, hs'⟩
    · unfold patchLoop
      rw [if_pos hgo, hstep]
      exact hrun
    · rw [hdata', hdata, hcur, replay, List.append_assoc]

/-- The patch file with the blocks of a script: header and three streams. -/
def patchFile (bz : Bz2) (segs : List Segment) : Bytes :=
  let cz := bz.compress (segs.flatMap ctrlBytes)
  let dz := bz.compress (segs.flatMap Segment.diff)
  let ez := bz.compress (segs.flatMap Segment.extra)
  BSDIFF40 ++ offtout cz.length ++ offtout dz.length ++ offtout (size segs) ++ cz ++ dz ++ ez

/-- A header number that stands after `p` is read back. -/
theorem load_offtout (patch : Bytes) {p q : Bytes} {i : Int} {x : Nat}
    (h : patch = p ++ (offtout x ++ q))
    (hi : i = p.length) (hx : x < 2 ^ 31) :
    ∃ b, load patch i 8 = .done b ∧ wrap32 (offtin b) = x := by
  refine ⟨offtout x, load_of_append h hi (by simp), ?_⟩
  rw [offtin_offtout (by omega)]
  exact wrap32_of_range (by omega) (by omega)

/-- Opening a patch file that stands at any offset of a blob, with any bytes
after it: the header numbers locate the three blocks of the script. -/
theorem openPatch_of_layout (hbz : bz.Inverts pending) {pre post : Bytes} {segs : List Segment}
    (hsize : (pre ++ patchFile bz segs ++ post).length < 2 ^ 31) (hnew : size segs < 2 ^ 31) :
    ∃ s : PatchState bz,
      openPatch bz (pre ++ patchFile bz segs ++ post) pre.length =
        .done (some ((size segs : Int), s)) ∧
      s.newData = [] ∧ s.oldpos = 0 ∧ Streams pending s segs := by
  set cz := bz.compress (segs.flatMap ctrlBytes) with hcz
  set dz := bz.compress (segs.flatMap Segment.diff) with hdz
  set ez := bz.compress (segs.flatMap Segment.extra) with hez
  set patch := pre ++ patchFile bz segs ++ post with hpatch
  have hfile : patch = pre ++ BSDIFF40 ++ offtout cz.length ++ offtout dz.length ++
      offtout (size segs) ++ cz ++ dz ++ ez ++ post := by
    simp [hpatch, patchFile, hcz, hdz, hez]
  have hlen : patch.length =
      pre.length + 32 + cz.length + dz.length + ez.length + post.length := by
    rw [hfile]
    simp [BSDIFF40]
    omega
  have hmagic : load patch pre.length 8 = .done BSDIFF40 :=
    load_of_append (p := pre) (by rw [hfile]; simp only [List.append_assoc]; rfl) rfl rfl
  -- Where the three streams start, and what they were opened on.
  have hc : slice patch (pre.length + 32) cz.length = cz ++ [] := by
    rw [List.append_nil]
    exact slice_of_append (p := pre ++ BSDIFF40 ++ offtout cz.length ++ offtout dz.length ++
      offtout (size segs)) (by rw [hfile]; simp only [List.append_assoc]; rfl)
      (by simp [BSDIFF40]) rfl
  have hd : slice patch (pre.length + 32 + cz.length) dz.length = dz ++ [] := by
    rw [List.append_nil]
    exact slice_of_append (p := pre ++ BSDIFF40 ++ offtout cz.length ++ offtout dz.length ++
      offtout (size segs) ++ cz) (by rw [hfile]; simp only [List.append_assoc]; rfl)
      (by simp [BSDIFF40]; omega) rfl
  have he : slice patch (pre.length + 32 + cz.length + dz.length)
      (patch.length - (pre.length + 32 + cz.length + dz.length)) = ez ++ post :=
    slice_of_append (p := pre ++ BSDIFF40 ++ offtout cz.length ++ offtout dz.length ++
      offtout (size segs) ++ cz ++ dz) (q := [])
      (by rw [hfile]; simp only [List.append_assoc, List.append_nil])
      (by simp [BSDIFF40]; omega) (by rw [hlen]; simp; omega)
  have hinit : Streams pending
      (⟨[], 0, bz.decompressInit patch ((pre.length + 32 : Nat) : Int) cz.length,
        bz.decompressInit patch ((pre.length + 32 + cz.length : Nat) : Int) dz.length,
        bz.decompressInit patch ((pre.length + 32 + cz.length + dz.length : Nat) : Int)
          (patch.length - (pre.length + 32 + cz.length + dz.length))⟩ : PatchState bz) segs :=
    ⟨hbz.opened _ _ _ _ _ hc, hbz.opened _ _ _ _ _ hd, hbz.opened _ _ _ _ _ he⟩
  have hestart : toU32 ((patch.length : Int) - ((pre.length : Int) + 32 + cz.length + dz.length)) =
      patch.length - (pre.length + 32 + cz.length + dz.length) := by
    have := toU32_of_range (n := patch.length - (pre.length + 32 + cz.length + dz.length)) (by omega)
    rwa [Nat.cast_sub (by omega)] at this
  obtain ⟨b1, hb1, hx1⟩ := load_offtout patch (i := (pre.length : Int) + 8)
    (p := pre ++ BSDIFF40) (x := cz.length) (by rw [hfile]; simp only [List.append_assoc]; rfl)
    (by simp [BSDIFF40]) (by omega)
  obtain ⟨b2, hb2, hx2⟩ := load_offtout patch (i := (pre.length : Int) + 16)
    (p := pre ++ BSDIFF40 ++ offtout cz.length) (x := dz.length)
    (by rw [hfile]; simp only [List.append_assoc]; rfl) (by simp [BSDIFF40]) (by omega)
  obtain ⟨b3, hb3, hx3⟩ := load_offtout patch (i := (pre.length : Int) + 24)
    (p := pre ++ BSDIFF40 ++ offtout cz.length ++ offtout dz.length) (x := size segs)
    (by rw [hfile]; simp only [List.append_assoc]; rfl) (by simp [BSDIFF40]) hnew
  have hnonneg : ¬ ((cz.length : Int) < 0 ∨ (dz.length : Int) < 0 ∨ (size segs : Int) < 0) := by
    omega
  refine ⟨_, ?_, rfl, rfl, hinit⟩
  simp only [openPatch, hmagic, Outcome.done_bind, ne_eq, not_true_eq_false, if_false,
    hb1, hb2, hb3, hx1, hx2, hx3, if_neg hnonneg, Int.toNat_natCast, hestart]
  push_cast
  rfl

/-- Applying a patch file that stands at any offset of a blob, with any bytes
after it, gives the new file of its script. -/
theorem applyBSDiffPatchMem_of_layout (hbz : bz.Inverts pending) (mem : Bytes) (start n : Nat)
    (hold : start + n ≤ mem.length) {fuel : Nat} {pre post : Bytes} {segs : List Segment}
    (hsize : (pre ++ patchFile bz segs ++ post).length < 2 ^ 31) (hnew : size segs < 2 ^ 31)
    (hend : EndsInOutput segs) (hrange : InRange (2 ^ 31) 0 segs)
    (hfuel : 24 + size segs + segs.length ≤ fuel) :
    applyBSDiffPatchMem bz fuel ⟨mem, start, n⟩ (pre ++ patchFile bz segs ++ post) pre.length =
      .done (some (replay (slice mem start n) 0 segs)) := by
  obtain ⟨s, hopen, hdata, hcur, hs⟩ := openPatch_of_layout hbz hsize hnew
  obtain ⟨s', hrun, hdata', -⟩ := patchLoop_replay hbz mem start n hold hnew fuel (by omega) segs
    fuel s hs hend (by simp [hdata]) (by rw [hcur]; exact hrange) (by omega)
  simp only [applyBSDiffPatchMem, hopen, Outcome.done_bind, hrun]
  simp [hdata', hdata, hcur]

end Specs

end BootableRecovery.Applypatch
