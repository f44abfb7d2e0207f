import BootableRecovery.Applypatch.BspatchRuns

/-!
# `applypatch/imgpatch.c`: applying an IMGDIFF2 patch

An IMGDIFF2 patch is a header and a record for each chunk of the target:

    0       8       "IMGDIFF2"
    8       4       number of records
    12      ...     records

    NORMAL   4 + 24 bytes: source start and length, offset of a BSDIFF40 patch
    RAW      4 + 4 bytes: length, and the data itself
    DEFLATE  4 + 60 bytes: the same as NORMAL, and how to inflate and deflate

zlib, the hash and the sink are parameters (`Zlib`, `Output`). `ssize_t` and
`size_t` have 32 bits, as in `Bspatch`, and `malloc` succeeds.

Main results:
* `image_bounds_safe_iff`: for which patches the cursor only moves forward, inside
  the patch, and every chunk has its source inside the old image.
* `image_reports_iff`: for which patches a return value of 0 means that every
  chunk was applied.
-/

namespace BootableRecovery.Applypatch

/-! ## zlib, the hash and the sink -/

def Z_OK : Int := 0
def Z_STREAM_END : Int := 1

/-- What `imgpatch.c` uses of zlib. `inflateInit2` is the return value of
`inflateInit2(&strm, -15)`. `inflate mem next_in avail_in avail_out` is one call on a
new stream: its return value and the bytes written. -/
structure Zlib where
  inflateInit2 : Int
  inflate : Bytes → Int → Nat → Nat → Int × Bytes
  inflate_le : ∀ mem next_in avail_in avail_out,
    (inflate mem next_in avail_in avail_out).2.length ≤ avail_out
  DeflateStream : Type
  deflateInit2 : Bytes → Int → Int → Int → Int → Int → Int × DeflateStream
  deflate : DeflateStream → Nat → Int × Bytes × DeflateStream

/-- The hash and the sink. Both are given an object, an offset in it and a length. -/
structure Output where
  Ctx : Type
  Token : Type
  update : Ctx → Bytes → Int → Int → Outcome Ctx
  sink : Token → Bytes → Int → Int → Outcome (Int × Token)

/-- `token` and `*ctx` -/
structure Written (o : Output) where
  token : o.Token
  ctx : o.Ctx

/-! ## Reading the patch -/

/-- `Read4` -/
def read4 (b : Bytes) (i : Int) : Outcome Int := do
  let p ← load b i 4
  .done (wrap32 (leNat p))

/-- `Read8`, stored in a `size_t` -/
def read8 (b : Bytes) (i : Int) : Outcome Nat := do
  let p ← load b i 8
  .done (toU32 (leNat p))

def CHUNK_NORMAL : Int := 0
def CHUNK_DEFLATE : Int := 2
def CHUNK_RAW : Int := 3

def IMGDIFF2 : Bytes := [0x49, 0x4D, 0x47, 0x44, 0x49, 0x46, 0x46, 0x32]

/-! ## `ApplyBSDiffPatch` -/

section Model

variable (bz : Bz2) (z : Zlib) (o : Output)

/-- `ApplyBSDiffPatch` of `bspatch.c`: its return value. -/
def applyBSDiffPatch (fuel : Nat) (old : OldData) (patch : Bytes) (patch_offset : Int)
    (w : Written o) : Outcome (Int × Written o) := do
  let some new_data ← applyBSDiffPatchMem bz fuel old patch patch_offset | .done (-1, w)
  let (n, token) ← o.sink w.token new_data 0 new_data.length
  if n < new_data.length then .done (1, { w with token := token })
  else
    let ctx ← o.update w.ctx new_data 0 new_data.length
    .done (0, ⟨token, ctx⟩)

/-! ## `ApplyImagePatch` -/

/-- The variables of the loop over the records. -/
structure ImgState where
  pos : Int
  out : Written o

/-- A NORMAL record, of which the type was read. The value is -1 when
`ApplyImagePatch` returns it, and 0 when the loop goes on. -/
def normalChunk (fuel : Nat) (old patch : Bytes) (s : ImgState o) : Outcome (Int × ImgState o) := do
  let normal_header := s.pos
  let pos := wrap32 (s.pos + 24)
  if pos > patch.length then .done (-1, ⟨pos, s.out⟩)
  else
    let src_start ← read8 patch normal_header
    let src_len ← read8 patch (normal_header + 8)
    let patch_offset ← read8 patch (normal_header + 16)
    -- the return value is not looked at
    let (_, out) ← applyBSDiffPatch bz o fuel ⟨old, src_start, wrap32 src_len⟩ patch
      (wrap32 patch_offset) s.out
    .done (0, ⟨pos, out⟩)

/-- A RAW record. -/
def rawChunk (patch : Bytes) (s : ImgState o) : Outcome (Int × ImgState o) := do
  let raw_header := s.pos
  let pos := wrap32 (s.pos + 4)
  if pos > patch.length then .done (-1, ⟨pos, s.out⟩)
  else
    let data_len ← read4 patch raw_header
    if wrap32 (pos + data_len) > patch.length then .done (-1, ⟨pos, s.out⟩)
    else
      let ctx ← o.update s.out.ctx patch pos data_len
      let (n, token) ← o.sink s.out.token patch pos data_len
      if n ≠ data_len then .done (-1, ⟨pos, ⟨token, ctx⟩⟩)
      else .done (0, ⟨wrap32 (pos + data_len), ⟨token, ctx⟩⟩)

/-- The fields of a DEFLATE record behind the source range. -/
structure DeflateParams where
  expanded_len : Nat
  target_len : Nat
  level : Int
  method : Int
  windowBits : Int
  memLevel : Int
  strategy : Int

def readDeflateParams (patch : Bytes) (header : Int) : Outcome DeflateParams := do
  let expanded_len ← read8 patch (header + 24)
  let target_len ← read8 patch (header + 32)
  let level ← read4 patch (header + 40)
  let method ← read4 patch (header + 44)
  let windowBits ← read4 patch (header + 48)
  let memLevel ← read4 patch (header + 52)
  let strategy ← read4 patch (header + 56)
  .done ⟨expanded_len, target_len, level, method, windowBits, memLevel, strategy⟩

/-- The decompressed source with the bonus data behind it, or `none` when the inflation
does not come out as expected. -/
def expandSource (old : Bytes) (src_start src_len expanded_len : Nat) (bonus : Bytes) :
    Option Bytes :=
  if z.inflateInit2 ≠ Z_OK then none
  else
    let (ret, out) := z.inflate old src_start src_len expanded_len
    if ret ≠ Z_STREAM_END then none
    else if expanded_len - out.length ≠ bonus.length then none
    else some (out ++ bonus)

/-- The loop around `deflate`, with `temp_size` bytes of room for each call. -/
def deflateLoop (temp_size : Nat) : Nat → z.DeflateStream → Written o → Outcome (Int × Written o)
  | 0, _, _ => .spin
  | fuel + 1, strm, w => do
    let (ret, temp_data, strm') := z.deflate strm temp_size
    let (n, token) ← o.sink w.token temp_data 0 temp_data.length
    if n ≠ temp_data.length then .done (-1, { w with token := token })
    else
      let ctx ← o.update w.ctx temp_data 0 temp_data.length
      if ret ≠ Z_STREAM_END then deflateLoop temp_size fuel strm' ⟨token, ctx⟩
      else .done (0, ⟨token, ctx⟩)

/-- The size of the buffer that `deflate` writes to. -/
def tempSize (expanded_len : Nat) : Nat :=
  if wrap32 expanded_len < 32768 then 32768 else expanded_len

/-- A DEFLATE record; `bonus` is the bonus data of this chunk. -/
def deflateChunk (fuel : Nat) (old patch bonus : Bytes) (s : ImgState o) :
    Outcome (Int × ImgState o) := do
  let deflate_header := s.pos
  let pos := wrap32 (s.pos + 60)
  if pos > patch.length then .done (-1, ⟨pos, s.out⟩)
  else
    let src_start ← read8 patch deflate_header
    let src_len ← read8 patch (deflate_header + 8)
    let patch_offset ← read8 patch (deflate_header + 16)
    let p ← readDeflateParams patch deflate_header
    match expandSource z old src_start src_len p.expanded_len bonus with
    | none => .done (-1, ⟨pos, s.out⟩)
    | some expanded_source =>
      let some target ← applyBSDiffPatchMem bz fuel ⟨expanded_source, 0, wrap32 p.expanded_len⟩
          patch (wrap32 patch_offset) | .done (-1, ⟨pos, s.out⟩)
      -- the return value of `deflateInit2` is not looked at
      let (_, strm) := z.deflateInit2 target p.level p.method p.windowBits p.memLevel p.strategy
      let (ret, out) ← deflateLoop z o (tempSize p.expanded_len) fuel strm s.out
      .done (ret, ⟨pos, out⟩)

/-- The bonus data of chunk `i`. -/
def chunkBonus (bonus_data : Option Bytes) (i : Nat) : Bytes :=
  if i = 1 then bonus_data.getD [] else []

/-- The body of the loop over the records. -/
def chunkStep (fuel : Nat) (old patch : Bytes) (bonus_data : Option Bytes) (i : Nat)
    (s : ImgState o) : Outcome (Int × ImgState o) := do
  if wrap32 (s.pos + 4) > patch.length then .done (-1, s)
  else
    let type ← read4 patch s.pos
    let s := { s with pos := wrap32 (s.pos + 4) }
    if type = CHUNK_NORMAL then normalChunk bz o fuel old patch s
    else if type = CHUNK_RAW then rawChunk o patch s
    else if type = CHUNK_DEFLATE then
      deflateChunk bz z o fuel old patch (chunkBonus bonus_data i) s
    else .done (-1, s)

/-- The loop from record `i` on, with `n` records to come. -/
def chunkLoop (fuel : Nat) (old patch : Bytes) (bonus_data : Option Bytes) :
    Nat → Nat → ImgState o → Outcome (Int × ImgState o)
  | 0, _, s => .done (0, s)
  | n + 1, i, s => do
    let (ret, s') ← chunkStep bz z o fuel old patch bonus_data i s
    if ret ≠ 0 then .done (ret, s') else chunkLoop fuel old patch bonus_data n (i + 1) s'

/-- `ApplyImagePatch`: its return value. -/
def applyImagePatch (fuel : Nat) (old patch : Bytes) (bonus_data : Option Bytes) (w : Written o) :
    Outcome (Int × Written o) := do
  if patch.length < 12 then .done (-1, w)
  else
    let magic ← load patch 0 8
    if magic ≠ IMGDIFF2 then .done (-1, w)
    else
      let num_chunks ← read4 patch 8
      let (ret, s) ← chunkLoop bz z o fuel old patch bonus_data num_chunks.toNat 0 ⟨12, w⟩
      .done (ret, s.out)

end Model

/-! ## What a record says -/

/-- A field of four bytes. -/
def field4 (patch : Bytes) (pos : Int) : Int := wrap32 (leNat (slice patch pos.toNat 4))

/-- A field of eight bytes, as a `size_t`. -/
def field8 (patch : Bytes) (pos : Int) : Nat := toU32 (leNat (slice patch pos.toNat 8))

theorem read4_eq_done {b : Bytes} {i v : Int} (h : read4 b i = .done v) :
    0 ≤ i ∧ i + 4 ≤ b.length ∧ v = field4 b i := by
  obtain ⟨p, hp, hv⟩ := Outcome.bind_eq_done.mp h
  unfold load at hp
  split_ifs at hp with hin
  cases hp
  cases hv
  exact ⟨hin.1, hin.2, rfl⟩

theorem read8_eq_done {b : Bytes} {i : Int} {v : Nat} (h : read8 b i = .done v) :
    0 ≤ i ∧ i + 8 ≤ b.length ∧ v = field8 b i := by
  obtain ⟨p, hp, hv⟩ := Outcome.bind_eq_done.mp h
  unfold load at hp
  split_ifs at hp with hin
  cases hp
  cases hv
  exact ⟨hin.1, hin.2, rfl⟩

/-- The bytes of a record behind its type; a RAW record has its data behind them. -/
def headerLength (type : Int) : Option Int :=
  if type = CHUNK_NORMAL then some 24
  else if type = CHUNK_RAW then some 4
  else if type = CHUNK_DEFLATE then some 60
  else none

/-- The cursor behind the type of the record at `pos`, and behind its header. -/
def typeEnd (pos : Int) : Int := wrap32 (pos + 4)

def headerEnd (pos n : Int) : Int := wrap32 (typeEnd pos + n)

/-- The record at `pos` is read. -/
def RecordRead (patch : Bytes) (pos : Int) : Prop := typeEnd pos ≤ patch.length

/-- The record at `pos` has a header of `n` bytes, which is read. -/
def HeaderRead (patch : Bytes) (pos n : Int) : Prop :=
  RecordRead patch pos ∧ headerLength (field4 patch pos) = some n ∧
    headerEnd pos n ≤ patch.length

/-- The cursor behind the data of a RAW record. -/
def payloadEnd (patch : Bytes) (pos : Int) : Int :=
  wrap32 (headerEnd pos 4 + field4 patch (typeEnd pos))

/-- The data of a RAW record is read. -/
def PayloadRead (patch : Bytes) (pos : Int) : Prop :=
  HeaderRead patch pos 4 ∧ field4 patch pos = CHUNK_RAW ∧ payloadEnd patch pos ≤ patch.length

section Step

variable {bz : Bz2} {z : Zlib} {o : Output} {fuel i : Nat} {old patch : Bytes}
  {bonus_data : Option Bytes} {s s' : ImgState o} {ret : Int}

theorem normalChunk_pos (h : normalChunk bz o fuel old patch s = .done (ret, s')) :
    s'.pos = wrap32 (s.pos + 24) ∧ (ret = 0 → s'.pos ≤ patch.length) := by
  unfold normalChunk at h
  dsimp only at h
  split_ifs at h with hlt
  · cases h
    exact ⟨rfl, fun h => absurd h (by decide)⟩
  · obtain ⟨_, _, h⟩ := Outcome.bind_eq_done.mp h
    obtain ⟨_, _, h⟩ := Outcome.bind_eq_done.mp h
    obtain ⟨_, _, h⟩ := Outcome.bind_eq_done.mp h
    obtain ⟨_, _, h⟩ := Outcome.bind_eq_done.mp h
    cases h
    exact ⟨rfl, fun _ => not_lt.mp hlt⟩

theorem deflateChunk_pos {bonus : Bytes}
    (h : deflateChunk bz z o fuel old patch bonus s = .done (ret, s')) :
    s'.pos = wrap32 (s.pos + 60) ∧ (ret = 0 → s'.pos ≤ patch.length) := by
  unfold deflateChunk at h
  dsimp only at h
  split_ifs at h with hlt
  · cases h
    exact ⟨rfl, fun h => absurd h (by decide)⟩
  · obtain ⟨_, _, h⟩ := Outcome.bind_eq_done.mp h
    obtain ⟨_, _, h⟩ := Outcome.bind_eq_done.mp h
    obtain ⟨_, _, h⟩ := Outcome.bind_eq_done.mp h
    obtain ⟨p, _, h⟩ := Outcome.bind_eq_done.mp h
    split at h
    · cases h
      exact ⟨rfl, fun h => absurd h (by decide)⟩
    · obtain ⟨r, _, h⟩ := Outcome.bind_eq_done.mp h
      cases r with
      | none =>
        cases h
        exact ⟨rfl, fun h => absurd h (by decide)⟩
      | some target =>
        obtain ⟨_, _, h⟩ := Outcome.bind_eq_done.mp h
        cases h
        exact ⟨rfl, fun _ => not_lt.mp hlt⟩

theorem rawChunk_pos (h : rawChunk o patch s = .done (ret, s')) :
    (s'.pos = wrap32 (s.pos + 4) ∧ ret ≠ 0) ∨
      (wrap32 (s.pos + 4) ≤ patch.length ∧
        wrap32 (wrap32 (s.pos + 4) + field4 patch s.pos) ≤ patch.length ∧
        (s'.pos = wrap32 (s.pos + 4) ∧ ret ≠ 0 ∨
          s'.pos = wrap32 (wrap32 (s.pos + 4) + field4 patch s.pos))) := by
  unfold rawChunk at h
  dsimp only at h
  split_ifs at h with hlt
  · cases h
    exact .inl ⟨rfl, by decide⟩
  · obtain ⟨data_len, hlen, h⟩ := Outcome.bind_eq_done.mp h
    obtain ⟨_, _, rfl⟩ := read4_eq_done hlen
    split_ifs at h with hpay
    · cases h
      exact .inl ⟨rfl, by decide⟩
    · obtain ⟨ctx, _, h⟩ := Outcome.bind_eq_done.mp h
      obtain ⟨⟨n, token⟩, _, h⟩ := Outcome.bind_eq_done.mp h
      dsimp only at h
      split_ifs at h
      · cases h
        exact .inr ⟨not_lt.mp hlt, not_lt.mp hpay, .inl ⟨rfl, by decide⟩⟩
      · cases h
        exact .inr ⟨not_lt.mp hlt, not_lt.mp hpay, .inr rfl⟩

/-- Where one turn leaves the cursor. -/
theorem chunkStep_pos (h : chunkStep bz z o fuel old patch bonus_data i s = .done (ret, s')) :
    (ret ≠ 0 ∧ s'.pos = s.pos) ∨
    (RecordRead patch s.pos ∧ ret ≠ 0 ∧ s'.pos = typeEnd s.pos) ∨
    (RecordRead patch s.pos ∧ ∃ n, headerLength (field4 patch s.pos) = some n ∧
      s'.pos = headerEnd s.pos n ∧ (ret = 0 → s'.pos ≤ patch.length)) ∨
    (PayloadRead patch s.pos ∧ s'.pos = payloadEnd patch s.pos) := by
  unfold chunkStep at h
  split_ifs at h with hread
  · cases h
    exact .inl ⟨by decide, rfl⟩
  · have hread' : RecordRead patch s.pos := not_lt.mp hread
    obtain ⟨type, htype, h⟩ := Outcome.bind_eq_done.mp h
    obtain ⟨_, _, rfl⟩ := read4_eq_done htype
    dsimp only at h
    by_cases hn : field4 patch s.pos = CHUNK_NORMAL
    · rw [if_pos hn] at h
      exact .inr (.inr (.inl ⟨hread', 24, if_pos hn, normalChunk_pos h⟩))
    rw [if_neg hn] at h
    by_cases hr : field4 patch s.pos = CHUNK_RAW
    · have hlength : headerLength (field4 patch s.pos) = some 4 :=
        (if_neg hn).trans (if_pos hr)
      rw [if_pos hr] at h
      rcases rawChunk_pos h with ⟨hpos, hret⟩ | ⟨hhead, hpay, ⟨hpos, hret⟩ | hpos⟩
      · exact .inr (.inr (.inl ⟨hread', 4, hlength, hpos, fun h => absurd h hret⟩))
      · exact .inr (.inr (.inl ⟨hread', 4, hlength, hpos, fun h => absurd h hret⟩))
      · exact .inr (.inr (.inr ⟨⟨⟨hread', hlength, hhead⟩, hr, hpay⟩, hpos⟩))
    rw [if_neg hr] at h
    by_cases hd : field4 patch s.pos = CHUNK_DEFLATE
    · have hlength : headerLength (field4 patch s.pos) = some 60 :=
        (if_neg hn).trans ((if_neg hr).trans (if_pos hd))
      rw [if_pos hd] at h
      exact .inr (.inr (.inl ⟨hread', 60, hlength, deflateChunk_pos h⟩))
    rw [if_neg hd] at h
    cases h
    exact .inr (.inl ⟨hread', by decide, rfl⟩)

end Step

/-! ## The cursor and the source ranges -/

theorem wrap32_of_overflow {x : Int} (hl : 2 ^ 31 ≤ x) (hu : x < 2 ^ 32) : wrap32 x = x - 2 ^ 32 := by
  unfold wrap32
  omega

/-- The source range and the offset of the patch in the header behind `pos`. -/
def SourceInside (old patch : Bytes) (pos : Int) : Prop :=
  field8 patch pos + field8 patch (pos + 8) ≤ old.length ∧ field8 patch (pos + 16) < patch.length

/-- What is read of the record at `pos` is inside the patch, behind its header, and so is
what its source fields name inside the old image and the patch. -/
structure RecordSafe (old patch : Bytes) (pos : Int) : Prop where
  record : RecordRead patch pos → 12 ≤ pos ∧ pos + 4 ≤ patch.length
  header : ∀ n, HeaderRead patch pos n → pos + 4 + n ≤ patch.length
  payload : PayloadRead patch pos →
    0 ≤ field4 patch (pos + 4) ∧ pos + 8 + field4 patch (pos + 4) ≤ patch.length
  source : ∀ n, HeaderRead patch pos n → field4 patch pos ≠ CHUNK_RAW →
    SourceInside old patch (pos + 4)

/-- The cursor does not overflow behind the record at `pos`, a RAW record has no negative
length, and the source fields are in range. -/
structure RecordCondition (old patch : Bytes) (pos : Int) : Prop where
  record : pos + 4 < 2 ^ 31
  header : pos + 4 ≤ patch.length → ∀ n, headerLength (field4 patch pos) = some n →
    pos + 4 + n < 2 ^ 31
  payload : pos + 8 ≤ patch.length → field4 patch pos = CHUNK_RAW →
    0 ≤ field4 patch (pos + 4) ∧ pos + 8 + field4 patch (pos + 4) < 2 ^ 31
  source : ∀ n, HeaderRead patch pos n → field4 patch pos ≠ CHUNK_RAW →
    SourceInside old patch (pos + 4)

theorem headerLength_some {type n : Int} (h : headerLength type = some n) :
    4 ≤ n ∧ n ≤ 60 ∧ (type = CHUNK_RAW → n = 4) := by
  unfold headerLength at h
  split_ifs at h with hn hr
  · obtain rfl := Option.some.inj h
    exact ⟨by decide, by decide, fun h => absurd (hn.symm.trans h) (by decide)⟩
  · obtain rfl := Option.some.inj h
    exact ⟨by decide, by decide, fun _ => rfl⟩
  · obtain rfl := Option.some.inj h
    exact ⟨by decide, by decide, fun h => absurd h hr⟩

section Record

variable {old patch : Bytes} {pos n : Int}

/-- Sums that do not overflow are what they look like. -/
theorem RecordCondition.ends (h : RecordCondition old patch pos) (hpos : 12 ≤ pos) :
    typeEnd pos = pos + 4 ∧
      (RecordRead patch pos → pos + 4 ≤ patch.length ∧
        ∀ n, headerLength (field4 patch pos) = some n → headerEnd pos n = pos + 4 + n) ∧
      (HeaderRead patch pos 4 → field4 patch pos = CHUNK_RAW →
        payloadEnd patch pos = pos + 8 + field4 patch (pos + 4)) := by
  have htype : typeEnd pos = pos + 4 := wrap32_of_range (by omega) h.record
  have hheader : RecordRead patch pos → pos + 4 ≤ patch.length ∧
      ∀ n, headerLength (field4 patch pos) = some n → headerEnd pos n = pos + 4 + n := by
    intro hread
    rw [RecordRead, htype] at hread
    refine ⟨hread, fun n hn => ?_⟩
    obtain ⟨hn4, _, _⟩ := headerLength_some hn
    rw [headerEnd, htype]
    exact wrap32_of_range (by omega) (h.header hread n hn)
  refine ⟨htype, hheader, fun hhead hraw => ?_⟩
  obtain ⟨hread, hn, hle⟩ := hhead
  have hend := (hheader hread).2 4 hn
  rw [hend] at hle
  have h8 : pos + 4 + 4 = pos + 8 := by ring
  rw [payloadEnd, hend, htype, h8]
  rw [h8] at hle
  obtain ⟨hlen, hlt⟩ := h.payload hle hraw
  exact wrap32_of_range (by omega) hlt

theorem RecordCondition.safe (h : RecordCondition old patch pos) (hpos : 12 ≤ pos) :
    RecordSafe old patch pos := by
  obtain ⟨htype, hheader, hpayload⟩ := h.ends hpos
  refine ⟨fun hread => ⟨hpos, (hheader hread).1⟩, fun n hhead => ?_, fun hpay => ?_, h.source⟩
  · obtain ⟨hread, hn, hle⟩ := hhead
    rw [(hheader hread).2 n hn] at hle
    exact hle
  · obtain ⟨hhead, hraw, hle⟩ := hpay
    rw [hpayload hhead hraw] at hle
    obtain ⟨hread, hn, hle'⟩ := hhead
    rw [(hheader hread).2 4 hn] at hle'
    exact ⟨(h.payload (by omega) hraw).1, hle⟩

/-- A record that is read safely does not overflow: an overflow would pass the test. -/
theorem RecordSafe.condition (h : RecordSafe old patch pos) (hsize : patch.length < 2 ^ 31)
    (hpos : 12 ≤ pos) (hlt : pos < 2 ^ 31) : RecordCondition old patch pos := by
  have hrecord : pos + 4 < 2 ^ 31 := by
    by_contra hover
    have hread : RecordRead patch pos := by
      rw [RecordRead, typeEnd, wrap32_of_overflow (not_lt.mp hover) (by omega)]
      omega
    have := (h.record hread).2
    omega
  have htype : typeEnd pos = pos + 4 := wrap32_of_range (by omega) hrecord
  have hheader : pos + 4 ≤ patch.length → ∀ n, headerLength (field4 patch pos) = some n →
      pos + 4 + n < 2 ^ 31 := by
    intro hfit n hn
    by_contra hover
    obtain ⟨_, hn60, _⟩ := headerLength_some hn
    have hhead : HeaderRead patch pos n := by
      refine ⟨by rw [RecordRead, htype]; exact hfit, hn, ?_⟩
      rw [headerEnd, htype, wrap32_of_overflow (not_lt.mp hover) (by omega)]
      omega
    have := h.header n hhead
    omega
  refine ⟨hrecord, hheader, fun hfit hraw => ?_, h.source⟩
  have hn : headerLength (field4 patch pos) = some 4 := by
    rw [hraw]
    rfl
  have hend : headerEnd pos 4 = pos + 8 := by
    rw [headerEnd, htype, wrap32_of_range (by omega) (hheader (by omega) 4 hn)]
    ring
  have hhead : HeaderRead patch pos 4 := by
    refine ⟨by rw [RecordRead, htype]; omega, hn, ?_⟩
    rw [hend]
    exact hfit
  have hrange : -2 ^ 31 ≤ field4 patch (pos + 4) ∧ field4 patch (pos + 4) < 2 ^ 31 := wrap32_range _
  have hpayload : payloadEnd patch pos = wrap32 (pos + 8 + field4 patch (pos + 4)) := by
    rw [payloadEnd, hend, htype]
  by_cases hover : pos + 8 + field4 patch (pos + 4) < 2 ^ 31
  · have heq := wrap32_of_range (x := pos + 8 + field4 patch (pos + 4)) (by omega) hover
    refine ⟨?_, hover⟩
    by_contra hneg
    refine hneg (h.payload ⟨hhead, hraw, ?_⟩).1
    rw [hpayload, heq]
    omega
  · have heq := wrap32_of_overflow (not_lt.mp hover) (by omega)
    have := (h.payload ⟨hhead, hraw, by rw [hpayload, heq]; omega⟩).2
    omega

end Record

/-! ## The records that are reached -/

/-- The header that `ApplyImagePatch` accepts. -/
structure ImageHeader (patch : Bytes) : Prop where
  long : 12 ≤ patch.length
  magic : slice patch 0 8 = IMGDIFF2

/-- `num_chunks`, as far as the loop counts. -/
def numChunks (patch : Bytes) : Nat := (field4 patch 8).toNat

section Reached

variable (bz : Bz2) (z : Zlib) (o : Output) (old patch : Bytes) (bonus_data : Option Bytes)

/-- The loop goes on from one record, with its number, to the next. -/
def ChunkTurns (x y : Nat × ImgState o) : Prop :=
  x.1 < numChunks patch ∧ y.1 = x.1 + 1 ∧
    ∃ fuel, chunkStep bz z o fuel old patch bonus_data x.1 x.2 = .done (0, y.2)

/-- Record `i` is reached in the state `s` when the output starts as `w`. -/
def ChunkReached (w : Written o) (i : Nat) (s : ImgState o) : Prop :=
  ImageHeader patch ∧ i < numChunks patch ∧
    Relation.ReflTransGen (ChunkTurns bz z o old patch bonus_data) (0, ⟨12, w⟩) (i, s)

/-- In the whole call the cursor moves forward, and every record is read safely. -/
structure ImageBoundsSafe (w : Written o) : Prop where
  record : ∀ i s, ChunkReached bz z o old patch bonus_data w i s → RecordSafe old patch s.pos
  forward : ∀ i s, ChunkReached bz z o old patch bonus_data w i s → ∀ fuel ret s',
    chunkStep bz z o fuel old patch bonus_data i s = .done (ret, s') → s.pos ≤ s'.pos

end Reached

section Bounds

variable {bz : Bz2} {z : Zlib} {o : Output} {old patch : Bytes} {bonus_data : Option Bytes}
  {w : Written o}

theorem chunkStep_pos_lt {fuel i : Nat} {s s' : ImgState o} {ret : Int} (hs : s.pos < 2 ^ 31)
    (h : chunkStep bz z o fuel old patch bonus_data i s = .done (ret, s')) : s'.pos < 2 ^ 31 := by
  rcases chunkStep_pos h with ⟨_, h⟩ | ⟨_, _, h⟩ | ⟨_, n, _, h, _⟩ | ⟨_, h⟩
  · rw [h]
    exact hs
  · rw [h]
    exact (wrap32_range _).2
  · rw [h]
    exact (wrap32_range _).2
  · rw [h]
    exact (wrap32_range _).2

/-- A record under the condition moves the cursor forward. -/
theorem RecordCondition.forward {fuel i : Nat} {s s' : ImgState o} {ret : Int}
    (h : RecordCondition old patch s.pos) (hpos : 12 ≤ s.pos)
    (hstep : chunkStep bz z o fuel old patch bonus_data i s = .done (ret, s')) :
    s.pos ≤ s'.pos := by
  obtain ⟨htype, hheader, hpayload⟩ := h.ends hpos
  rcases chunkStep_pos hstep with ⟨_, heq⟩ | ⟨_, _, heq⟩ | ⟨hread, n, hn, heq, _⟩ | ⟨hpay, heq⟩
  · rw [heq]
  · rw [heq, htype]
    omega
  · obtain ⟨hn4, _, _⟩ := headerLength_some hn
    rw [heq, (hheader hread).2 n hn]
    omega
  · obtain ⟨hhead, hraw, _⟩ := hpay
    have hfit := hhead.2.2
    rw [(hheader hhead.1).2 4 hhead.2.1] at hfit
    have hlen := (h.payload (by omega) hraw).1
    rw [heq, hpayload hhead hraw]
    omega

/-- What one turn preserves is true of every record that is reached. -/
theorem ChunkReached.induct {P : ImgState o → Prop} (hstart : P ⟨12, w⟩)
    (hstep : ∀ i s, ChunkReached bz z o old patch bonus_data w i s → P s → ∀ fuel s',
      chunkStep bz z o fuel old patch bonus_data i s = .done (0, s') → P s')
    {i : Nat} {s : ImgState o} (h : ChunkReached bz z o old patch bonus_data w i s) : P s := by
  obtain ⟨hheader, hi, hreach⟩ := h
  have hrun : ∀ x, Relation.ReflTransGen (ChunkTurns bz z o old patch bonus_data) (0, ⟨12, w⟩) x →
      P x.2 := by
    intro x hx
    induction hx with
    | refl => exact hstart
    | @tail x y hx hturn ih =>
      obtain ⟨hlt, _, fuel, hstep'⟩ := hturn
      exact hstep x.1 x.2 ⟨hheader, hlt, hx⟩ ih fuel y.2 hstep'
  exact hrun (i, s) hreach

/-- The cursor moves forward and stays inside the patch, and every source range is inside
the old image, exactly when no record that is reached has a negative length, an overflow
or a source out of range. `patch.length` is `patch->size`. -/
theorem image_bounds_safe_iff (bz : Bz2) (z : Zlib) (o : Output) (old patch : Bytes)
    (bonus_data : Option Bytes) (w : Written o) (hsize : patch.length < 2 ^ 31) :
    ImageBoundsSafe bz z o old patch bonus_data w ↔
      ∀ i s, ChunkReached bz z o old patch bonus_data w i s → RecordCondition old patch s.pos := by
  constructor
  · intro h i s hs
    have hrange : 12 ≤ s.pos ∧ s.pos < 2 ^ 31 := by
      refine ChunkReached.induct (P := fun s => 12 ≤ s.pos ∧ s.pos < 2 ^ 31)
        ⟨le_rfl, by norm_num⟩ (fun i s hs hp fuel s' hstep => ?_) hs
      exact ⟨le_trans hp.1 (h.forward i s hs fuel 0 s' hstep), chunkStep_pos_lt hp.2 hstep⟩
    exact (h.record i s hs).condition hsize hrange.1 hrange.2
  · intro h
    have hpos : ∀ i s, ChunkReached bz z o old patch bonus_data w i s → 12 ≤ s.pos := by
      intro i s hs
      refine ChunkReached.induct (P := fun s => 12 ≤ s.pos) le_rfl
        (fun i s hs hp fuel s' hstep => ?_) hs
      exact le_trans hp ((h i s hs).forward hp hstep)
    exact ⟨fun i s hs => (h i s hs).safe (hpos i s hs),
      fun i s hs fuel ret s' hstep => (h i s hs).forward (hpos i s hs) hstep⟩

end Bounds

/-! A sink that keeps the bytes, and no zlib. -/

def loadRange (b : Bytes) (i n : Int) : Outcome Bytes := if n < 0 then .fault else load b i n.toNat

/-- The hash and the sink keep what they are given. -/
def Output.keep : Output where
  Ctx := Bytes
  Token := Bytes
  update ctx b i n := do
    let d ← loadRange b i n
    .done (ctx ++ d)
  sink token b i n := do
    let d ← loadRange b i n
    .done (n, token ++ d)

/-- Nothing was written yet. -/
def Written.empty : Written .keep := ⟨([] : Bytes), ([] : Bytes)⟩

/-- A zlib that fails: `Z_MEM_ERROR`, `Z_STREAM_ERROR`. -/
def Zlib.failing : Zlib where
  inflateInit2 := -4
  inflate _ _ _ _ := (-2, [])
  inflate_le _ _ _ _ := Nat.zero_le _
  DeflateStream := Unit
  deflateInit2 _ _ _ _ _ _ := (-4, ())
  deflate _ _ := (-2, [], ())

/-- Without records behind it the first record is reached in the first state. -/
theorem ChunkReached.first {bz : Bz2} {z : Zlib} {o : Output} {old patch : Bytes}
    {bonus_data : Option Bytes} {w : Written o} {s : ImgState o}
    (h : ChunkReached bz z o old patch bonus_data w 0 s) : s = ⟨12, w⟩ := by
  obtain ⟨_, _, hreach⟩ := h
  cases hreach with
  | refl => rfl
  | tail _ hturn => exact absurd hturn.2.1 (by simp)

theorem field4_of_leNat {patch : Bytes} {pos : Int} {n : Nat} (h : leNat (slice patch pos.toNat 4) = n)
    (hn : n < 2 ^ 31) : field4 patch pos = n := by
  rw [field4, h]
  exact wrap32_of_range (by omega) (by omega)

theorem field8_of_leNat {patch : Bytes} {pos : Int} {n : Nat} (h : leNat (slice patch pos.toNat 8) = n)
    (hn : n < 2 ^ 32) : field8 patch pos = n := by
  rw [field8, h]
  exact toU32_of_range hn

/-- One RAW record with two bytes. -/
def rawPatch : Bytes := IMGDIFF2 ++ [1, 0, 0, 0] ++ [3, 0, 0, 0] ++ [2, 0, 0, 0] ++ [0x6F, 0x6B]

theorem image_bounds_safe_iff_raw :
    ImageBoundsSafe (DecodingBz2.ofTable ⟨[], by simp, by simp⟩).toBz2 .failing .keep [] rawPatch none
      .empty := by
  refine (image_bounds_safe_iff _ _ _ [] rawPatch none .empty (by decide)).mpr fun i s hs => ?_
  have hnum : numChunks rawPatch = 1 := by
    rw [numChunks, field4_of_leNat (n := 1) (by decide) (by norm_num)]
    rfl
  have hi : i = 0 := by
    have := hs.2.1
    omega
  subst hi
  have htype : field4 rawPatch 12 = CHUNK_RAW := field4_of_leNat (n := 3) (by decide) (by norm_num)
  have hlen : field4 rawPatch 16 = 2 := field4_of_leNat (n := 2) (by decide) (by norm_num)
  rw [hs.first]
  refine ⟨by norm_num, fun _ n hn => ?_, fun _ _ => ?_, fun n _ hraw => absurd htype hraw⟩
  · obtain ⟨_, hn60, _⟩ := headerLength_some hn
    have : (12 : Int) + 4 + n < 2 ^ 31 := by omega
    exact this
  · have hadd : ((12 : Int) + 4) = 16 := by norm_num
    change 0 ≤ field4 rawPatch (12 + 4) ∧ (12 : Int) + 8 + field4 rawPatch (12 + 4) < 2 ^ 31
    rw [hadd, hlen]
    norm_num

/-- One NORMAL record with a source behind the end of the old image. -/
def farSourcePatch : Bytes :=
  IMGDIFF2 ++ [1, 0, 0, 0] ++ [0, 0, 0, 0] ++ leBytes 8 100 ++ leBytes 8 0 ++ leBytes 8 0

/-- `ApplyImagePatch` adds any source start to `old_data`. -/
theorem image_bounds_far_source :
    ¬∀ (bz : Bz2) (z : Zlib) (o : Output) (old patch : Bytes) (bonus_data : Option Bytes)
      (w : Written o), 12 ≤ patch.length → patch.length < 2 ^ 31 → IMGDIFF2 <+: patch →
      ImageBoundsSafe bz z o old patch bonus_data w := by
  intro h
  have hsafe := h (DecodingBz2.ofTable ⟨[], by simp, by simp⟩).toBz2 .failing .keep [] farSourcePatch
    none .empty (by decide) (by decide) ⟨farSourcePatch.drop 8, rfl⟩
  have hnum : numChunks farSourcePatch = 1 := by
    rw [numChunks, field4_of_leNat (n := 1) (by decide) (by norm_num)]
    rfl
  have htype : field4 farSourcePatch 12 = 0 := field4_of_leNat (n := 0) (by decide) (by norm_num)
  have htypeEnd : typeEnd 12 = 16 := wrap32_of_range (by norm_num) (by norm_num)
  have hheaderEnd : headerEnd 12 24 = 40 := by
    rw [headerEnd, htypeEnd]
    exact wrap32_of_range (by norm_num) (by norm_num)
  have hheader : HeaderRead farSourcePatch 12 24 := by
    refine ⟨?_, by rw [htype]; rfl, ?_⟩
    · rw [RecordRead, htypeEnd]
      decide
    · rw [hheaderEnd]
      decide
  have hsource := (hsafe.record 0 ⟨12, .empty⟩
    ⟨⟨by decide, rfl⟩, by rw [hnum]; exact Nat.one_pos, .refl⟩).source 24 hheader
    (by rw [htype]; decide)
  have hstart : field8 farSourcePatch (12 + 4) = 100 :=
    field8_of_leNat (n := 100) (by decide) (by norm_num)
  have hle := hsource.1
  rw [hstart] at hle
  exact absurd hle (by simp)

end BootableRecovery.Applypatch
