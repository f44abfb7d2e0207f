import BootableRecovery.Applypatch.Imgpatch
import BootableRecovery.Lib.CodeTable

/-!
# `applypatch/imgdiff.c`: the chunks of an image

`ReadImage` cuts a file into chunks: three for each gzip member that the scan comes to
(header, deflated data, footer) and one for what lies between them.

Pointers into memory are addresses (`Nat`); `base` is the address of `img`, and
`malloc` tells where the buffer of the member at a position is. `int`, `size_t` and
`off_t` have 32 bits. The inflater is a parameter (`Inflater`).

Main result:
* `read_image_tiles_iff`: for which images `ReadImage` comes to an end, and its chunks
  tile the file.
-/

namespace BootableRecovery.Applypatch

/-- `ImageChunk` -/
structure ImageChunk where
  type : Int
  start : Nat
  len : Nat
  data : Nat
  source_start : Nat
  source_len : Nat
  I : Nat
  deflate_len : Nat
  deflate_data : Nat
  filename : Option Bytes
  level : Int
  method : Int
  windowBits : Int
  memLevel : Int
  strategy : Int
  source_uncompressed_len : Nat
  deriving DecidableEq, Repr

/-- A new element of the list. What the code does not set is not read either; it is 0
here. -/
def ImageChunk.blank : ImageChunk where
  type := 0
  start := 0
  len := 0
  data := 0
  source_start := 0
  source_len := 0
  I := 0
  deflate_len := 0
  deflate_data := 0
  filename := none
  level := 0
  method := 0
  windowBits := 0
  memLevel := 0
  strategy := 0
  source_uncompressed_len := 0

/-! ## The inflater -/

def Z_DATA_ERROR : Int := -3

/-- What `ReadImage` uses of zlib. `open_ mem next_in avail_in` is a stream after
`inflateInit2(&strm, -15)`, `inflate strm avail_out` one call with `Z_NO_FLUSH` and
`avail_in` the field of the stream.

`decode` is the format: the data of the deflate stream at the start of an input, and how
many bytes the stream has. `Delivers strm d left` says that `strm` still has `d` to
deliver and then ends with `left` bytes of its input unread. -/
structure Inflater where
  Stream : Type
  open_ : Bytes → Nat → Nat → Stream
  inflate : Stream → Nat → Int × Bytes × Stream
  avail_in : Stream → Nat
  decode : Bytes → Option (Bytes × Nat)
  Delivers : Stream → Bytes → Nat → Prop
  opened : ∀ {mem i n d k}, decode (slice mem i n) = some (d, k) → k ≤ n →
    Delivers (open_ mem i n) d (n - k)
  call : ∀ {strm d left room}, Delivers strm d left → 0 < room →
    (∃ strm', inflate strm room = (Z_STREAM_END, d, strm') ∧ d.length ≤ room ∧
      avail_in strm' = left) ∨
    ∃ ret out rest strm', inflate strm room = (ret, out, strm') ∧ ret ≠ Z_STREAM_END ∧
      out ≠ [] ∧ out.length ≤ room ∧ d = out ++ rest ∧ Delivers strm' rest left

/-- An inflater for the codes of a table. A stream is what it still has to deliver and the
input behind it, or nothing when the input is no code. -/
def Inflater.ofTable (t : CodeTable) : Inflater where
  Stream := Option (Bytes × Nat)
  open_ mem next_in avail_in :=
    (t.decode (slice mem next_in avail_in)).map fun r => (r.1, avail_in - r.2)
  inflate strm avail_out :=
    match strm with
    | some (d, left) =>
      if d.length ≤ avail_out then (Z_STREAM_END, d, some ([], left))
      else (Z_OK, d.take avail_out, some (d.drop avail_out, left))
    | none => (Z_DATA_ERROR, [], none)
  avail_in strm := (strm.map Prod.snd).getD 0
  decode := t.decode
  Delivers strm d left := strm = some (d, left)
  opened h _ := by rw [h]; rfl
  call := by
    rintro strm d left room rfl hroom
    by_cases hfit : d.length ≤ room
    · exact .inl ⟨some ([], left), if_pos hfit, hfit, rfl⟩
    · refine .inr ⟨Z_OK, d.take room, d.drop room, _, if_neg hfit, by decide, ?_,
        by simp, (List.take_append_drop room d).symm, rfl⟩
      rw [Ne, List.take_eq_nil_iff]
      rintro (rfl | rfl)
      · exact absurd hroom (lt_irrefl 0)
      · exact hfit (Nat.zero_le _)

/-! ## `ReadImage` -/

def GZIP_HEADER_LEN : Nat := 10
def GZIP_FOOTER_LEN : Nat := 8

/-- The four bytes that the scan looks for. -/
def gzipMagic : Bytes := [0x1F, 0x8B, 0x08, 0x00]

section Model

variable (lib : Inflater) (base : Nat) (malloc : Nat → Nat)

/-- The loop around `inflate`: `curr->len` and the stream behind it. -/
def inflateLoop : Nat → Nat → Nat → lib.Stream → Outcome (Nat × lib.Stream)
  | 0, _, _, _ => .spin
  | fuel + 1, allocated, len, strm =>
    let (ret, out, strm') := lib.inflate strm (allocated - len)
    let len' := len + out.length
    let allocated' := if allocated - len' = 0 then allocated * 2 else allocated
    if ret ≠ Z_STREAM_END then inflateLoop fuel allocated' len' strm' else .done (len', strm')

/-- The scan for the next gzip header, over the `n` bytes that are left behind `pos + len`. -/
def scanLen (img : Bytes) (pos : Nat) : Nat → Nat → Nat
  | 0, len => len
  | n + 1, len => if slice img (pos + len) 4 = gzipMagic then len else scanLen img pos n (len + 1)

/-- The three chunks of the gzip member at `pos` and the position behind it, or `none`
when the footer does not match. `img` has the four bytes behind the file. -/
def gzipChunks (fuel : Nat) (img : Bytes) (st_size pos : Nat) :
    Outcome (Option (List ImageChunk × Nat)) := do
  let header := { ImageChunk.blank with
    type := CHUNK_NORMAL, start := pos, len := GZIP_HEADER_LEN, data := base + pos }
  let body := pos + GZIP_HEADER_LEN
  let strm := lib.open_ img body (toU32 (st_size - body))
  let (len, strm') ← inflateLoop lib fuel 32768 0 strm
  let deflate_len := toU32 (st_size - lib.avail_in strm' - body)
  let deflate := { ImageChunk.blank with
    type := CHUNK_DEFLATE, start := body, len := len, data := malloc body,
    deflate_len := deflate_len, deflate_data := base + body }
  let footer := { ImageChunk.blank with
    type := CHUNK_NORMAL, start := body + deflate_len, len := GZIP_FOOTER_LEN,
    data := base + (body + deflate_len) }
  let pos := body + deflate_len + GZIP_FOOTER_LEN
  let footer_size ← read4 img (pos - 4)
  if toU32 footer_size ≠ len then .done none
  else .done (some ([header, deflate, footer], pos))

/-- The chunk up to the next gzip header. -/
def plainChunk (img : Bytes) (st_size pos : Nat) : ImageChunk :=
  { ImageChunk.blank with
    type := CHUNK_NORMAL, start := pos, len := scanLen img pos (st_size - pos) 0,
    data := base + pos }

/-- The loop of `ReadImage`; the value is `none` when it returns NULL. -/
def readLoop (img : Bytes) (st_size : Nat) : Nat → Nat → Outcome (Option (List ImageChunk))
  | fuel, pos =>
    if pos < st_size then
      match fuel with
      | 0 => .spin
      | fuel + 1 =>
        if st_size - pos ≥ 4 ∧ slice img pos 4 = gzipMagic then do
          let some (chunks, pos') ← gzipChunks lib base malloc fuel img st_size pos | .done none
          let some rest ← readLoop img st_size fuel pos' | .done none
          .done (some (chunks ++ rest))
        else do
          let chunk := plainChunk base img st_size pos
          let some rest ← readLoop img st_size fuel (pos + chunk.len) | .done none
          .done (some (chunk :: rest))
    else .done (some [])

/-- `ReadImage` on a file with these bytes: the list of chunks. -/
def readImage (fuel : Nat) (file : Bytes) : Outcome (Option (List ImageChunk)) :=
  readLoop lib base malloc (file ++ [0, 0, 0, 0]) file.length fuel 0

end Model

/-! ## Images and their tiles -/

/-- The file has the four bytes at `pos`. -/
def MagicAt (file : Bytes) (pos : Nat) : Prop := slice file pos 4 = gzipMagic

instance (file : Bytes) (pos : Nat) : Decidable (MagicAt file pos) :=
  inferInstanceAs (Decidable (_ = _))

/-- A complete gzip member stands at `pos` and ends at `e`: its header, a deflate stream,
and a footer with the length of the data. -/
def GzipMember (lib : Inflater) (file : Bytes) (pos e : Nat) : Prop :=
  ∃ d k, lib.decode (file.drop (pos + GZIP_HEADER_LEN)) = some (d, k) ∧
    e = pos + GZIP_HEADER_LEN + k + GZIP_FOOTER_LEN ∧ e ≤ file.length ∧
    leNat (slice file (e - 4) 4) = d.length

/-- The scan goes on from `pos`: over a whole member, or over a byte. -/
inductive ScanStep (lib : Inflater) (file : Bytes) : Nat → Nat → Prop where
  | member {pos e} : MagicAt file pos → GzipMember lib file pos e → ScanStep lib file pos e
  | byte {pos} : pos < file.length → ¬MagicAt file pos → ScanStep lib file pos (pos + 1)

/-- The scan of the file comes to `pos`. -/
def ScanReaches (lib : Inflater) (file : Bytes) (pos : Nat) : Prop :=
  Relation.ReflTransGen (ScanStep lib file) 0 pos

/-- What the scan takes for a gzip member is one. -/
def WellFormedImage (lib : Inflater) (file : Bytes) : Prop :=
  ∀ pos, ScanReaches lib file pos → MagicAt file pos → ∃ e, GzipMember lib file pos e

/-- Outside a member, the file ends with the first three of the four bytes. -/
def TrailingMagic (lib : Inflater) (file : Bytes) : Prop :=
  ∃ pos, ScanReaches lib file pos ∧ file.drop pos = [0x1F, 0x8B, 0x08]

/-- The bytes of the file that a chunk stands for. -/
def ImageChunk.extent (c : ImageChunk) : Nat :=
  if c.type = CHUNK_DEFLATE then c.deflate_len else c.len

/-- The chunks start at `pos`, each where the one before it ends, and end at `e`. -/
def Tiled : Nat → List ImageChunk → Nat → Prop
  | pos, [], e => pos = e
  | pos, c :: chunks, e => c.start = pos ∧ Tiled (pos + c.extent) chunks e

/-- The chunk points to its own bytes of the file, which is at `base`. -/
def ImageChunk.InImage (base : Nat) (c : ImageChunk) : Prop :=
  c.type = CHUNK_NORMAL ∧ c.data = base + c.start ∨
    c.type = CHUNK_DEFLATE ∧ c.deflate_data = base + c.start

instance (base : Nat) (c : ImageChunk) : Decidable (c.InImage base) :=
  inferInstanceAs (Decidable (_ ∨ _))

/-- What is expected of the chunks of a file. -/
structure TilesFile (base : Nat) (file : Bytes) (chunks : List ImageChunk) : Prop where
  consecutive : Tiled 0 chunks file.length
  sum : (chunks.map ImageChunk.extent).sum = file.length
  in_image : ∀ c ∈ chunks, c.InImage base
  nonempty : ∀ c ∈ chunks, c.type = CHUNK_NORMAL → 0 < c.len
  flanked : ∀ a c b, chunks = a ++ c :: b → c.type = CHUNK_DEFLATE →
    (∃ a' header, a = a' ++ [header] ∧ header.type = CHUNK_NORMAL ∧ header.len = GZIP_HEADER_LEN) ∧
      ∃ footer b', b = footer :: b' ∧ footer.type = CHUNK_NORMAL ∧ footer.len = GZIP_FOOTER_LEN

/-- The chunks from `pos` to `e`: plain ones and the three of a gzip member. -/
inductive Cut (base : Nat) : Nat → List ImageChunk → Nat → Prop where
  | nil {pos} : Cut base pos [] pos
  | plain {pos e c rest} : c.type = CHUNK_NORMAL → c.start = pos → c.data = base + pos →
      0 < c.len → Cut base (pos + c.len) rest e → Cut base pos (c :: rest) e
  | member {pos e h d f rest} : h.type = CHUNK_NORMAL → h.start = pos → h.data = base + pos →
      h.len = GZIP_HEADER_LEN → d.type = CHUNK_DEFLATE → d.start = pos + GZIP_HEADER_LEN →
      d.deflate_data = base + (pos + GZIP_HEADER_LEN) → f.type = CHUNK_NORMAL →
      f.start = pos + GZIP_HEADER_LEN + d.deflate_len →
      f.data = base + (pos + GZIP_HEADER_LEN + d.deflate_len) → f.len = GZIP_FOOTER_LEN →
      Cut base (pos + GZIP_HEADER_LEN + d.deflate_len + GZIP_FOOTER_LEN) rest e →
      Cut base pos (h :: d :: f :: rest) e

section Tiles

variable {base : Nat} {chunks : List ImageChunk} {c : ImageChunk} {pos e : Nat}

theorem ImageChunk.extent_normal (h : c.type = CHUNK_NORMAL) : c.extent = c.len := by
  rw [extent, h]
  rfl

theorem ImageChunk.extent_deflate (h : c.type = CHUNK_DEFLATE) : c.extent = c.deflate_len := by
  rw [extent, h]
  rfl

theorem ImageChunk.InImage.data_normal (h : c.InImage base) (hc : c.type = CHUNK_NORMAL) :
    c.data = base + c.start := by
  rcases h with h | h
  · exact h.2
  · exact absurd (h.1.symm.trans hc) (by decide)

theorem ImageChunk.InImage.deflate_data (h : c.InImage base) (hc : c.type = CHUNK_DEFLATE) :
    c.deflate_data = base + c.start := by
  rcases h with h | h
  · exact absurd (h.1.symm.trans hc) (by decide)
  · exact h.2

theorem Tiled.sum (h : Tiled pos chunks e) : pos + (chunks.map ImageChunk.extent).sum = e := by
  induction chunks generalizing pos with
  | nil => exact h
  | cons c chunks ih =>
    rw [List.map_cons, List.sum_cons, ← Nat.add_assoc]
    exact ih h.2

theorem Tiled.append {rest : List ImageChunk} {m : Nat} (h : Tiled pos chunks m)
    (hrest : Tiled m rest e) : Tiled pos (chunks ++ rest) e := by
  induction chunks generalizing pos with
  | nil =>
    cases h
    exact hrest
  | cons c chunks ih => exact ⟨h.1, ih h.2⟩

theorem Cut.tiled (h : Cut base pos chunks e) : Tiled pos chunks e := by
  induction h with
  | nil => rfl
  | plain htype hstart _ _ _ ih =>
    refine ⟨hstart, ?_⟩
    rw [ImageChunk.extent_normal htype]
    exact ih
  | member hh hhs _ hhl hd hds _ hf hfs _ hfl _ ih =>
    refine ⟨hhs, ?_⟩
    rw [ImageChunk.extent_normal hh, hhl]
    refine ⟨hds, ?_⟩
    rw [ImageChunk.extent_deflate hd]
    refine ⟨hfs, ?_⟩
    rw [ImageChunk.extent_normal hf, hfl]
    exact ih

theorem Cut.in_image (h : Cut base pos chunks e) : ∀ c ∈ chunks, c.InImage base := by
  induction h with
  | nil => exact fun c hc => nomatch hc
  | plain htype hstart hdata _ _ ih =>
    intro c hc
    rcases List.mem_cons.mp hc with rfl | hc
    · exact .inl ⟨htype, by rw [hdata, hstart]⟩
    · exact ih c hc
  | member hh hhs hhd _ hd hds hdd hf hfs hfd _ _ ih =>
    intro c hc
    rcases List.mem_cons.mp hc with rfl | hc
    · exact .inl ⟨hh, by rw [hhd, hhs]⟩
    rcases List.mem_cons.mp hc with rfl | hc
    · exact .inr ⟨hd, by rw [hdd, hds]⟩
    rcases List.mem_cons.mp hc with rfl | hc
    · exact .inl ⟨hf, by rw [hfd, hfs]⟩
    · exact ih c hc

theorem Cut.nonempty (h : Cut base pos chunks e) :
    ∀ c ∈ chunks, c.type = CHUNK_NORMAL → 0 < c.len := by
  induction h with
  | nil => exact fun c hc => nomatch hc
  | plain _ _ _ hlen _ ih =>
    intro c hc htype
    rcases List.mem_cons.mp hc with rfl | hc
    · exact hlen
    · exact ih c hc htype
  | member hh _ _ hhl hd _ _ hf _ _ hfl _ ih =>
    intro c hc htype
    rcases List.mem_cons.mp hc with rfl | hc
    · rw [hhl]
      decide
    rcases List.mem_cons.mp hc with rfl | hc
    · exact absurd (hd.symm.trans htype) (by decide)
    rcases List.mem_cons.mp hc with rfl | hc
    · rw [hfl]
      decide
    · exact ih c hc htype

theorem Cut.flanked (h : Cut base pos chunks e) (a : List ImageChunk) (c : ImageChunk)
    (b : List ImageChunk) (heq : chunks = a ++ c :: b) (hc : c.type = CHUNK_DEFLATE) :
    (∃ a' header, a = a' ++ [header] ∧ header.type = CHUNK_NORMAL ∧ header.len = GZIP_HEADER_LEN) ∧
      ∃ footer b', b = footer :: b' ∧ footer.type = CHUNK_NORMAL ∧ footer.len = GZIP_FOOTER_LEN := by
  have hne : ∀ {x : ImageChunk}, x.type = CHUNK_NORMAL → x ≠ c := by
    rintro x hx rfl
    exact absurd (hx.symm.trans hc) (by decide)
  induction h generalizing a with
  | nil => exact absurd heq (by simp)
  | @plain _ _ x _ htype _ _ _ _ ih =>
    cases a with
    | nil => exact absurd (List.cons.inj heq).1 (hne htype)
    | cons y a =>
      obtain ⟨⟨a', header, rfl, hheader⟩, hfooter⟩ := ih a (List.cons.inj heq).2
      exact ⟨⟨y :: a', header, rfl, hheader⟩, hfooter⟩
  | @member _ _ header dfl footer rest hh _ _ hhl hd _ _ hf _ _ hfl _ ih =>
    cases a with
    | nil => exact absurd (List.cons.inj heq).1 (hne hh)
    | cons y a =>
      obtain ⟨hy, htail⟩ := List.cons.inj heq
      subst hy
      cases a with
      | nil =>
        obtain ⟨-, hb⟩ := List.cons.inj htail
        exact ⟨⟨[], header, rfl, hh, hhl⟩, footer, rest, hb.symm, hf, hfl⟩
      | cons y' a =>
        obtain ⟨hy', htail'⟩ := List.cons.inj htail
        subst hy'
        cases a with
        | nil => exact absurd (List.cons.inj htail').1 (hne hf)
        | cons y'' a =>
          obtain ⟨⟨a', last, rfl, hlast⟩, hfooter⟩ := ih a (List.cons.inj htail').2
          exact ⟨⟨header :: dfl :: y'' :: a', last, rfl, hlast⟩, hfooter⟩

theorem Cut.tilesFile {file : Bytes} (h : Cut base 0 chunks file.length) :
    TilesFile base file chunks :=
  ⟨h.tiled, by rw [← h.tiled.sum, Nat.zero_add], h.in_image, h.nonempty, h.flanked⟩

end Tiles

/-! ## The inflater's loop -/

section Inflate

variable (lib : Inflater)

/-- A stream that delivers `d` is read to its end, when the loop may run often enough. -/
theorem inflateLoop_delivers (fuel : Nat) {allocated len left : Nat} {strm : lib.Stream}
    {d : Bytes} (hd : lib.Delivers strm d left) (hroom : len < allocated) :
    (inflateLoop lib fuel allocated len strm = .spin ∧ fuel ≤ d.length) ∨
      ∃ strm', inflateLoop lib fuel allocated len strm = .done (len + d.length, strm') ∧
        lib.avail_in strm' = left := by
  induction fuel generalizing allocated len strm d with
  | zero => exact .inl ⟨rfl, Nat.zero_le _⟩
  | succ fuel ih =>
    rw [inflateLoop]
    rcases lib.call hd (Nat.sub_pos_of_lt hroom) with
      ⟨strm', hcall, hfit, havail⟩ | ⟨ret, out, rest, strm', hcall, hret, hout, hfit, rfl, hrest⟩
    · rw [hcall]
      exact .inr ⟨strm', if_neg (by simp), havail⟩
    · rw [hcall]
      dsimp only
      rw [if_pos hret, List.length_append]
      have hpos : 0 < out.length := List.length_pos_of_ne_nil hout
      have hnext : len + out.length <
          if allocated - (len + out.length) = 0 then allocated * 2 else allocated := by
        split_ifs with hfull <;> omega
      rcases ih hrest hnext with ⟨hspin, hfuel⟩ | ⟨strm'', hdone, havail⟩
      · exact .inl ⟨hspin, by omega⟩
      · exact .inr ⟨strm'', by rw [hdone, Nat.add_assoc], havail⟩

end Inflate

/-! ## The scan -/

/-- Before the place where the scan stops there is no magic; it stops there because of it,
or at the end. -/
theorem scanLen_spec (img : Bytes) (pos n len : Nat) :
    (∀ j, len ≤ j → j < scanLen img pos n len → slice img (pos + j) 4 ≠ gzipMagic) ∧
      len ≤ scanLen img pos n len ∧ scanLen img pos n len ≤ len + n ∧
      (scanLen img pos n len < len + n → slice img (pos + scanLen img pos n len) 4 = gzipMagic) := by
  induction n generalizing len with
  | zero => exact ⟨fun j hj hlt => absurd hlt (Nat.not_lt.mpr hj), le_rfl, le_rfl, fun h => absurd h (lt_irrefl _)⟩
  | succ n ih =>
    rw [scanLen]
    by_cases hmagic : slice img (pos + len) 4 = gzipMagic
    · rw [if_pos hmagic]
      exact ⟨fun j hj hlt => absurd hlt (Nat.not_lt.mpr hj), le_rfl, Nat.le_add_right _ _,
        fun _ => hmagic⟩
    · rw [if_neg hmagic]
      obtain ⟨hbefore, hle, hup, hstop⟩ := ih (len + 1)
      refine ⟨fun j hj hlt => ?_, Nat.le_of_succ_le hle, by rwa [Nat.add_right_comm] at hup, ?_⟩
      · rcases Nat.eq_or_lt_of_le hj with rfl | hj
        · exact hmagic
        · exact hbefore j hj hlt
      · rwa [Nat.add_right_comm] at hstop

section Scan

variable {lib : Inflater} {file : Bytes} {pos e : Nat}

theorem MagicAt.lt (h : MagicAt file pos) : pos + 4 ≤ file.length := by
  have hlen := congrArg List.length h
  rw [slice, List.length_take, List.length_drop] at hlen
  change min 4 (file.length - pos) = 4 at hlen
  omega

/-- With the four zeros behind the file, the first three bytes at the end look like all four. -/
theorem slice_padded (hpos : pos < file.length) :
    slice (file ++ [0, 0, 0, 0]) pos 4 = gzipMagic ↔
      MagicAt file pos ∨ file.drop pos = [0x1F, 0x8B, 0x08] := by
  rw [MagicAt, slice, slice, List.drop_append_of_le_length hpos.le]
  have hne : file.drop pos ≠ [] := by
    rw [Ne, List.drop_eq_nil_iff]
    exact Nat.not_le.mpr hpos
  generalize file.drop pos = tail at hne
  rcases tail with _ | ⟨a, _ | ⟨b, _ | ⟨c, _ | ⟨d, tail⟩⟩⟩⟩
  · exact absurd rfl hne
  all_goals simp [gzipMagic]

theorem GzipMember.lt (h : GzipMember lib file pos e) : pos < e := by
  obtain ⟨d, k, -, rfl, -⟩ := h
  rw [GZIP_HEADER_LEN, GZIP_FOOTER_LEN]
  omega

theorem GzipMember.unique {e' : Nat} (h : GzipMember lib file pos e)
    (h' : GzipMember lib file pos e') : e = e' := by
  obtain ⟨d, k, hdecode, rfl, -⟩ := h
  obtain ⟨d', k', hdecode', rfl, -⟩ := h'
  cases hdecode.symm.trans hdecode'
  rfl

theorem ScanStep.lt (h : ScanStep lib file pos e) : pos < e := by
  cases h with
  | member _ hmember => exact hmember.lt
  | byte => exact Nat.lt_succ_self _

theorem ScanStep.le_length (h : ScanStep lib file pos e) : e ≤ file.length := by
  cases h with
  | member _ hmember =>
    obtain ⟨-, -, -, -, he, -⟩ := hmember
    exact he
  | byte hpos => exact hpos

theorem ScanStep.unique : Relator.RightUnique (ScanStep lib file) := by
  intro pos e e' h h'
  cases h with
  | member hmagic hmember =>
    cases h' with
    | member _ hmember' => exact hmember.unique hmember'
    | byte _ hno => exact absurd hmagic hno
  | byte _ hno =>
    cases h' with
    | member hmagic _ => exact absurd hmagic hno
    | byte => rfl

theorem scan_le (h : Relation.ReflTransGen (ScanStep lib file) pos e) : pos ≤ e := by
  induction h with
  | refl => exact le_rfl
  | tail _ hstep ih => exact ih.trans hstep.lt.le

theorem ScanReaches.le_length (h : ScanReaches lib file pos) : pos ≤ file.length := by
  cases h with
  | refl => exact Nat.zero_le _
  | tail _ hstep => exact hstep.le_length

/-- The scan goes over bytes at which there is no magic. -/
theorem scan_bytes {l : Nat} (hl : pos + l ≤ file.length)
    (hno : ∀ j, j < l → ¬MagicAt file (pos + j)) :
    Relation.ReflTransGen (ScanStep lib file) pos (pos + l) := by
  induction l with
  | zero => exact .refl
  | succ l ih =>
    exact (ih (by omega) fun j hj => hno j (by omega)).tail
      (.byte (by omega) (hno l (Nat.lt_succ_self l)))

/-- Of two places that the scan comes to, the greater comes after the lesser. -/
theorem scan_between {p q t : Nat} (hq : Relation.ReflTransGen (ScanStep lib file) p q)
    (ht : Relation.ReflTransGen (ScanStep lib file) p t) (h : q ≤ t) :
    Relation.ReflTransGen (ScanStep lib file) q t := by
  rcases Relation.ReflTransGen.total_of_right_unique ScanStep.unique hq ht with hqt | htq
  · exact hqt
  · obtain rfl : q = t := le_antisymm h (scan_le htq)
    exact .refl

end Scan

/-! ## One round of the loop -/

section Round

variable {lib : Inflater} {base : Nat} {malloc : Nat → Nat} {file : Bytes} {pos e : Nat}

theorem slice_file (p : Nat) (hp : p ≤ file.length) :
    slice (file ++ [0, 0, 0, 0]) p (file.length - p) = file.drop p := by
  rw [slice, List.drop_append_of_le_length hp, List.take_append_of_le_length (by simp)]
  exact List.take_of_length_le (by simp)

/-- The chunks of a member at `pos`, with `k` deflated bytes of `n` bytes of data. -/
def memberChunks (base : Nat) (malloc : Nat → Nat) (pos n k : Nat) : List ImageChunk :=
  let body := pos + GZIP_HEADER_LEN
  [{ ImageChunk.blank with
      type := CHUNK_NORMAL, start := pos, len := GZIP_HEADER_LEN, data := base + pos },
    { ImageChunk.blank with
      type := CHUNK_DEFLATE, start := body, len := n, data := malloc body,
      deflate_len := k, deflate_data := base + body },
    { ImageChunk.blank with
      type := CHUNK_NORMAL, start := body + k, len := GZIP_FOOTER_LEN, data := base + (body + k) }]

theorem memberChunks_cut {n k : Nat} {rest : List ImageChunk}
    (h : Cut base (pos + GZIP_HEADER_LEN + k + GZIP_FOOTER_LEN) rest e) :
    Cut base pos (memberChunks base malloc pos n k ++ rest) e :=
  .member rfl rfl rfl rfl rfl rfl rfl rfl rfl rfl rfl h

theorem memberChunks_tiled (n k : Nat) :
    Tiled pos (memberChunks base malloc pos n k) (pos + GZIP_HEADER_LEN + k + GZIP_FOOTER_LEN) ∧
      ∀ c ∈ memberChunks base malloc pos n k, c.InImage base := by
  have hcut : Cut base pos (memberChunks base malloc pos n k ++ []) _ := memberChunks_cut .nil
  rw [List.append_nil] at hcut
  exact ⟨hcut.tiled, hcut.in_image⟩

/-- Whatever is taken for a gzip member, its chunks go on from one another. -/
theorem gzipChunks_shape {img : Bytes} {st_size fuel : Nat} {chunks : List ImageChunk}
    (h : gzipChunks lib base malloc fuel img st_size pos = .done (some (chunks, e))) :
    ∃ n k, chunks = memberChunks base malloc pos n k ∧
      e = pos + GZIP_HEADER_LEN + k + GZIP_FOOTER_LEN := by
  obtain ⟨⟨len, strm'⟩, -, h⟩ := Outcome.bind_eq_done.mp h
  obtain ⟨footer_size, -, h⟩ := Outcome.bind_eq_done.mp h
  split_ifs at h with hfooter
  · cases h
  · cases h
    exact ⟨len, _, rfl, rfl⟩

/-- A member with a correct footer gives its three chunks, and the position behind it. -/
theorem gzipChunks_member (hsize : file.length < 2 ^ 31) (h : GzipMember lib file pos e) :
    ∃ n k, e = pos + GZIP_HEADER_LEN + k + GZIP_FOOTER_LEN ∧ ∀ fuel,
      gzipChunks lib base malloc fuel (file ++ [0, 0, 0, 0]) file.length pos = .spin ∧ fuel ≤ n ∨
        gzipChunks lib base malloc fuel (file ++ [0, 0, 0, 0]) file.length pos =
          .done (some (memberChunks base malloc pos n k, e)) := by
  obtain ⟨d, k, hdecode, rfl, hend, hfooter⟩ := h
  have hheader : GZIP_HEADER_LEN = 10 := rfl
  have hfoot : GZIP_FOOTER_LEN = 8 := rfl
  have hbody : pos + GZIP_HEADER_LEN ≤ file.length := by omega
  have hin : toU32 (file.length - (pos + GZIP_HEADER_LEN : Nat)) =
      file.length - (pos + GZIP_HEADER_LEN) := by
    rw [← Nat.cast_sub hbody]
    exact toU32_of_range (by omega)
  have hopen := @lib.opened (file ++ [0, 0, 0, 0]) (pos + GZIP_HEADER_LEN)
    (file.length - (pos + GZIP_HEADER_LEN)) d k (by rwa [slice_file _ hbody]) (by omega)
  have hlen : toU32 ((file.length : Int) -
      (file.length - (pos + GZIP_HEADER_LEN) - k : Nat) - (pos + GZIP_HEADER_LEN : Nat)) = k := by
    have hk : (file.length : Int) - (file.length - (pos + GZIP_HEADER_LEN) - k : Nat) -
        (pos + GZIP_HEADER_LEN : Nat) = k := by omega
    rw [hk]
    exact toU32_of_range (by omega)
  have hread : read4 (file ++ [0, 0, 0, 0])
      ((pos + GZIP_HEADER_LEN + k + GZIP_FOOTER_LEN : Nat) - 4) = .done (wrap32 d.length) := by
    have hat : ((pos + GZIP_HEADER_LEN + k + GZIP_FOOTER_LEN : Nat) : Int) - 4 =
        (pos + GZIP_HEADER_LEN + k + GZIP_FOOTER_LEN - 4 : Nat) := by omega
    rw [read4, hat, load_ofNat (by rw [List.length_append]; omega), Outcome.done_bind, ← hfooter,
      slice, slice, List.drop_append_of_le_length (by omega),
      List.take_append_of_le_length (by rw [List.length_drop]; omega)]
  have hdata : d.length < 2 ^ 32 := by
    rw [← hfooter]
    refine (leNat_lt _).trans_le ?_
    exact Nat.pow_le_pow_right (by decide) (slice_length_le _ _ _)
  refine ⟨d.length, k, rfl, fun fuel => ?_⟩
  rw [gzipChunks, hin]
  rcases inflateLoop_delivers lib fuel hopen (by decide : 0 < 32768) with
    ⟨hspin, hfuel⟩ | ⟨strm', hdone, havail⟩
  · exact .inl ⟨by rw [hspin]; rfl, hfuel⟩
  · right
    rw [hdone, Outcome.done_bind]
    dsimp only
    rw [havail, hlen, hread, Outcome.done_bind, toU32_wrap32 hdata, Nat.zero_add,
      if_neg (by simp)]
    rfl

end Round

/-! ## The whole file -/

section File

variable {lib : Inflater} {base : Nat} {malloc : Nat → Nat} {file : Bytes} {pos e : Nat}

/-- The test of the outer loop is the one for the four bytes of the file. -/
theorem outer_iff (hpos : pos < file.length) :
    (file.length - pos ≥ 4 ∧ slice (file ++ [0, 0, 0, 0]) pos 4 = gzipMagic) ↔
      MagicAt file pos := by
  constructor
  · rintro ⟨hroom, hmagic⟩
    rcases (slice_padded hpos).mp hmagic with h | h
    · exact h
    · have := congrArg List.length h
      rw [List.length_drop] at this
      exact absurd this (by simp; omega)
  · intro h
    have := h.lt
    exact ⟨by omega, (slice_padded hpos).mpr (.inl h)⟩

theorem readLoop_member (fuel : Nat) (hmagic : MagicAt file pos) :
    readLoop lib base malloc (file ++ [0, 0, 0, 0]) file.length (fuel + 1) pos = (do
      let some (chunks, pos') ←
        gzipChunks lib base malloc fuel (file ++ [0, 0, 0, 0]) file.length pos | .done none
      let some rest ←
        readLoop lib base malloc (file ++ [0, 0, 0, 0]) file.length fuel pos' | .done none
      .done (some (chunks ++ rest))) := by
  have hpos : pos < file.length := by have := hmagic.lt; omega
  rw [readLoop, if_pos hpos, if_pos ((outer_iff hpos).mpr hmagic)]

theorem readLoop_plain (fuel : Nat) (hpos : pos < file.length) (hmagic : ¬MagicAt file pos) :
    readLoop lib base malloc (file ++ [0, 0, 0, 0]) file.length (fuel + 1) pos = (do
      let chunk := plainChunk base (file ++ [0, 0, 0, 0]) file.length pos
      let some rest ← readLoop lib base malloc (file ++ [0, 0, 0, 0]) file.length fuel
        (pos + chunk.len) | .done none
      .done (some (chunk :: rest))) := by
  rw [readLoop, if_pos hpos, if_neg (mt (outer_iff hpos).mp hmagic)]

theorem readLoop_end (fuel : Nat) (hpos : ¬pos < file.length) :
    readLoop lib base malloc (file ++ [0, 0, 0, 0]) file.length fuel pos = .done (some []) := by
  cases fuel with
  | zero => rw [readLoop, if_neg hpos]
  | succ fuel => rw [readLoop, if_neg hpos]

theorem plainChunk_len (img : Bytes) (st_size : Nat) :
    (plainChunk base img st_size pos).len = scanLen img pos (st_size - pos) 0 := rfl

/-- The scan of the file goes to the end of a plain chunk. -/
theorem plainChunk_scan (hpos : pos ≤ file.length) :
    Relation.ReflTransGen (ScanStep lib file) pos
      (pos + (plainChunk base (file ++ [0, 0, 0, 0]) file.length pos).len) := by
  obtain ⟨hbefore, -, hup, -⟩ := scanLen_spec (file ++ [0, 0, 0, 0]) pos (file.length - pos) 0
  rw [plainChunk_len]
  refine scan_bytes (by omega) fun j hj hmagic => ?_
  have hlt := hmagic.lt
  exact hbefore j (Nat.zero_le _) hj ((slice_padded (by omega)).mpr (.inl hmagic))

/-- A plain chunk is empty only where the end of the file looks like the magic. -/
theorem plainChunk_len_pos (hpos : pos < file.length) (hmagic : ¬MagicAt file pos)
    (htrail : file.drop pos ≠ [0x1F, 0x8B, 0x08]) :
    0 < (plainChunk base (file ++ [0, 0, 0, 0]) file.length pos).len := by
  obtain ⟨-, -, -, hstop⟩ := scanLen_spec (file ++ [0, 0, 0, 0]) pos (file.length - pos) 0
  rw [plainChunk_len]
  refine Nat.pos_of_ne_zero fun hzero => ?_
  rw [hzero, Nat.add_zero] at hstop
  rcases (slice_padded hpos).mp (hstop (by omega)) with h | h
  · exact hmagic h
  · exact htrail h

/-- Where no end of the scan looks like the magic, the loop ends with a cut of the file. -/
theorem readLoop_cut (hsize : file.length < 2 ^ 31) (hwf : WellFormedImage lib file)
    (htrail : ¬TrailingMagic lib file) (hreach : ScanReaches lib file pos) :
    ∃ N chunks, Cut base pos chunks file.length ∧ ∀ fuel, N ≤ fuel →
      readLoop lib base malloc (file ++ [0, 0, 0, 0]) file.length fuel pos = .done (some chunks) := by
  induction hn : file.length - pos using Nat.strong_induction_on generalizing pos with
  | _ n ih =>
    subst hn
    rcases Nat.eq_or_lt_of_le hreach.le_length with rfl | hpos
    · exact ⟨0, [], .nil, fun fuel _ => readLoop_end fuel (lt_irrefl _)⟩
    by_cases hmagic : MagicAt file pos
    · obtain ⟨e, hmember⟩ := hwf pos hreach hmagic
      have hlt := hmember.lt
      obtain ⟨N, rest, hcut, hrest⟩ := ih (file.length - e) (by omega)
        (hreach.tail (.member hmagic hmember)) rfl
      obtain ⟨n, k, rfl, hchunks⟩ := @gzipChunks_member lib base malloc file pos e hsize hmember
      refine ⟨max (n + 1) N + 1, memberChunks base malloc pos n k ++ rest, memberChunks_cut hcut,
        fun fuel hfuel => ?_⟩
      obtain ⟨fuel, rfl⟩ := Nat.exists_eq_succ_of_ne_zero (Nat.ne_zero_of_lt hfuel)
      have hboth := max_le_iff.mp (Nat.le_of_succ_le_succ hfuel)
      rw [readLoop_member fuel hmagic]
      rcases hchunks fuel with ⟨-, hshort⟩ | hdone
      · exact absurd hboth.1 (Nat.not_le.mpr (Nat.lt_succ_of_le hshort))
      · rw [hdone, Outcome.done_bind]
        dsimp only
        rw [hrest fuel hboth.2]
        rfl
    · have hlen := @plainChunk_len_pos base file pos hpos hmagic fun h => htrail ⟨pos, hreach, h⟩
      have hnext : ScanReaches lib file _ := hreach.trans (@plainChunk_scan lib base file pos hpos.le)
      obtain ⟨N, rest, hcut, hrest⟩ := ih _ (by have := hnext.le_length; omega) hnext rfl
      refine ⟨N + 1, _ :: rest, .plain rfl rfl rfl hlen hcut, fun fuel hfuel => ?_⟩
      obtain ⟨fuel, rfl⟩ := Nat.exists_eq_succ_of_ne_zero (Nat.ne_zero_of_lt hfuel)
      rw [readLoop_plain fuel hpos hmagic]
      dsimp only
      rw [hrest fuel (Nat.le_of_succ_le_succ hfuel)]
      rfl

/-- The loop never gets past an end of the file that looks like the magic. -/
theorem readLoop_spins (hsize : file.length < 2 ^ 31) {t : Nat}
    (htail : file.drop t = [0x1F, 0x8B, 0x08])
    (hreach : Relation.ReflTransGen (ScanStep lib file) pos t) (hwf : WellFormedImage lib file)
    (hpos : ScanReaches lib file pos) (fuel : Nat) :
    readLoop lib base malloc (file ++ [0, 0, 0, 0]) file.length fuel pos = .spin := by
  have hlast : t + 3 = file.length := by
    have := congrArg List.length htail
    rw [List.length_drop] at this
    simp at this
    omega
  have hle := scan_le hreach
  induction fuel generalizing pos with
  | zero => rw [readLoop, if_pos (by omega)]
  | succ fuel ih =>
    by_cases hmagic : MagicAt file pos
    · rw [readLoop_member fuel hmagic]
      obtain ⟨e, hmember⟩ := hwf pos hpos hmagic
      obtain ⟨n, k, -, hchunks⟩ := @gzipChunks_member lib base malloc file pos e hsize hmember
      rcases hchunks fuel with ⟨hspin, -⟩ | hdone
      · rw [hspin]
        rfl
      have hstep : ScanStep lib file pos e := .member hmagic hmember
      have hafter : Relation.ReflTransGen (ScanStep lib file) e t := by
        rcases Relation.ReflTransGen.cases_head hreach with rfl | ⟨e', hstep', hrest⟩
        · exact absurd hmagic.lt (by omega)
        · rwa [ScanStep.unique hstep hstep']
      rw [hdone, Outcome.done_bind]
      dsimp only
      rw [ih hafter (hpos.tail hstep) (scan_le hafter)]
      rfl
    · rw [readLoop_plain fuel (by omega) hmagic]
      have hscan := @plainChunk_scan lib base file pos (by omega)
      -- the scan of the chunk does not go past `t`, where it sees the magic
      have hstop : pos + (plainChunk base (file ++ [0, 0, 0, 0]) file.length pos).len ≤ t := by
        obtain ⟨hbefore, -⟩ := scanLen_spec (file ++ [0, 0, 0, 0]) pos (file.length - pos) 0
        by_contra hpast
        rw [plainChunk_len] at hpast
        refine hbefore (t - pos) (Nat.zero_le _) (by omega) ?_
        rw [Nat.add_sub_cancel' hle]
        exact (slice_padded (by omega)).mpr (.inr htail)
      dsimp only
      rw [ih (scan_between hscan hreach hstop) (hpos.trans hscan) hstop]
      rfl

/-- `ReadImage` comes to an end, with chunks that tile the file, unless the file ends with
the first three bytes of a gzip header outside of a member: there the inner scan takes the
padding for the fourth, and the outer test does not. -/
theorem read_image_tiles_iff (lib : Inflater) (base : Nat) (malloc : Nat → Nat) (file : Bytes)
    (hsize : file.length < 2 ^ 31) (hwf : WellFormedImage lib file) :
    (∃ fuel chunks, readImage lib base malloc fuel file = .done (some chunks) ∧
      TilesFile base file chunks) ↔ ¬TrailingMagic lib file := by
  constructor
  · rintro ⟨fuel, chunks, hdone, -⟩ ⟨t, hreach, htail⟩
    have hspin := @readLoop_spins lib base malloc file 0 hsize t htail hreach hwf .refl fuel
    exact absurd (hdone.symm.trans hspin) (by simp)
  · intro htrail
    obtain ⟨N, chunks, hcut, hdone⟩ :=
      @readLoop_cut lib base malloc file 0 hsize hwf htrail .refl
    exact ⟨N, chunks, hdone N le_rfl, hcut.tilesFile⟩

/-- The chunks of any file go on from one another, and point to their bytes. -/
theorem readLoop_tiled {img : Bytes} {st_size fuel : Nat} {chunks : List ImageChunk}
    (h : readLoop lib base malloc img st_size fuel pos = .done (some chunks)) :
    (∃ e, Tiled pos chunks e) ∧ ∀ c ∈ chunks, c.InImage base := by
  induction fuel generalizing pos chunks with
  | zero =>
    rw [readLoop] at h
    split_ifs at h with hpos
    cases h
    exact ⟨⟨pos, rfl⟩, fun c hc => nomatch hc⟩
  | succ fuel ih =>
    rw [readLoop] at h
    split_ifs at h with hpos hmagic
    · obtain ⟨member, hmember, h⟩ := Outcome.bind_eq_done.mp h
      cases member with
      | none => cases h
      | some member =>
        obtain ⟨rest, hrest, h⟩ := Outcome.bind_eq_done.mp h
        cases rest with
        | none => cases h
        | some rest =>
          cases h
          obtain ⟨n, k, hchunks, hpos'⟩ := gzipChunks_shape hmember
          obtain ⟨⟨e, htiled⟩, hin⟩ := ih hrest
          have hshape := @memberChunks_tiled base malloc pos n k
          rw [hchunks]
          refine ⟨⟨e, hshape.1.append (hpos' ▸ htiled)⟩, fun c hc => ?_⟩
          rcases List.mem_append.mp hc with hc | hc
          · exact hshape.2 c hc
          · exact hin c hc
    · obtain ⟨rest, hrest, h⟩ := Outcome.bind_eq_done.mp h
      cases rest with
      | none => cases h
      | some rest =>
        cases h
        obtain ⟨⟨e, htiled⟩, hin⟩ := ih hrest
        refine ⟨⟨e, rfl, htiled⟩, fun c hc => ?_⟩
        rcases List.mem_cons.mp hc with rfl | hc
        · exact .inl ⟨rfl, rfl⟩
        · exact hin c hc
    · cases h
      exact ⟨⟨pos, rfl⟩, fun c hc => nomatch hc⟩

/-- The code of an empty deflate stream. -/
def emptyDeflate : CodeTable where
  entries := [([], [0x03, 0x00])]
  marked := by simp
  prefixFree := by decide

/-- A gzip member without data. -/
def emptyMember : Bytes :=
  [0x1F, 0x8B, 0x08, 0x00, 0, 0, 0, 0, 0, 0, 0x03, 0x00, 0, 0, 0, 0, 0, 0, 0, 0]

theorem read_image_tiles_member :
    ∃ fuel chunks, readImage (.ofTable emptyDeflate) 0 (fun _ => 0) fuel emptyMember =
      .done (some chunks) ∧ TilesFile 0 emptyMember chunks := by
  refine (read_image_tiles_iff (.ofTable emptyDeflate) 0 (fun _ => 0) emptyMember (by decide)
    ?_).mpr ?_
  · intro pos _ hmagic
    have hzero : ∀ p < 20, MagicAt emptyMember p → p = 0 := by decide
    obtain rfl := hzero pos (by have := hmagic.lt; change pos + 4 ≤ 20 at this; omega) hmagic
    exact ⟨20, [], 2, by decide, rfl, by decide, by decide⟩
  · rintro ⟨pos, -, htail⟩
    have hnone : ∀ p < 20, emptyMember.drop p ≠ [0x1F, 0x8B, 0x08] := by decide
    refine hnone pos ?_ htail
    by_contra hpast
    rw [List.drop_eq_nil_of_le (not_lt.mp hpast)] at htail
    cases htail

/-- The three bytes that start a gzip header, at the end of a file: `ReadImage` adds empty
chunks for ever. -/
theorem read_image_stuck :
    ¬∀ (lib : Inflater) (base : Nat) (malloc : Nat → Nat) (file : Bytes), file.length < 2 ^ 31 →
      WellFormedImage lib file →
      ∃ fuel chunks, readImage lib base malloc fuel file = .done (some chunks) ∧
        TilesFile base file chunks := by
  intro h
  have hwf : WellFormedImage (.ofTable emptyDeflate) [0x1F, 0x8B, 0x08] := by
    intro pos _ hmagic
    exact absurd hmagic.lt (by simp)
  obtain ⟨fuel, chunks, hdone, -⟩ :=
    h (.ofTable emptyDeflate) 0 (fun _ => 0) [0x1F, 0x8B, 0x08] (by decide) hwf
  have hspin := @readLoop_spins (.ofTable emptyDeflate) 0 (fun _ => 0) [0x1F, 0x8B, 0x08] 0
    (by decide) 0 rfl .refl hwf .refl fuel
  exact absurd (hdone.symm.trans hspin) (by simp)

end File

end BootableRecovery.Applypatch
