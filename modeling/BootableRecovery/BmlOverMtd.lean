import BootableRecovery.Lib.CString
import BootableRecovery.Mtdutils

/-!
# `mtdutils/bml_over_mtd.c`: a partition with a reservoir of spare blocks

The bad blocks of a partition are mapped to blocks of a reservoir partition by a
table that is stored in the reservoir. `CreateBlockMapping` reads the table and
checks it; `flash_bml_partition` and `dump_bml_partition` write and read the
partition through it.

A device has the bytes of its partition and the answers to `MEMGETBADBLOCK`.
What goes wrong in the tries to write a block is a parameter. Calls that open
devices and files, and reads of good blocks, succeed.

Main results:
* `CreateBlockMapping_spec`: the mapping that is accepted has, for each block,
  the target of the last entry of the table that names it.
* `flashBlocks_eq`: writing that succeeds has stored all blocks at their places.
* `bml_roundtrip_iff`: for which tables dumping yields what was flashed.
-/

namespace BootableRecovery.BmlOverMtd

/-! ## Devices -/

/-- `MtdPartition`, the fields that are used. -/
structure MtdPartition extends Mtdutils.MtdPartition where
  device_index : Nat
  write_size : Nat

/-- The answer of `MEMGETBADBLOCK`; `unsupported` is the error `EOPNOTSUPP`. -/
inductive BadBlock where
  | good
  | bad
  | unsupported
  deriving DecidableEq, Repr

/-- A device: its bytes, and the answer for each of its erase blocks. -/
structure Mtd where
  content : Bytes
  badblock : Nat → BadBlock

/-- The devices by their number. -/
abbrev Devices := Nat → Mtd

/-- The `ioctl` at an offset. Outside the device it fails. -/
def MEMGETBADBLOCK (p : MtdPartition) (devs : Devices) (pos : Int) : BadBlock :=
  if pos < 0 ∨ (p.size : Int) ≤ pos then .bad
  else (devs p.device_index).badblock (pos.toNat / p.erase_size)

/-- The offset of a block, computed as an `unsigned int`. -/
def address (p : MtdPartition) (block : Nat) : Nat := toU32 ((block * p.erase_size : Nat) : Int)

/-- The number of erase blocks, `srcTotal/srcErase`. -/
def numBlocks (p : MtdPartition) : Nat := p.size / p.erase_size

/-! ## The mapping table -/

/-- The value an integer takes in an `unsigned short`. -/
def toU16 (x : Int) : Nat := (x % 2 ^ 16).toNat

/-- `mappings[i]`. -/
def mappings (buf : Bytes) (i : Nat) : Nat := leNat (slice buf (0x1000 + 2 * i) 2)

/-- The mark and the dummy entry at the start of the table. -/
def isTable (buf : Bytes) : Bool :=
  buf.take 4 = ascii "UPCH" && mappings buf 0 = 0 && mappings buf 1 = 0xffff

/-- The search for the table, from the end of the reservoir to its start. The
result has the offset of the block and its bytes. -/
def findTable (res : MtdPartition) (devs : Devices) : Nat → Int → Option (Int × Bytes)
  | 0, _ => none
  | fuel + 1, offset =>
    if offset ≤ 0 then none
    else
      let currOffset := offset - res.erase_size
      if MEMGETBADBLOCK res devs currOffset ≠ .good then findTable res devs fuel currOffset
      else
        match load (devs res.device_index).content currOffset res.erase_size with
        | .done buf =>
          if 0x2000 ≤ res.erase_size ∧ isTable buf then some (currOffset, buf)
          else findTable res devs fuel currOffset
        | _ => none

/-- The entries from index `i` on, up to the end mark; `fuel` is the number of
turns that the bound of 100 allows. -/
def entriesFrom (buf : Bytes) : Nat → Nat → List (Nat × Nat)
  | 0, _ => []
  | fuel + 1, i =>
    if mappings buf i = 0xffff then []
    else (mappings buf i, mappings buf (i + 1)) :: entriesFrom buf fuel (i + 2)

/-- The entries of the table: source block and reservoir block. -/
def entries (buf : Bytes) : List (Nat × Nat) := entriesFrom buf 49 2

section Mapping

variable (src res : MtdPartition) (srcPartStartBlock reservoirPartStartBlock : Int)

/-- The source block of an entry lies in the partition. -/
def inSource (entry : Nat × Nat) : Bool :=
  decide (srcPartStartBlock ≤ entry.1) &&
    decide ((entry.1 : Int) ≤ srcPartStartBlock + numBlocks src - 1)

/-- `relSrcBlk`. -/
def relSrcBlk (entry : Nat × Nat) : Nat := toU16 (entry.1 - srcPartStartBlock)

/-- `relDstBlk`. -/
def relDstBlk (entry : Nat × Nat) : Nat := toU16 (entry.2 - reservoirPartStartBlock)

/-- The reservoir block of an entry lies in front of the table. The products and
the sum are `unsigned int`. -/
def inReservoir (currOffset : Int) (entry : Nat × Nat) : Bool :=
  decide (reservoirPartStartBlock ≤ entry.2) &&
    decide (toU32 (entry.2 * res.erase_size) <
      toU32 (reservoirPartStartBlock * res.erase_size + currOffset))

/-- One turn of the loop over the entries. -/
def addEntry (currOffset : Int) (pMapping : List Nat) (entry : Nat × Nat) : Option (List Nat) :=
  if inReservoir res reservoirPartStartBlock currOffset entry then
    if inSource src srcPartStartBlock entry then
      some (pMapping.set (relSrcBlk srcPartStartBlock entry)
        (relDstBlk reservoirPartStartBlock entry))
    else some pMapping
  else none

/-- The check of one block: a good block has no mapping, a bad block is mapped to
a good one. -/
def blockValid (devs : Devices) (pMapping : List Nat) (currBlock : Nat) : Bool :=
  let target := pMapping.getD currBlock 0xffff
  if MEMGETBADBLOCK src devs (address src currBlock) = .good then target = 0xffff
  else target ≠ 0xffff && MEMGETBADBLOCK res devs (address res target) = .good

/-- `CreateBlockMapping`; `none` is the null pointer. -/
def CreateBlockMapping (devs : Devices) : Option (List Nat) :=
  if res.erase_size ≠ src.erase_size ∨ res.write_size ≠ src.write_size then none
  else if res.size < res.erase_size ∨ 2 ^ 31 - 1 < res.size then none
  else do
    let (currOffset, buf) ← findTable res devs (numBlocks res + 1) res.size
    let pMapping ← (entries buf).foldlM
      (addEntry src res srcPartStartBlock reservoirPartStartBlock currOffset)
      (List.replicate (numBlocks src) 0xffff)
    if (List.range (numBlocks src)).all (blockValid src res devs pMapping) then some pMapping
    else none

end Mapping

/-! ## Flashing -/

/-- The partition and the offset at which a block is stored. -/
def location (src res : MtdPartition) (target block : Nat) : MtdPartition × Nat :=
  if target = 0xffff then (src, address src block) else (res, address src target)

/-- What goes wrong in one try to write a block. `program` tells the byte that the
block has at the end of the try for each one that was to be written. -/
structure Try where
  erase_fails : Bool
  program : Nat → UInt8 → UInt8
  reread_fails : Bool

/-- A try in which nothing goes wrong. -/
def Try.ok : Try := ⟨false, fun _ c => c, false⟩

def Devices.store (devs : Devices) (p : MtdPartition) (pos : Nat) (block : Bytes) : Devices :=
  Function.update devs p.device_index
    { devs p.device_index with
      content := overwrite (devs p.device_index).content pos block }

/-- `MEMERASE` takes whole blocks of the device. -/
def erasable (p : MtdPartition) (pos size : Nat) : Prop :=
  pos % p.erase_size = 0 ∧ size % p.erase_size = 0 ∧ pos + size ≤ p.size

instance (p : MtdPartition) (pos size : Nat) : Decidable (erasable p pos size) :=
  inferInstanceAs (Decidable (_ ∧ _ ∧ _))

/-- One turn of the retry loop: erase, write, read back and compare. -/
def tryBlock (p : MtdPartition) (pos : Nat) (data : Bytes) (t : Try) (devs : Devices) :
    Devices × Bool :=
  if ¬ erasable p pos data.length then (devs, false)
  else
    let devs := devs.store p pos (data.mapIdx t.program)
    if t.erase_fails ∨ t.reread_fails then (devs, false)
    else (devs, slice (devs p.device_index).content pos data.length == data)

/-- `bml_over_mtd_write_block` at an offset; `none` is the return value -1. The
offset is an `off_t` of 32 bits. -/
def bml_over_mtd_write_block (p : MtdPartition) (pos : Nat) (data : Bytes) (tries : Try × Try)
    (devs : Devices) : Option Devices :=
  if 2 ^ 31 ≤ pos then none
  else if MEMGETBADBLOCK p devs pos = .bad then none
  else
    let (devs, ok) := tryBlock p pos data tries.1 devs
    if ok then some devs
    else
      let (devs, ok) := tryBlock p pos data tries.2 devs
      if ok then some devs else none

section Flash

variable (src res : MtdPartition) (blockMapping : List Nat) (tries : Nat → Try × Try)

/-- The loop over the blocks of the file, from block `currblock` on. -/
def flashBlocks : Nat → List Bytes → Devices → Outcome (Option Devices)
  | _, [], devs => .done (some devs)
  | currblock, block :: blocks, devs =>
    match blockMapping[currblock]? with
    | none => .fault
    | some target =>
      let (p, pos) := location src res target currblock
      if p.size < pos then .done none
      else
        match bml_over_mtd_write_block p pos block (tries currblock) devs with
        | none => .done none
        | some devs => flashBlocks (currblock + 1) blocks devs

/-- `flash_bml_partition`; `none` is the return value -1. -/
def flash_bml_partition (file : Bytes) (devs : Devices) : Outcome (Option Devices) :=
  if src.size < file.length then .done none
  else flashBlocks src res blockMapping tries 0 (paddedBlocks src.erase_size 0xff file) devs

end Flash

/-! ## Dumping -/

section Dump

variable (src res : MtdPartition) (blockMapping : List Nat) (devs : Devices)

/-- The loop over `n` blocks of the partition, from block `currblock` on. -/
def dumpBlocks : Nat → Nat → Outcome (Option Bytes)
  | 0, _ => .done (some [])
  | n + 1, currblock =>
    match blockMapping[currblock]? with
    | none => .fault
    | some target =>
      let (p, pos) := location src res target currblock
      if p.size < pos then .done none
      else
        match load (devs p.device_index).content pos src.erase_size with
        | .done block => do
          let image ← dumpBlocks n (currblock + 1)
          .done (image.map (block ++ ·))
        | _ => .done none

/-- `dump_bml_partition`; `none` is the return value -1. -/
def dump_bml_partition : Outcome (Option Bytes) :=
  dumpBlocks src res blockMapping devs (numBlocks src) 0

end Dump

/-! ## The mapping that is accepted -/

section Accepted

variable (src res : MtdPartition) (srcPartStartBlock reservoirPartStartBlock : Int)

/-- The entries of the table in the reservoir. -/
def tableOf (devs : Devices) : List (Nat × Nat) :=
  match findTable res devs (numBlocks res + 1) res.size with
  | some (_, buf) => entries buf
  | none => []

/-- The entries that name a block of the partition. -/
def names (block : Nat) (entry : Nat × Nat) : Bool :=
  inSource src srcPartStartBlock entry && relSrcBlk srcPartStartBlock entry == block

/-- The target of the last entry for a block, `0xffff` without one. -/
def lastTarget (table : List (Nat × Nat)) (block : Nat) : Nat :=
  ((table.filter (names src srcPartStartBlock block)).getLast?.map
    (relDstBlk reservoirPartStartBlock)).getD 0xffff

/-- The place of a block by the table in the reservoir. -/
def place (devs : Devices) (block : Nat) : MtdPartition × Nat :=
  location src res
    (lastTarget src srcPartStartBlock reservoirPartStartBlock (tableOf res devs) block) block

/-- Two places are the same physical block. -/
def SamePlace (a b : MtdPartition × Nat) : Prop :=
  a.1.device_index = b.1.device_index ∧ a.2 = b.2

/-- Whole blocks lie at all places, and no two blocks that can be reached by
writing have the same place. A block can be reached when it and the blocks before
it are at offsets that can be erased and that fit into an `off_t`. -/
def SeparatePlaces (place : Nat → MtdPartition × Nat) : Prop :=
  (∀ block < numBlocks src, (place block).2 + src.erase_size ≤ (place block).1.size) ∧
    ∀ block < numBlocks src,
      (∀ k ≤ block, (place k).2 < 2 ^ 31 ∧ (place k).2 % src.erase_size = 0) →
      ∀ k < block, ¬ SamePlace (place k) (place block)

/-- The table in the reservoir gives the blocks separate places. -/
def Separate (devs : Devices) : Prop :=
  SeparatePlaces src (place src res srcPartStartBlock reservoirPartStartBlock devs)

variable {src res srcPartStartBlock reservoirPartStartBlock}

theorem addEntry_eq_some {currOffset : Int} {pMapping pMapping' : List Nat} {entry : Nat × Nat}
    (h : addEntry src res srcPartStartBlock reservoirPartStartBlock currOffset pMapping entry =
      some pMapping') : pMapping' = if inSource src srcPartStartBlock entry then
        pMapping.set (relSrcBlk srcPartStartBlock entry)
          (relDstBlk reservoirPartStartBlock entry) else pMapping := by
  unfold addEntry at h
  split at h
  · split at h
    · rename_i hin
      rw [if_pos hin]
      exact (Option.some.inj h).symm
    · rename_i hout
      rw [if_neg hout]
      exact (Option.some.inj h).symm
  · cases h

/-- After the loop, each block has the target of its last entry. -/
theorem foldlM_addEntry {currOffset : Int} (table : List (Nat × Nat)) :
    ∀ {pMapping pMapping' : List Nat}, pMapping.length = numBlocks src →
      table.foldlM (addEntry src res srcPartStartBlock reservoirPartStartBlock currOffset)
        pMapping = some pMapping' →
      pMapping'.length = numBlocks src ∧ ∀ block < numBlocks src,
        pMapping'.getD block 0xffff = ((table.filter (names src srcPartStartBlock block)).getLast?.map
          (relDstBlk reservoirPartStartBlock)).getD (pMapping.getD block 0xffff) := by
  induction table with
  | nil =>
    intro pMapping pMapping' hlen h
    obtain rfl : pMapping = pMapping' := by simpa using h
    exact ⟨hlen, fun block _ => by simp⟩
  | cons entry table ih =>
    intro pMapping pMapping' hlen h
    rw [List.foldlM_cons] at h
    obtain ⟨mid, hmid, hrest⟩ := Option.bind_eq_some_iff.mp h
    have hmid := addEntry_eq_some hmid
    have hmidlen : mid.length = numBlocks src := by
      rw [hmid]
      split
      · rw [List.length_set, hlen]
      · exact hlen
    obtain ⟨hlen', hall⟩ := ih hmidlen hrest
    refine ⟨hlen', fun block hblock => ?_⟩
    rw [hall block hblock]
    cases hnames : names src srcPartStartBlock block entry with
    | true =>
      have hboth : inSource src srcPartStartBlock entry = true ∧
          relSrcBlk srcPartStartBlock entry = block := by
        simpa [names] using hnames
      rw [List.filter_cons_of_pos hnames, List.getLast?_cons, hmid, if_pos hboth.1, hboth.2]
      cases (table.filter (names src srcPartStartBlock block)).getLast? with
      | none => simp [hlen, hblock]
      | some last => rfl
    | false =>
      have hnot : ¬ names src srcPartStartBlock block entry = true := by simp [hnames]
      rw [List.filter_cons_of_neg hnot]
      congr 1
      rw [hmid]
      split
      · rename_i hin
        have hne : relSrcBlk srcPartStartBlock entry ≠ block := by
          intro heq
          simp [names, hin, heq] at hnames
        simp [List.getElem?_set_ne hne]
      · rfl

/-- The blocks of the partition are mapped to places, and `MEMGETBADBLOCK` answers
that these are good. -/
structure Maps (src res : MtdPartition) (devs : Devices) (pMapping : List Nat)
    (place : Nat → MtdPartition × Nat) : Prop where
  erase_size : ∀ k, (place k).1.erase_size = src.erase_size
  length : pMapping.length = numBlocks src
  location : ∀ k < numBlocks src, ∃ target, pMapping[k]? = some target ∧
    location src res target k = place k
  good : ∀ k < numBlocks src, MEMGETBADBLOCK (place k).1 devs (place k).2 = .good

/-- The mapping that is accepted maps the blocks to the places by the table. -/
theorem CreateBlockMapping_spec {devs : Devices} {pMapping : List Nat}
    (h : CreateBlockMapping src res srcPartStartBlock reservoirPartStartBlock devs =
      some pMapping) :
    Maps src res devs pMapping
      (place src res srcPartStartBlock reservoirPartStartBlock devs) := by
  unfold CreateBlockMapping at h
  split at h
  · cases h
  · rename_i hsizes
    split at h
    · cases h
    · rename_i hsize
      obtain ⟨⟨currOffset, buf⟩, hfind, h⟩ := Option.bind_eq_some_iff.mp h
      obtain ⟨mapping, hfold, h⟩ := Option.bind_eq_some_iff.mp h
      split at h
      · rename_i hvalid
        obtain rfl := Option.some.inj h
        have htable : tableOf res devs = entries buf := by
          unfold tableOf
          rw [hfind]
        obtain ⟨hlen, htarget⟩ := foldlM_addEntry (entries buf) List.length_replicate hfold
        rw [← htable] at htarget
        have herase : res.erase_size = src.erase_size := by
          by_contra hne
          exact hsizes (.inl hne)
        have hlast : ∀ block < numBlocks src, mapping.getD block 0xffff = lastTarget src
            srcPartStartBlock reservoirPartStartBlock (tableOf res devs) block := by
          intro block hblock
          rw [htarget block hblock]
          simp [lastTarget, hblock]
        refine ⟨fun block => ?_, hlen, fun block hblock => ⟨_, ?_, rfl⟩, fun block hblock => ?_⟩
        · unfold place location
          split
          · rfl
          · exact herase
        · rw [← hlast block hblock, List.getElem?_eq_getElem (by omega)]
          simp [hlen, hblock]
        · have hcheck := List.all_eq_true.mp hvalid block (List.mem_range.mpr hblock)
          unfold blockValid at hcheck
          rw [hlast block hblock] at hcheck
          unfold place location
          split at hcheck
          · rename_i hgood
            rw [if_pos (by simpa using hcheck)]
            exact hgood
          · simp only [ne_eq, decide_not, Bool.and_eq_true, Bool.not_eq_true',
              decide_eq_false_iff_not, decide_eq_true_eq] at hcheck
            rw [if_neg hcheck.1]
            have haddr : address src (lastTarget src srcPartStartBlock reservoirPartStartBlock
                (tableOf res devs) block) = address res (lastTarget src srcPartStartBlock
                reservoirPartStartBlock (tableOf res devs) block) := by
              unfold address
              rw [herase]
            simp only
            rw [haddr]
            exact hcheck.2
      · cases h

end Accepted

/-! ## Storing a block -/

section Store

variable {devs : Devices} {p : MtdPartition} {pos : Nat} {block : Bytes}

theorem store_content (devs : Devices) (p : MtdPartition) (pos : Nat) (block : Bytes) :
    (devs.store p pos block p.device_index).content =
      overwrite (devs p.device_index).content pos block := by
  simp [Devices.store]

theorem store_of_ne {d : Nat} (h : d ≠ p.device_index) : devs.store p pos block d = devs d := by
  simp [Devices.store, h]

theorem store_badblock (d : Nat) : (devs.store p pos block d).badblock = (devs d).badblock := by
  rcases eq_or_ne d p.device_index with rfl | hne
  · simp [Devices.store]
  · rw [store_of_ne hne]

theorem store_content_length (h : pos + block.length ≤ (devs p.device_index).content.length)
    (d : Nat) : (devs.store p pos block d).content.length = (devs d).content.length := by
  rcases eq_or_ne d p.device_index with rfl | hne
  · rw [store_content, overwrite_length h]
  · rw [store_of_ne hne]

theorem store_store {block' : Bytes} (h : pos + block.length ≤ (devs p.device_index).content.length)
    (hlen : block'.length = block.length) :
    (devs.store p pos block).store p pos block' = devs.store p pos block' := by
  have hsame := overwrite_overwrite h hlen
  unfold Devices.store
  rw [Function.update_idem, Function.update_self]
  simp only
  rw [hsame]

/-- What one try leaves: nothing has changed, or the block holds something. -/
theorem tryBlock_cases (p : MtdPartition) (pos : Nat) (data : Bytes) (t : Try) (devs : Devices) :
    (tryBlock p pos data t devs).1 = devs ∨ erasable p pos data.length ∧ ∃ block : Bytes,
      block.length = data.length ∧ (tryBlock p pos data t devs).1 = devs.store p pos block := by
  unfold tryBlock
  split
  · exact .inl rfl
  · rename_i h
    have herase := not_not.mp h
    split
    · exact .inr ⟨herase, _, List.length_mapIdx, rfl⟩
    · exact .inr ⟨herase, _, List.length_mapIdx, rfl⟩

/-- A try that succeeds has stored the data. -/
theorem tryBlock_ok {data : Bytes} {t : Try}
    (hsize : (devs p.device_index).content.length = p.size)
    (h : (tryBlock p pos data t devs).2 = true) :
    erasable p pos data.length ∧ (tryBlock p pos data t devs).1 = devs.store p pos data := by
  unfold tryBlock at h ⊢
  split at h
  · cases h
  · rename_i hcan
    have herase := not_not.mp hcan
    have hlen : (data.mapIdx t.program).length = data.length := List.length_mapIdx
    have hin : pos + (data.mapIdx t.program).length ≤ (devs p.device_index).content.length := by
      rw [hlen, hsize]
      exact herase.2.2
    rw [if_neg hcan]
    simp only at h ⊢
    split at h
    · cases h
    · rename_i hread
      have hback := slice_overwrite hin
      rw [hlen] at hback
      rw [store_content, hback] at h
      rw [if_neg hread]
      refine ⟨herase, ?_⟩
      simp only
      rw [eq_of_beq h]

theorem write_block_eq_some {data : Bytes} {tries : Try × Try} {devs' : Devices}
    (hsize : (devs p.device_index).content.length = p.size)
    (h : bml_over_mtd_write_block p pos data tries devs = some devs') :
    pos < 2 ^ 31 ∧ erasable p pos data.length ∧ devs' = devs.store p pos data := by
  unfold bml_over_mtd_write_block at h
  split at h
  · cases h
  · rename_i hpos
    split at h
    · cases h
    · simp only at h
      split at h
      · rename_i hok
        obtain ⟨herase, heq⟩ := tryBlock_ok hsize hok
        exact ⟨by omega, herase, by rw [← heq, Option.some.inj h]⟩
      · split at h
        · rename_i hok
          refine ⟨by omega, ?_⟩
          rcases tryBlock_cases p pos data tries.1 devs with hsame | hstored
          · rw [hsame] at hok h
            obtain ⟨herase, heq⟩ := tryBlock_ok hsize hok
            exact ⟨herase, by rw [← heq, Option.some.inj h]⟩
          · obtain ⟨herase, block, hlen, hstored⟩ := hstored
            have hin : pos + block.length ≤ (devs p.device_index).content.length := by
              rw [hlen, hsize]
              exact herase.2.2
            rw [hstored] at hok h
            obtain ⟨-, heq⟩ := tryBlock_ok (by rw [store_content_length hin, hsize]) hok
            rw [store_store hin hlen.symm] at heq
            exact ⟨herase, by rw [← heq, Option.some.inj h]⟩
        · cases h

/-- When nothing goes wrong, the block is written. -/
theorem write_block_ok {data : Bytes} (hsize : (devs p.device_index).content.length = p.size)
    (hpos : pos < 2 ^ 31) (hgood : MEMGETBADBLOCK p devs pos ≠ .bad)
    (herase : erasable p pos data.length) :
    bml_over_mtd_write_block p pos data (.ok, .ok) devs = some (devs.store p pos data) := by
  have hid : data.mapIdx Try.ok.program = data := List.ext_getElem? fun i => by simp [Try.ok]
  have hin : pos + data.length ≤ (devs p.device_index).content.length := by
    rw [hsize]
    exact herase.2.2
  have htry : tryBlock p pos data .ok devs = (devs.store p pos data, true) := by
    unfold tryBlock
    rw [if_neg (not_not.mpr herase), hid]
    simp only
    rw [if_neg (by simp [Try.ok]), store_content, slice_overwrite hin, beq_self_eq_true]
  unfold bml_over_mtd_write_block
  rw [if_neg (by omega), if_neg hgood]
  simp only
  rw [htry]
  rfl

end Store

/-! ## Storing all blocks of a file -/

/-- The bytes of a block at its place. -/
def Devices.block (devs : Devices) (size : Nat) (at_ : MtdPartition × Nat) : Bytes :=
  slice (devs at_.1.device_index).content at_.2 size

/-- Blocks are stored at the places from `k` on. -/
def storeAll (place : Nat → MtdPartition × Nat) : Nat → List Bytes → Devices → Devices
  | _, [], devs => devs
  | k, block :: blocks, devs =>
    storeAll place (k + 1) blocks (devs.store (place k).1 (place k).2 block)

section StoreAll

variable {place : Nat → MtdPartition × Nat} {size : Nat}

/-- The devices of all places have the sizes of their partitions. -/
def Sized (place : Nat → MtdPartition × Nat) (devs : Devices) : Prop :=
  ∀ k, (devs (place k).1.device_index).content.length = (place k).1.size

theorem Sized.store {devs : Devices} (h : Sized place devs) {k : Nat} {block : Bytes}
    (hin : (place k).2 + block.length ≤ (place k).1.size) :
    Sized place (devs.store (place k).1 (place k).2 block) := by
  intro j
  rw [store_content_length (by rw [h k]; exact hin), h j]

/-- Storing a block leaves the other aligned blocks as they are. -/
theorem block_store_of_ne {devs : Devices} (h : Sized place devs) {j k : Nat} {block : Bytes}
    (hlen : block.length = size) (herase : erasable (place k).1 (place k).2 size)
    (halign : (place k).1.erase_size = size) (haligned : (place j).2 % size = 0)
    (hne : ¬ SamePlace (place k) (place j)) :
    (devs.store (place k).1 (place k).2 block).block size (place j) =
      devs.block size (place j) := by
  unfold Devices.block
  rcases eq_or_ne (place j).1.device_index (place k).1.device_index with heq | hdev
  · have hpos : (place k).2 ≠ (place j).2 := fun hpos => hne ⟨heq.symm, hpos⟩
    have hk : (place k).2 % size = 0 := halign ▸ herase.1
    obtain ⟨a, ha⟩ := Nat.dvd_of_mod_eq_zero hk
    obtain ⟨b, hb⟩ := Nat.dvd_of_mod_eq_zero haligned
    have hin : (place k).2 + block.length ≤
        (devs (place k).1.device_index).content.length := by
      rw [h k, hlen]
      exact herase.2.2
    rw [heq, store_content]
    refine slice_overwrite_of_disjoint hin ?_
    rw [hlen, ha, hb]
    rcases Nat.lt_trichotomy a b with hlt | rfl | hlt
    · right
      calc size * a + size = size * (a + 1) := by rw [Nat.mul_succ]
        _ ≤ size * b := Nat.mul_le_mul_left size hlt
    · exact absurd (ha.trans hb.symm) hpos
    · left
      calc size * b + size = size * (b + 1) := by rw [Nat.mul_succ]
        _ ≤ size * a := Nat.mul_le_mul_left size hlt
  · rw [store_of_ne hdev]

theorem block_store {devs : Devices} (h : Sized place devs) {k : Nat} {block : Bytes}
    (hlen : block.length = size) (hin : (place k).2 + size ≤ (place k).1.size) :
    (devs.store (place k).1 (place k).2 block).block size (place k) = block := by
  unfold Devices.block
  rw [store_content, ← hlen, slice_overwrite (by rw [h k, hlen]; exact hin)]

/-- The blocks from `k` on can be stored. -/
def Writable (place : Nat → MtdPartition × Nat) (size k n : Nat) : Prop :=
  ∀ i, k ≤ i → i < k + n → (place i).1.erase_size = size ∧ (place i).2 < 2 ^ 31 ∧
    erasable (place i).1 (place i).2 size

theorem Writable.tail {k n : Nat} (h : Writable place size k (n + 1)) :
    Writable place size (k + 1) n :=
  fun i hi hlt => h i (by omega) (by omega)

/-- A block that is not stored to stays as it is. -/
theorem block_storeAll_of_ne {j : Nat} (haligned : (place j).2 % size = 0) (blocks : List Bytes) :
    ∀ {k : Nat} {devs : Devices}, Sized place devs → (∀ b ∈ blocks, b.length = size) →
      Writable place size k blocks.length →
      (∀ i, k ≤ i → i < k + blocks.length → ¬ SamePlace (place i) (place j)) →
      (storeAll place k blocks devs).block size (place j) = devs.block size (place j) := by
  induction blocks with
  | nil => exact fun _ _ _ _ => rfl
  | cons block blocks ih =>
    intro k devs hsized hlen hwrite hne
    obtain ⟨halign, -, herase⟩ := hwrite k le_rfl (by simp)
    have hblock := hlen block (List.mem_cons_self ..)
    have hin : (place k).2 + block.length ≤ (place k).1.size := by
      rw [hblock]
      exact herase.2.2
    rw [storeAll, ih (hsized.store hin) (fun b hb => hlen b (List.mem_cons_of_mem _ hb))
      hwrite.tail (fun i hi hlt => hne i (by omega) (by rw [List.length_cons]; omega)),
      block_store_of_ne hsized hblock herase halign haligned (hne k le_rfl (by simp))]

/-- With different places, every block is read back. -/
theorem block_storeAll (blocks : List Bytes) : ∀ {k : Nat} {devs : Devices}, Sized place devs →
    (∀ b ∈ blocks, b.length = size) → Writable place size k blocks.length →
    (∀ i j, k ≤ i → i < j → j < k + blocks.length → ¬ SamePlace (place i) (place j)) →
    ∀ i, (h : i < blocks.length) →
      (storeAll place k blocks devs).block size (place (k + i)) = blocks[i] := by
  induction blocks with
  | nil => exact fun _ _ _ _ i h => absurd h (Nat.not_lt_zero i)
  | cons block blocks ih =>
    intro k devs hsized hlen hwrite hne i hi
    obtain ⟨halign, -, herase⟩ := hwrite k le_rfl (by simp)
    have hblock := hlen block (List.mem_cons_self ..)
    have hblocks : ∀ b ∈ blocks, b.length = size := fun b hb => hlen b (List.mem_cons_of_mem _ hb)
    have hin : (place k).2 + block.length ≤ (place k).1.size := by
      rw [hblock]
      exact herase.2.2
    cases i with
    | zero =>
      have haligned : (place k).2 % size = 0 := halign ▸ herase.1
      have hother : ∀ i, k + 1 ≤ i → i < k + 1 + blocks.length →
          ¬ SamePlace (place i) (place k) := fun i hi hlt hsame =>
        hne k i le_rfl (by omega) (by rw [List.length_cons]; omega) ⟨hsame.1.symm, hsame.2.symm⟩
      have hzero : place (k + 0) = place k := rfl
      rw [storeAll, hzero, block_storeAll_of_ne haligned blocks (hsized.store hin) hblocks
        hwrite.tail hother, block_store hsized hblock (by rw [← hblock]; exact hin)]
      rfl
    | succ i =>
      have hrest := ih (hsized.store hin) hblocks hwrite.tail
        (fun a b ha hab hb => hne a b (by omega) hab (by rw [List.length_cons]; omega)) i
        (by simpa using hi)
      rw [storeAll, show k + (i + 1) = k + 1 + i by omega, hrest]
      rfl

theorem storeAll_sized (blocks : List Bytes) : ∀ {k : Nat} {devs : Devices}, Sized place devs →
    (∀ b ∈ blocks, b.length = size) → Writable place size k blocks.length →
    Sized place (storeAll place k blocks devs) := by
  induction blocks with
  | nil => exact fun h _ _ => h
  | cons block blocks ih =>
    intro k devs hsized hlen hwrite
    have hin : (place k).2 + block.length ≤ (place k).1.size := by
      rw [hlen block (List.mem_cons_self ..)]
      exact (hwrite k le_rfl (by simp)).2.2.2.2
    exact ih (hsized.store hin) (fun b hb => hlen b (List.mem_cons_of_mem _ hb)) hwrite.tail

end StoreAll

/-! ## Flashing and dumping through the mapping -/

section Run

variable {src res : MtdPartition} {devs₀ devs : Devices} {pMapping : List Nat}
  {place : Nat → MtdPartition × Nat}

/-- Flashing that succeeds has stored the blocks at their places. -/
theorem flashBlocks_eq (h : Maps src res devs₀ pMapping place) (tries : Nat → Try × Try)
    (blocks : List Bytes) : ∀ {k : Nat} {devs devs' : Devices}, Sized place devs →
      (∀ b ∈ blocks, b.length = src.erase_size) →
      flashBlocks src res pMapping tries k blocks devs = .done (some devs') →
      k + blocks.length ≤ max k (numBlocks src) ∧
        Writable place src.erase_size k blocks.length ∧ devs' = storeAll place k blocks devs := by
  induction blocks with
  | nil =>
    intro k devs devs' _ _ hrun
    exact ⟨le_max_left _ _, fun i hi hlt => absurd hlt (Nat.not_lt.mpr hi),
      (Option.some.inj (Outcome.done.inj hrun)).symm⟩
  | cons block blocks ih =>
    intro k devs devs' hsized hlen hrun
    rw [flashBlocks] at hrun
    split at hrun
    · cases hrun
    · rename_i target htarget
      have hk : k < numBlocks src := by
        rw [← h.length]
        exact (List.getElem?_eq_some_iff.mp htarget).1
      obtain ⟨target', htarget', hplace⟩ := h.location k hk
      obtain rfl := Option.some.inj (htarget.symm.trans htarget')
      rw [hplace] at hrun
      simp only at hrun
      split at hrun
      · cases hrun
      · split at hrun
        · cases hrun
        · rename_i mid hwrite
          obtain ⟨hpos, herase, rfl⟩ := write_block_eq_some (hsized k) hwrite
          have hblock := hlen block (List.mem_cons_self ..)
          obtain ⟨hnum, htail, hstore⟩ := ih (hsized.store herase.2.2)
            (fun b hb => hlen b (List.mem_cons_of_mem _ hb)) hrun
          rw [hblock] at herase
          refine ⟨by rw [List.length_cons]; omega, fun i hi hlt => ?_, hstore⟩
          rcases Nat.eq_or_lt_of_le hi with rfl | hi
          · exact ⟨h.erase_size k, hpos, herase⟩
          · exact htail i hi (by rw [List.length_cons] at hlt; omega)

/-- When nothing goes wrong, blocks that can be stored are flashed. -/
theorem flashBlocks_ok (h : Maps src res devs₀ pMapping place) (blocks : List Bytes) :
    ∀ {k : Nat} {devs : Devices}, Sized place devs →
      (∀ d, (devs d).badblock = (devs₀ d).badblock) →
      (∀ b ∈ blocks, b.length = src.erase_size) → k + blocks.length ≤ numBlocks src →
      Writable place src.erase_size k blocks.length →
      flashBlocks src res pMapping (fun _ => (.ok, .ok)) k blocks devs =
        .done (some (storeAll place k blocks devs)) := by
  induction blocks with
  | nil => exact fun _ _ _ _ _ => rfl
  | cons block blocks ih =>
    intro k devs hsized hbad hlen hnum hwrite
    rw [List.length_cons] at hnum
    obtain ⟨-, hpos, herase⟩ := hwrite k le_rfl (by simp)
    have hblock := hlen block (List.mem_cons_self ..)
    have hk : k < numBlocks src := by omega
    have hgood : MEMGETBADBLOCK (place k).1 devs (place k).2 ≠ .bad := by
      have hacc := h.good k hk
      unfold MEMGETBADBLOCK at hacc ⊢
      rw [hbad, hacc]
      simp
    have hwritten := write_block_ok (hsized k) hpos hgood (by rw [hblock]; exact herase)
    have hin := herase.2.2
    obtain ⟨target, htarget, hplace⟩ := h.location k hk
    rw [flashBlocks, htarget]
    simp only
    rw [hplace, if_neg (by omega), hwritten]
    simp only
    rw [ih (hsized.store (by rw [hblock]; exact hin)) (fun d => by rw [store_badblock, hbad])
      (fun b hb => hlen b (List.mem_cons_of_mem _ hb)) (by omega) hwrite.tail]
    rfl

/-- The blocks that dumping reads, `n` from block `k` on. -/
def readBlocks (place : Nat → MtdPartition × Nat) (size : Nat) (devs : Devices) (k n : Nat) :
    List Bytes :=
  (List.range' k n).map fun i => devs.block size (place i)

/-- Whole blocks lie at the `n` places from `k` on. -/
def Inside (src : MtdPartition) (place : Nat → MtdPartition × Nat) (k n : Nat) : Prop :=
  ∀ i, k ≤ i → i < k + n → (place i).2 + src.erase_size ≤ (place i).1.size

/-- Dumping reads the blocks at their places. -/
theorem dumpBlocks_eq (h : Maps src res devs₀ pMapping place) (hsized : Sized place devs)
    (n : Nat) : ∀ {k : Nat}, k + n ≤ numBlocks src → Inside src place k n →
      dumpBlocks src res pMapping devs n k =
        .done (some (readBlocks place src.erase_size devs k n).flatten) := by
  induction n with
  | zero => exact fun _ _ => rfl
  | succ n ih =>
    intro k hnum hin
    have hk := hin k le_rfl (by omega)
    have hrest := ih (show k + 1 + n ≤ numBlocks src by omega)
      fun i hi hlt => hin i (by omega) (by omega)
    have hload : load (devs (place k).1.device_index).content (place k).2 src.erase_size =
        .done (devs.block src.erase_size (place k)) := load_ofNat (by rw [hsized k]; exact hk)
    obtain ⟨target, htarget, hplace⟩ := h.location k (by omega)
    rw [dumpBlocks, htarget]
    simp only
    rw [hplace, if_neg (by omega), hload]
    simp only
    rw [hrest]
    rfl

/-- Dumping that succeeds has found whole blocks. -/
theorem dumpBlocks_inside (h : Maps src res devs₀ pMapping place) (hsized : Sized place devs)
    (n : Nat) : ∀ {k : Nat} {image : Bytes}, k + n ≤ numBlocks src →
      dumpBlocks src res pMapping devs n k = .done (some image) → Inside src place k n := by
  induction n with
  | zero => exact fun _ _ i hi hlt => absurd hlt (Nat.not_lt.mpr hi)
  | succ n ih =>
    intro k image hnum hrun i hi hlt
    obtain ⟨target, htarget, hplace⟩ := h.location k (by omega)
    rw [dumpBlocks, htarget] at hrun
    simp only at hrun
    rw [hplace] at hrun
    split at hrun
    · cases hrun
    · split at hrun
      · rename_i block hload
        obtain ⟨rest, hrest, hmap⟩ := Outcome.bind_eq_done.mp hrun
        cases rest with
        | none => simp at hmap
        | some rest =>
          rcases Nat.eq_or_lt_of_le hi with rfl | hi
          · unfold load at hload
            split at hload
            · rename_i hle
              rw [hsized k] at hle
              omega
            · cases hload
          · exact ih (by omega) hrest i hi (by omega)
      · cases hrun

theorem readBlocks_length_eq {k n : Nat} (hsized : Sized place devs) (hin : Inside src place k n)
    {d : Bytes} (hd : d ∈ readBlocks place src.erase_size devs k n) : d.length = src.erase_size := by
  obtain ⟨i, hi, rfl⟩ := List.mem_map.mp hd
  have hrange := List.mem_range'_1.mp hi
  have hlen := hin i hrange.1 hrange.2
  exact slice_length_of_le (by rw [hsized i]; exact hlen)

/-- The first blocks of a dump. -/
theorem take_readBlocks {n m : Nat} (hle : n ≤ m) (hsized : Sized place devs)
    (hin : Inside src place 0 m) :
    (readBlocks place src.erase_size devs 0 m).flatten.take (n * src.erase_size) =
      (readBlocks place src.erase_size devs 0 n).flatten := by
  have hsplit : readBlocks place src.erase_size devs 0 m =
      readBlocks place src.erase_size devs 0 n ++
        readBlocks place src.erase_size devs n (m - n) := by
    unfold readBlocks
    have hrange := @List.range'_append_1 0 n (m - n)
    rw [Nat.zero_add, Nat.add_sub_cancel' hle] at hrange
    rw [← List.map_append, hrange]
  have hfirst : (readBlocks place src.erase_size devs 0 n).flatten.length = n * src.erase_size := by
    have hin' : Inside src place 0 n := fun i hi hlt => hin i hi (by omega)
    rw [List.length_flatten,
      List.map_congr_left fun d hd => readBlocks_length_eq hsized hin' hd, List.map_const',
      List.sum_replicate, smul_eq_mul]
    simp [readBlocks]
  rw [hsplit, List.flatten_append, ← hfirst, List.take_left]

/-! ## The round trip -/

/-- Whatever is flashed with success, a dump yields it in its first blocks, padded
with `0xFF`. -/
def RoundTrips (src res : MtdPartition) (blockMapping : List Nat) (devs : Devices) : Prop :=
  ∀ (file : Bytes) (tries : Nat → Try × Try) (devs' : Devices),
    flash_bml_partition src res blockMapping tries file devs = .done (some devs') →
    ∃ image, dump_bml_partition src res blockMapping devs' = .done (some image) ∧
      image.take ((file.length + src.erase_size - 1) / src.erase_size * src.erase_size) =
        file ++ List.replicate ((file.length + src.erase_size - 1) / src.erase_size *
          src.erase_size - file.length) 0xff

theorem roundTrips_of_separate (h : Maps src res devs pMapping place) (hsized : Sized place devs)
    (hsep : SeparatePlaces src place) : RoundTrips src res pMapping devs := by
  intro file tries devs' hflash
  unfold flash_bml_partition at hflash
  split at hflash
  · cases hflash
  · have hlen : ∀ b ∈ paddedBlocks src.erase_size 0xff file, b.length = src.erase_size :=
      fun b hb => paddedBlocks_length_eq src.erase_pos hb
    obtain ⟨hnum, hwrite, rfl⟩ := flashBlocks_eq h tries _ hsized hlen hflash
    have hcount := paddedBlocks_length (l := file) 0xff src.erase_pos
    have hflat := paddedBlocks_flatten (l := file) 0xff src.erase_pos
    have hin : Inside src place 0 (numBlocks src) := fun i _ hlt => hsep.1 i (by omega)
    have hsized' := storeAll_sized _ hsized hlen hwrite
    have hne : ∀ i j, 0 ≤ i → i < j → j < 0 + (paddedBlocks src.erase_size 0xff file).length →
        ¬ SamePlace (place i) (place j) := by
      intro i j _ hij hj
      refine hsep.2 j (by omega) (fun k hk => ?_) i hij
      obtain ⟨halign, hpos, herase⟩ := hwrite k (Nat.zero_le k) (by omega)
      exact ⟨hpos, halign ▸ herase.1⟩
    have hread := block_storeAll _ hsized hlen hwrite hne
    have hblocks : readBlocks place src.erase_size (storeAll place 0
        (paddedBlocks src.erase_size 0xff file) devs) 0
        (paddedBlocks src.erase_size 0xff file).length = paddedBlocks src.erase_size 0xff file := by
      refine List.ext_getElem (by simp [readBlocks]) fun i hi hi' => ?_
      have hi := hread i hi'
      rw [Nat.zero_add] at hi
      simp only [readBlocks, List.getElem_map, List.getElem_range', Nat.zero_add, Nat.one_mul, hi]
    refine ⟨_, dumpBlocks_eq h hsized' (numBlocks src) (by omega) hin, ?_⟩
    rw [← hcount, take_readBlocks (by omega) hsized' hin, hblocks, hflat, hcount]

/-- A file of whole blocks, all zero but the last one. -/
def lastBlockSet (size n : Nat) : List Bytes :=
  List.replicate n (List.replicate size 0) ++ [List.replicate size 1]

theorem lastBlockSet_of_lt (size : Nat) {n k : Nat} (h : k < n) :
    (lastBlockSet size n).getD k [] = List.replicate size 0 := by
  unfold lastBlockSet
  rw [List.getD_append _ _ _ _ (by rw [List.length_replicate]; exact h)]
  simp [h]

theorem lastBlockSet_last (size n : Nat) :
    (lastBlockSet size n).getD n [] = List.replicate size 1 := by
  unfold lastBlockSet
  rw [List.getD_append_right _ _ _ _ (by simp)]
  simp

theorem separate_of_roundTrips (h : Maps src res devs pMapping place) (hsized : Sized place devs)
    (hround : RoundTrips src res pMapping devs) : SeparatePlaces src place := by
  -- An empty file: the dump has to find whole blocks.
  have hempty : flash_bml_partition src res pMapping (fun _ => (.ok, .ok)) [] devs =
      .done (some devs) := by
    unfold flash_bml_partition
    rw [if_neg (by simp)]
    have hnone : ∀ d ∈ ([] : List Bytes), d.length = src.erase_size := by simp
    have hnil : paddedBlocks src.erase_size 0xff [] = [] :=
      paddedBlocks_whole 0xff src.erase_pos hnone
    rw [hnil]
    rfl
  obtain ⟨image, hdump, -⟩ := hround [] _ devs hempty
  have hin := dumpBlocks_inside h hsized (numBlocks src) (by omega) hdump
  refine ⟨fun block hblock => hin block (Nat.zero_le _) (by omega), ?_⟩
  -- A file that ends in the second of two blocks with the same place.
  intro j hj hreach i hij hsame
  have hlen : ∀ b ∈ lastBlockSet src.erase_size j, b.length = src.erase_size := by
    intro b hb
    rcases List.mem_append.mp hb with hb | hb
    · rw [List.eq_of_mem_replicate hb, List.length_replicate]
    · rw [List.mem_singleton.mp hb, List.length_replicate]
  have hcount : (lastBlockSet src.erase_size j).length = j + 1 := by simp [lastBlockSet]
  have hwrite : Writable place src.erase_size 0 (lastBlockSet src.erase_size j).length := by
    intro k _ hk
    rw [hcount] at hk
    obtain ⟨hpos, halign⟩ := hreach k (by omega)
    exact ⟨h.erase_size k, hpos, by rw [h.erase_size k]; exact halign,
      by rw [h.erase_size k, Nat.mod_self], hin k (Nat.zero_le k) (by omega)⟩
  have hpadded := paddedBlocks_whole 0xff src.erase_pos hlen
  have hsize : (lastBlockSet src.erase_size j).flatten.length = (j + 1) * src.erase_size := by
    rw [List.length_flatten, List.map_congr_left hlen, List.map_const', List.sum_replicate,
      hcount, smul_eq_mul]
  have hfits : (j + 1) * src.erase_size ≤ src.size :=
    le_trans (Nat.mul_le_mul_right _ hj) (Nat.div_mul_le_self _ _)
  have hflash : flash_bml_partition src res pMapping (fun _ => (.ok, .ok))
      (lastBlockSet src.erase_size j).flatten devs =
      .done (some (storeAll place 0 (lastBlockSet src.erase_size j) devs)) := by
    unfold flash_bml_partition
    rw [if_neg (by omega), hpadded]
    exact flashBlocks_ok h _ hsized (fun _ => rfl) hlen (by omega) hwrite
  have hsized' := storeAll_sized _ hsized hlen hwrite
  obtain ⟨image, hdump, himage⟩ := hround _ _ _ hflash
  have hread := dumpBlocks_eq h hsized' (numBlocks src) (by omega) hin
  obtain rfl : (readBlocks place src.erase_size _ 0 (numBlocks src)).flatten = image :=
    Option.some.inj (Outcome.done.inj (hread.symm.trans hdump))
  rw [← paddedBlocks_flatten 0xff src.erase_pos, hpadded,
    ← paddedBlocks_length 0xff src.erase_pos, hpadded, hcount,
    take_readBlocks (by omega) hsized' hin] at himage
  have hin' : Inside src place 0 (j + 1) := fun k hk hlt => hin k hk (by omega)
  have hblocks : readBlocks place src.erase_size (storeAll place 0 (lastBlockSet src.erase_size j)
      devs) 0 (j + 1) = lastBlockSet src.erase_size j :=
    calc _ = paddedBlocks src.erase_size 0xff (readBlocks place src.erase_size _ 0 (j + 1)).flatten :=
          (paddedBlocks_whole 0xff src.erase_pos fun d hd =>
            readBlocks_length_eq hsized' hin' hd).symm
      _ = paddedBlocks src.erase_size 0xff (lastBlockSet src.erase_size j).flatten := by rw [himage]
      _ = lastBlockSet src.erase_size j := hpadded
  have hat : ∀ k < j + 1, (storeAll place 0 (lastBlockSet src.erase_size j) devs).block
      src.erase_size (place k) = (lastBlockSet src.erase_size j).getD k [] := by
    intro k hk
    rw [← congrArg (fun l => l.getD k []) hblocks]
    simp [readBlocks, hk]
  have hzero := hat i (by omega)
  have hone := hat j (by omega)
  unfold Devices.block at hzero hone
  rw [hsame.1, hsame.2, hone, lastBlockSet_last, lastBlockSet_of_lt _ hij] at hzero
  rcases (List.replicate_inj.mp hzero).2 with hnone | heq
  · exact absurd hnone (Nat.ne_of_gt src.erase_pos)
  · exact absurd heq (by decide)

end Run

/-- A table that is accepted is good for flashing and dumping if and only if it
gives the blocks separate places. -/
theorem bml_roundtrip_iff {src res : MtdPartition} {srcPartStartBlock reservoirPartStartBlock : Int}
    {devs : Devices} {pMapping : List Nat}
    (hsrc : (devs src.device_index).content.length = src.size)
    (hres : (devs res.device_index).content.length = res.size)
    (h : CreateBlockMapping src res srcPartStartBlock reservoirPartStartBlock devs =
      some pMapping) :
    RoundTrips src res pMapping devs ↔
      Separate src res srcPartStartBlock reservoirPartStartBlock devs := by
  have hmaps := CreateBlockMapping_spec h
  have hsized : Sized (place src res srcPartStartBlock reservoirPartStartBlock devs) devs := by
    intro k
    unfold place location
    split
    · exact hsrc
    · exact hres
  exact ⟨separate_of_roundTrips hmaps hsized, roundTrips_of_separate hmaps hsized⟩

/-! ### A partition of two bad blocks -/

/-- Two blocks of 8192 bytes. -/
def boot : MtdPartition where
  size := 0x4000
  erase_size := 0x2000
  erase_pos := by decide
  size_lt := by decide
  device_index := 0
  write_size := 2048

/-- Two spare blocks and the one with the table. -/
def reservoir : MtdPartition where
  size := 0x6000
  erase_size := 0x2000
  erase_pos := by decide
  size_lt := by decide
  device_index := 1
  write_size := 2048

/-- A table that maps block 72 to block 2004 and block 73 to block `target`. -/
def tableBlock (target : Nat) : Bytes :=
  ascii "UPCH" ++ (List.replicate 0xffc 0 ++ (leBytes 2 0 ++ leBytes 2 0xffff ++ leBytes 2 72 ++
    leBytes 2 2004 ++ leBytes 2 73 ++ leBytes 2 target ++ List.replicate 0xff4 0xff))

/-- All blocks of the partition are bad, those of the reservoir are good. -/
def twoBadBlocks (target : Nat) : Devices := fun d =>
  if d = 0 then ⟨List.replicate 0x4000 0xff, fun _ => .bad⟩
  else ⟨List.replicate 0x4000 0xff ++ (tableBlock target ++ []), fun _ => .good⟩

theorem tableBlock_length (target : Nat) : (tableBlock target).length = 0x2000 := by
  have hmark : (ascii "UPCH").length = 4 := by decide
  simp only [tableBlock, List.length_append, List.length_replicate, leBytes_length, hmark]

theorem twoBadBlocks_length (target : Nat) :
    (twoBadBlocks target 0).content.length = boot.size ∧
      (twoBadBlocks target 1).content.length = reservoir.size := by
  have htable := tableBlock_length target
  constructor
  · simp only [twoBadBlocks, if_true, List.length_replicate]
    rfl
  · simp only [twoBadBlocks, if_neg Nat.one_ne_zero, List.length_append, List.length_replicate,
      htable, List.length_nil]
    rfl

theorem findTable_twoBadBlocks {target : Nat} (h : isTable (tableBlock target) = true) :
    findTable reservoir (twoBadBlocks target) (numBlocks reservoir + 1) reservoir.size =
      some (0x4000, tableBlock target) := by
  have hload : load (twoBadBlocks target reservoir.device_index).content 0x4000
      reservoir.erase_size = .done (tableBlock target) :=
    load_of_append rfl (by rw [List.length_replicate]; rfl) (tableBlock_length target).symm
  rw [show numBlocks reservoir = 3 from rfl, findTable, if_neg (by decide)]
  simp only
  rw [show ((reservoir.size : Int) - reservoir.erase_size) = 0x4000 from rfl,
    if_neg (show ¬ MEMGETBADBLOCK reservoir (twoBadBlocks target) 0x4000 ≠ .good by
      rw [not_not]
      rfl), hload]
  simp only
  rw [if_pos ⟨by decide, h⟩]

theorem entries_2005 : isTable (tableBlock 2005) = true ∧
    entries (tableBlock 2005) = [(72, 2004), (73, 2005)] := by decide +kernel

theorem entries_2004 : isTable (tableBlock 2004) = true ∧
    entries (tableBlock 2004) = [(72, 2004), (73, 2004)] := by decide +kernel

theorem CreateBlockMapping_twoBadBlocks {target : Nat} (h : isTable (tableBlock target) = true) :
    CreateBlockMapping boot reservoir 72 2004 (twoBadBlocks target) = (do
      let pMapping ← (entries (tableBlock target)).foldlM
        (addEntry boot reservoir 72 2004 0x4000) [0xffff, 0xffff]
      if (List.range 2).all (blockValid boot reservoir (twoBadBlocks target) pMapping) then
        some pMapping
      else none) := by
  unfold CreateBlockMapping
  rw [if_neg (by decide), if_neg (by decide), findTable_twoBadBlocks h, Option.bind_eq_bind,
    Option.bind_some]
  simp only
  rw [show numBlocks boot = 2 from rfl,
    show List.replicate 2 0xffff = [0xffff, 0xffff] from rfl]

theorem place_twoBadBlocks {target : Nat} (h : isTable (tableBlock target) = true) (k : Nat) :
    place boot reservoir 72 2004 (twoBadBlocks target) k = location boot reservoir
      (lastTarget boot 72 2004 (entries (tableBlock target)) k) k := by
  unfold place tableOf
  rw [findTable_twoBadBlocks h]

/-- Two blocks with different targets: what is flashed comes back. -/
theorem bml_roundtrip_two_targets :
    ∃ pMapping, CreateBlockMapping boot reservoir 72 2004 (twoBadBlocks 2005) = some pMapping ∧
      RoundTrips boot reservoir pMapping (twoBadBlocks 2005) := by
  obtain ⟨htable, hentries⟩ := entries_2005
  have hcreate : CreateBlockMapping boot reservoir 72 2004 (twoBadBlocks 2005) = some [0, 1] := by
    rw [CreateBlockMapping_twoBadBlocks htable, hentries]
    decide +kernel
  have hplace := place_twoBadBlocks htable
  rw [hentries] at hplace
  have hsep : Separate boot reservoir 72 2004 (twoBadBlocks 2005) := by
    refine ⟨fun block hblock => ?_, fun block hblock _ k hk => ?_⟩
    · have hlt : block < 2 := hblock
      rw [hplace]
      interval_cases block
      · decide +kernel
      · decide +kernel
    · have hlt : block < 2 := hblock
      obtain ⟨rfl, rfl⟩ : block = 1 ∧ k = 0 := by omega
      rw [hplace, hplace]
      exact fun hsame => absurd hsame.2 (by decide +kernel)
  obtain ⟨hsrc, hres⟩ := twoBadBlocks_length 2005
  exact ⟨[0, 1], hcreate, (bml_roundtrip_iff hsrc hres hcreate).mpr hsep⟩

/-- Two blocks with one target: the table is accepted, and what is flashed does
not come back. -/
theorem bml_roundtrip_one_target :
    ∃ pMapping, CreateBlockMapping boot reservoir 72 2004 (twoBadBlocks 2004) = some pMapping ∧
      ¬ RoundTrips boot reservoir pMapping (twoBadBlocks 2004) := by
  obtain ⟨htable, hentries⟩ := entries_2004
  have hcreate : CreateBlockMapping boot reservoir 72 2004 (twoBadBlocks 2004) = some [0, 0] := by
    rw [CreateBlockMapping_twoBadBlocks htable, hentries]
    decide +kernel
  have hmaps := CreateBlockMapping_spec hcreate
  refine ⟨[0, 0], hcreate, fun hround => ?_⟩
  have hplace := place_twoBadBlocks htable
  rw [hentries] at hplace
  have hsized : Sized (place boot reservoir 72 2004 (twoBadBlocks 2004)) (twoBadBlocks 2004) := by
    obtain ⟨hsrc, hres⟩ := twoBadBlocks_length 2004
    intro k
    unfold place location
    split
    · exact hsrc
    · exact hres
  have hsep := (separate_of_roundTrips hmaps hsized hround).2 1 (by decide)
  rw [hplace] at hsep
  refine hsep (fun k hk => ?_) 0 (by decide) ?_
  · rw [hplace]
    interval_cases k
    · decide +kernel
    · decide +kernel
  · rw [hplace]
    exact ⟨by decide +kernel, by decide +kernel⟩

end BootableRecovery.BmlOverMtd
