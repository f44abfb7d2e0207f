import BootableRecovery.Lib.Numeral

/-!
# `mmcutils/mmcutils.c`: the partition table

`mmc_read_mbr` reads the four entries of the master boot record. When the last one is an
extended partition it follows the chain of extended boot records behind it, up to 64
partitions. Sector numbers and the offsets that are passed to `fseek` are computed in 32 bits,
and a failed `fseek` leaves the file where it was.

Main results:
* `mmc_read_mbr_iff`: the function returns, and it reads the records of the chain from their
  own sectors and resolves the relative starts exactly when the offset of every record and
  the first sector of every partition fit.
* `mmc_read_mbr_wraps`: the record at 4 GiB is looked for in the first sector.
-/

namespace BootableRecovery.Mmcutils

def TABLE_ENTRY_0 : Nat := 0x1BE
def TABLE_ENTRY_1 : Nat := 0x1CE
def TABLE_SIGNATURE : Nat := 0x1FE
def TABLE_ENTRY_SIZE : Nat := 0x010
def OFFSET_STATUS : Nat := 0x00
def OFFSET_TYPE : Nat := 0x04
def OFFSET_FIRST_SEC : Nat := 0x08
def OFFSET_SIZE : Nat := 0x0C
def MMC_BOOT_TYPE : Nat := 0x48
def MMC_RECOVERY_TYPE : Nat := 0x71
def MMC_EXT3_TYPE : Nat := 0x83
def MMC_VFAT_TYPE : Nat := 0xC
def MAX_PARTITIONS : Nat := 64
def MMC_DEVICENAME : Bytes := ascii "/dev/block/mmcblk0"

/-! ## The device -/

/-- A block device, and the width of a `long`, the offset of `fseek`. -/
structure Card where
  opens : Bool
  size : Nat
  byte : Nat → UInt8
  long : Nat
  long_ge : 32 ≤ long

/-- The 512 bytes at an offset. -/
def Card.sector (card : Card) (pos : Nat) (i : Nat) : UInt8 := card.byte (pos + i)

/-- `fread(buffer, 512, 1, fd)` succeeds. -/
def Card.Readable (card : Card) (pos : Nat) : Prop := pos + 512 ≤ card.size

instance (card : Card) (pos : Nat) : Decidable (card.Readable pos) :=
  inferInstanceAs (Decidable (_ ≤ _))

/-- `fseek(fd, off, SEEK_SET)` for an unsigned offset. An offset that a `long` does not hold
becomes negative, and the file stays where it was. -/
def fseek (long pos off : Nat) : Nat := if off < 2 ^ (long - 1) then off else pos

def GET_LWORD_FROM_BYTE (buffer : Nat → UInt8) (x : Nat) : Nat :=
  leNat [buffer x, buffer (x + 1), buffer (x + 2), buffer (x + 3)]

/-- The record ends in the signature of a table. -/
def HasSignature (buffer : Nat → UInt8) : Prop :=
  buffer TABLE_SIGNATURE = 0x55 ∧ buffer (TABLE_SIGNATURE + 1) = 0xAA

instance (buffer : Nat → UInt8) : Decidable (HasSignature buffer) :=
  inferInstanceAs (Decidable (_ ∧ _))

/-! ## The code -/

structure MmcPartition where
  device_index : Bytes
  filesystem : Option Bytes
  name : Option Bytes
  dstatus : Nat
  dtype : Nat
  dfirstsec : Nat
  dsize : Nat
  deriving DecidableEq, Repr

/-- The entries that were filled, and the partitions of either kind that were named before. -/
structure Table where
  mbr : List MmcPartition
  ext3_count : Nat
  vfat_count : Nat
  deriving DecidableEq, Repr

def ext3_partitions : List Bytes := [ascii "system", ascii "userdata", ascii "cache", ascii "NONE"]

def vfat_partitions : List Bytes := [ascii "modem", ascii "NONE"]

/-- The next of the names for a kind of partition, and the count after it. -/
def nextName (names : List Bytes) (count : Nat) : Option Bytes × Nat :=
  if names.getD count (ascii "NONE") = ascii "NONE" then (none, count)
  else (names[count]?, count + 1)

/-- `mmc_partition_name` for an entry whose name was cleared. -/
def mmc_partition_name (e : MmcPartition) (type : Nat) (t : Table) : MmcPartition × Table :=
  if type = MMC_BOOT_TYPE then ({ e with name := some (ascii "boot") }, t)
  else if type = MMC_RECOVERY_TYPE then ({ e with name := some (ascii "recovery") }, t)
  else if type = MMC_EXT3_TYPE then
    let named := nextName ext3_partitions t.ext3_count
    ({ e with name := named.1, filesystem := some (ascii "ext3") }, { t with ext3_count := named.2 })
  else if type = MMC_VFAT_TYPE then
    let named := nextName vfat_partitions t.vfat_count
    ({ e with name := named.1, filesystem := some (ascii "vfat") }, { t with vfat_count := named.2 })
  else (e, t)

/-- Fill `mbr[mmc_partition_count]` from the table entry at `idx`, whose first sector is
relative to the sector `base`. -/
def storeEntry (buffer : Nat → UInt8) (idx base : Nat) (t : Table) : Outcome Table :=
  if t.mbr.length < MAX_PARTITIONS then
    let dtype := (buffer (idx + OFFSET_TYPE)).toNat
    let e : MmcPartition :=
      { device_index := MMC_DEVICENAME ++ ascii "p" ++ printInt (t.mbr.length + 1)
        filesystem := none
        name := none
        dstatus := (buffer (idx + OFFSET_STATUS)).toNat
        dtype := dtype
        dfirstsec := toU32 ((GET_LWORD_FROM_BYTE buffer (idx + OFFSET_FIRST_SEC) : Int) + base)
        dsize := GET_LWORD_FROM_BYTE buffer (idx + OFFSET_SIZE) }
    let named := mmc_partition_name e dtype t
    .done { named.2 with mbr := t.mbr ++ [named.1] }
  else .fault

/-- The loop over the entries of the master boot record from the `i`-th on; the result says
whether the array is full. -/
def mbrLoop (buffer : Nat → UInt8) : Nat → Nat → Table → Outcome (Bool × Table)
  | 0, _, t => .done (false, t)
  | n + 1, i, t => do
    let t ← storeEntry buffer (TABLE_ENTRY_0 + i * TABLE_ENTRY_SIZE) 0 t
    if t.mbr.length = MAX_PARTITIONS then .done (true, t) else mbrLoop buffer n (i + 1) t

/-- What is returned and filled. `reads` are the offsets at which a record was looked for. -/
structure MbrResult where
  ret : Int
  table : Table
  reads : List Nat
  deriving DecidableEq, Repr

/-- The loop over the extended boot records; the buffer holds the one at offset `pos`. -/
def ebrLoop (card : Card) (EBR_first_sec : Nat) :
    Nat → Nat → Nat → Table → List Nat → Outcome MbrResult
  | 0, _, _, _, _ => .spin
  | fuel + 1, pos, EBR_current_sec, t, reads =>
    let buffer := card.sector pos
    if ¬ HasSignature buffer then .done ⟨t.mbr.length, t, reads⟩
    else do
      let t ← storeEntry buffer TABLE_ENTRY_0 EBR_current_sec t
      if t.mbr.length = MAX_PARTITIONS then .done ⟨t.mbr.length, t, reads⟩
      else
        let dfirstsec := GET_LWORD_FROM_BYTE buffer (TABLE_ENTRY_1 + OFFSET_FIRST_SEC)
        if dfirstsec = 0 then .done ⟨t.mbr.length, t, reads⟩
        else
          let sec := toU32 ((EBR_first_sec : Int) + dfirstsec)
          let pos := fseek card.long (pos + 512) (toU32 ((sec : Int) * 512))
          let reads := reads ++ [pos]
          if ¬ card.Readable pos then .done ⟨-1, t, reads⟩
          else ebrLoop card EBR_first_sec fuel pos sec t reads

/-- `mmc_read_mbr`, with the counts of the partitions that were named before. -/
def mmc_read_mbr (card : Card) (ext3_count vfat_count : Nat) : Outcome MbrResult :=
  let t : Table := ⟨[], ext3_count, vfat_count⟩
  let buffer := card.sector 0
  if ¬ card.opens then .done ⟨-1, t, []⟩
  else if ¬ card.Readable 0 then .done ⟨-1, t, []⟩
  else if ¬ HasSignature buffer then .done ⟨-1, t, []⟩
  else do
    let (full, t) ← mbrLoop buffer 4 0 t
    if full then .done ⟨t.mbr.length, t, []⟩
    else
      let entry := TABLE_ENTRY_0 + 3 * TABLE_ENTRY_SIZE
      let dtype := (buffer (entry + OFFSET_TYPE)).toNat
      let dfirstsec := GET_LWORD_FROM_BYTE buffer (entry + OFFSET_FIRST_SEC)
      if dtype ≠ 0x05 then .done ⟨t.mbr.length, t, []⟩
      else
        let pos := fseek card.long 512 (toU32 ((dfirstsec : Int) * 512))
        if ¬ card.Readable pos then .done ⟨-1, t, [pos]⟩
        else ebrLoop card dfirstsec MAX_PARTITIONS pos dfirstsec t [pos]

/-! ## What is expected -/

/-- The relative start of the partition of the record in sector `s`. -/
def Card.relative (card : Card) (s : Nat) : Nat :=
  GET_LWORD_FROM_BYTE (card.sector (512 * s)) (TABLE_ENTRY_0 + OFFSET_FIRST_SEC)

/-- The relative sector number of the record behind the one in sector `s`, or 0. -/
def Card.next (card : Card) (s : Nat) : Nat :=
  GET_LWORD_FROM_BYTE (card.sector (512 * s)) (TABLE_ENTRY_1 + OFFSET_FIRST_SEC)

/-- Where the master boot record says that the extended partition starts. -/
def Card.first (card : Card) : Nat :=
  GET_LWORD_FROM_BYTE (card.sector 0) (TABLE_ENTRY_0 + 3 * TABLE_ENTRY_SIZE + OFFSET_FIRST_SEC)

/-- The last entry of the master boot record is an extended partition. -/
def Card.Extended (card : Card) : Prop :=
  card.opens = true ∧ card.Readable 0 ∧ HasSignature (card.sector 0) ∧
    (card.sector 0 (TABLE_ENTRY_0 + 3 * TABLE_ENTRY_SIZE + OFFSET_TYPE)).toNat = 0x05

/-- The logical partitions `es` and the offsets `rs` that were read after the record in
sector `s`: all numbers are those of the chain, without wrapping. -/
def Walked (card : Card) : Nat → List MmcPartition → List Nat → Prop
  | _, [], rs => rs = []
  | s, e :: es, rs =>
    e.dfirstsec = s + card.relative s ∧
      match rs with
      | [] => es = []
      | r :: rs =>
        r = 512 * (card.first + card.next s) ∧ Walked card (card.first + card.next s) es rs

/-- The array is not overrun, and the chain was followed as the records say. -/
structure WalkedTable (card : Card) (result : MbrResult) : Prop where
  count : result.table.mbr.length ≤ MAX_PARTITIONS
  logical : match result.reads with
    | [] => result.table.mbr.length ≤ 4
    | r :: rs => r = 512 * card.first ∧ Walked card card.first (result.table.mbr.drop 4) rs

/-- Seeking from the offset `pos` gets to sector `s`. This is so when the offset of the sector
fits in 32 bits and in a `long`, or when it does not and the file is there already. -/
def Lands (card : Card) (pos s : Nat) : Prop :=
  fseek card.long pos (512 * s % 2 ^ 32) = 512 * s

/-- From the record in sector `s` on, with room for some more partitions, the first sector of
every partition fits in 32 bits, and seeking gets to every record. -/
def Fits (card : Card) : Nat → Nat → Prop
  | 0, _ => True
  | room + 1, s =>
    HasSignature (card.sector (512 * s)) →
      s + card.relative s < 2 ^ 32 ∧
        (room ≠ 0 → card.next s ≠ 0 →
          Lands card (512 * s + 512) (card.first + card.next s) ∧
            (card.Readable (512 * (card.first + card.next s)) →
              Fits card room (card.first + card.next s)))

/-- The whole chain fits. -/
def ChainFits (card : Card) : Prop :=
  card.Extended → Lands card 512 card.first ∧
    (card.Readable (512 * card.first) → Fits card 60 card.first)

/-! ## Entries -/

theorem GET_LWORD_lt (buffer : Nat → UInt8) (x : Nat) : GET_LWORD_FROM_BYTE buffer x < 2 ^ 32 := by
  have hlt := leNat_lt [buffer x, buffer (x + 1), buffer (x + 2), buffer (x + 3)]
  have hpow : 256 ^ [buffer x, buffer (x + 1), buffer (x + 2), buffer (x + 3)].length = 2 ^ 32 := by
    norm_num
  rwa [hpow] at hlt

theorem mmc_partition_name_dfirstsec (e : MmcPartition) (type : Nat) (t : Table) :
    (mmc_partition_name e type t).1.dfirstsec = e.dfirstsec := by
  unfold mmc_partition_name
  split
  · rfl
  split
  · rfl
  split
  · rfl
  split
  · rfl
  · rfl

/-- An entry is stored while there is room. -/
theorem storeEntry_spec (buffer : Nat → UInt8) (idx base : Nat) {t : Table}
    (h : t.mbr.length < MAX_PARTITIONS) :
    ∃ e t', storeEntry buffer idx base t = .done t' ∧ t'.mbr = t.mbr ++ [e] ∧
      e.dfirstsec = (GET_LWORD_FROM_BYTE buffer (idx + OFFSET_FIRST_SEC) + base) % 2 ^ 32 := by
  unfold storeEntry
  rw [if_pos h, ← toU32_add]
  exact ⟨_, _, rfl, rfl, mmc_partition_name_dfirstsec _ _ _⟩

theorem mbrLoop_spec (buffer : Nat → UInt8) (n : Nat) : ∀ (i : Nat) (t : Table),
    t.mbr.length + n < MAX_PARTITIONS →
    ∃ t', mbrLoop buffer n i t = .done (false, t') ∧ t'.mbr.length = t.mbr.length + n := by
  induction n with
  | zero => exact fun i t _ => ⟨t, rfl, rfl⟩
  | succ n ih =>
    intro i t hroom
    obtain ⟨e, t₁, hstore, hmbr, -⟩ :=
      storeEntry_spec buffer (TABLE_ENTRY_0 + i * TABLE_ENTRY_SIZE) 0 (t := t) (by omega)
    have hlen : t₁.mbr.length = t.mbr.length + 1 := by rw [hmbr, List.length_append]; rfl
    obtain ⟨t₂, hloop, hlen₂⟩ := ih (i + 1) t₁ (by omega)
    refine ⟨t₂, ?_, by omega⟩
    rw [mbrLoop, hstore, Outcome.done_bind, if_neg (by omega)]
    exact hloop

/-! ## The chain -/

/-- The offset that is passed to `fseek` is that of the sector in 32 bits. -/
theorem offset_mod (s : Nat) : toU32 ((s % 2 ^ 32 : Nat) * 512 : Int) = 512 * s % 2 ^ 32 := by
  unfold toU32
  omega

/-- Following the chain comes to an end, and keeps to the chain exactly when it fits. -/
theorem ebrLoop_spec (card : Card) (fuel : Nat) : ∀ (room pos cur : Nat) (t : Table)
    (reads : List Nat), room ≤ fuel → 0 < room → t.mbr.length + room = MAX_PARTITIONS →
    ∃ ret t' es rs, ebrLoop card card.first fuel pos cur t reads =
        .done ⟨ret, t', reads ++ rs⟩ ∧ t'.mbr = t.mbr ++ es ∧ es.length ≤ room ∧
      ∀ s, pos = 512 * s → cur = s % 2 ^ 32 → (Walked card s es rs ↔ Fits card room s) := by
  induction fuel with
  | zero =>
    intro room pos cur t reads hle hpos
    omega
  | succ fuel ih =>
    intro room pos cur t reads hle hpos hroom
    obtain ⟨room, rfl⟩ := Nat.exists_eq_succ_of_ne_zero hpos.ne'
    unfold ebrLoop
    by_cases hsig : HasSignature (card.sector pos)
    swap
    · refine ⟨t.mbr.length, t, [], [], ?_, by simp, by simp, fun s hs _ => ?_⟩
      · simp only [hsig, not_false_eq_true, if_true, List.append_nil]
      · subst hs
        exact iff_of_true rfl fun h => absurd h hsig
    obtain ⟨e, t₁, hstore, hmbr, hfirst⟩ :=
      storeEntry_spec (card.sector pos) TABLE_ENTRY_0 cur (t := t) (by omega)
    have hlen : t₁.mbr.length = t.mbr.length + 1 := by rw [hmbr, List.length_append]; rfl
    have hexact : ∀ s, pos = 512 * s → cur = s % 2 ^ 32 →
        (e.dfirstsec = s + card.relative s ↔ s + card.relative s < 2 ^ 32) := by
      intro s hs hcur
      have hvalue : e.dfirstsec = (card.relative s + s % 2 ^ 32) % 2 ^ 32 := by
        rw [hfirst, hs, hcur]
        rfl
      omega
    simp only [hsig, not_true_eq_false, if_false, hstore, Outcome.done_bind]
    by_cases hfull : t₁.mbr.length = MAX_PARTITIONS
    · obtain rfl : room = 0 := by omega
      refine ⟨t₁.mbr.length, t₁, [e], [], ?_, hmbr, by simp, fun s hs hcur => ?_⟩
      · rw [if_pos hfull, List.append_nil]
      · have hiff := hexact s hs hcur
        subst hs
        constructor
        · exact fun h _ => ⟨hiff.mp h.1, fun h0 => absurd rfl h0⟩
        · exact fun h => ⟨hiff.mpr (h hsig).1, rfl⟩
    have hroom₁ : t₁.mbr.length + room = MAX_PARTITIONS := by omega
    have hpos₁ : 0 < room := by omega
    rw [if_neg hfull]
    by_cases hlast : GET_LWORD_FROM_BYTE (card.sector pos) (TABLE_ENTRY_1 + OFFSET_FIRST_SEC) = 0
    · refine ⟨t₁.mbr.length, t₁, [e], [], ?_, hmbr, by simp, fun s hs hcur => ?_⟩
      · rw [if_pos hlast, List.append_nil]
      · have hiff := hexact s hs hcur
        subst hs
        constructor
        · exact fun h _ => ⟨hiff.mp h.1, fun _ hnext => absurd hlast hnext⟩
        · exact fun h => ⟨hiff.mpr (h hsig).1, rfl⟩
    rw [if_neg hlast]
    -- the next record is looked for at the offset `at'`
    generalize hsec : toU32 ((card.first : Int) +
      (GET_LWORD_FROM_BYTE (card.sector pos) (TABLE_ENTRY_1 + OFFSET_FIRST_SEC) : Nat)) = sec
    generalize hat : fseek card.long (pos + 512) (toU32 ((sec : Int) * 512)) = at'
    have hland : ∀ s, pos = 512 * s →
        sec = (card.first + card.next s) % 2 ^ 32 ∧
          (at' = 512 * (card.first + card.next s) ↔
            Lands card (512 * s + 512) (card.first + card.next s)) := by
      intro s hs
      subst hs
      have hvalue : sec = (card.first + card.next s) % 2 ^ 32 := by
        rw [← hsec, toU32_add]
        rfl
      refine ⟨hvalue, ?_⟩
      rw [← hat, hvalue, offset_mod]
      rfl
    by_cases hread : card.Readable at'
    · obtain ⟨ret, t₂, es, rs, hloop, hmbr₂, hbound, hwalk⟩ :=
        ih room at' sec t₁ (reads ++ [at']) (by omega) hpos₁ hroom₁
      refine ⟨ret, t₂, e :: es, at' :: rs, ?_, ?_, ?_, fun s hs hcur => ?_⟩
      · simp only [hread, not_true_eq_false, if_false, hloop, List.append_assoc,
          List.singleton_append]
      · rw [hmbr₂, hmbr, List.append_assoc]
        rfl
      · rw [List.length_cons]
        omega
      · obtain ⟨hsec', hlands⟩ := hland s hs
        have hiff := hexact s hs hcur
        have hnext : card.next s ≠ 0 := by
          rw [hs] at hlast
          exact hlast
        constructor
        · rintro ⟨hfirst', hat', hrest⟩ _
          refine ⟨hiff.mp hfirst', fun _ _ => ⟨hlands.mp hat', fun _ => ?_⟩⟩
          exact (hwalk _ hat' hsec').mp hrest
        · intro h
          rw [hs] at hsig
          obtain ⟨hlt, hmore⟩ := h hsig
          obtain ⟨hl, hfits⟩ := hmore hpos₁.ne' hnext
          have hat' := hlands.mpr hl
          refine ⟨hiff.mpr hlt, hat', (hwalk _ hat' hsec').mpr (hfits ?_)⟩
          rw [← hat']
          exact hread
    · refine ⟨-1, t₁, [e], [at'], ?_, hmbr, by simp, fun s hs hcur => ?_⟩
      · simp only [hread, not_false_eq_true, if_true]
      · obtain ⟨-, hlands⟩ := hland s hs
        have hiff := hexact s hs hcur
        have hnext : card.next s ≠ 0 := by
          rw [hs] at hlast
          exact hlast
        constructor
        · rintro ⟨hfirst', hat', -⟩ _
          refine ⟨hiff.mp hfirst', fun _ _ => ⟨hlands.mp hat', fun h => ?_⟩⟩
          rw [hat'] at hread
          exact absurd h hread
        · intro h
          rw [hs] at hsig
          obtain ⟨hlt, hmore⟩ := h hsig
          exact ⟨hiff.mpr hlt, hlands.mpr (hmore hpos₁.ne' hnext).1, rfl⟩

/-! ## The result -/

/-- The function returns without overrunning the array, and follows the chain of extended boot
records exactly when the chain fits. -/
theorem mmc_read_mbr_iff (card : Card) (ext3_count vfat_count : Nat) :
    ∃ result, mmc_read_mbr card ext3_count vfat_count = .done result ∧
      result.table.mbr.length ≤ MAX_PARTITIONS ∧
      (WalkedTable card result ↔ ChainFits card) := by
  have hnone : ∀ (ret : Int) (t : Table), t.mbr.length ≤ 4 → ¬ card.Extended →
      (⟨ret, t, []⟩ : MbrResult).table.mbr.length ≤ MAX_PARTITIONS ∧
        (WalkedTable card ⟨ret, t, []⟩ ↔ ChainFits card) := by
    intro ret t hlen hno
    have hmax : t.mbr.length ≤ MAX_PARTITIONS := hlen.trans (by decide)
    exact ⟨hmax, iff_of_true ⟨hmax, hlen⟩ fun h => absurd h hno⟩
  unfold mmc_read_mbr
  by_cases hopens : card.opens = true
  swap
  · exact ⟨_, if_pos hopens, hnone _ _ (Nat.zero_le _) fun h => hopens h.1⟩
  by_cases hread : card.Readable 0
  swap
  · exact ⟨⟨-1, ⟨[], ext3_count, vfat_count⟩, []⟩, by simp [hopens, hread],
      hnone _ _ (Nat.zero_le _) fun h => hread h.2.1⟩
  by_cases hsig : HasSignature (card.sector 0)
  swap
  · exact ⟨⟨-1, ⟨[], ext3_count, vfat_count⟩, []⟩, by simp [hopens, hread, hsig],
      hnone _ _ (Nat.zero_le _) fun h => hsig h.2.2.1⟩
  have hroom : 0 + 4 < MAX_PARTITIONS := by decide
  obtain ⟨t, hloop, hlen⟩ :=
    mbrLoop_spec (card.sector 0) 4 0 ⟨[], ext3_count, vfat_count⟩ hroom
  have hfour : t.mbr.length = 4 := hlen
  simp only [hopens, hread, hsig, not_true_eq_false, if_false, hloop, Outcome.done_bind,
    Bool.false_eq_true]
  by_cases htype : (card.sector 0 (TABLE_ENTRY_0 + 3 * TABLE_ENTRY_SIZE + OFFSET_TYPE)).toNat = 0x05
  swap
  · exact ⟨_, if_pos htype, hnone _ _ hfour.le fun h => htype h.2.2.2⟩
  have hextended : card.Extended := ⟨hopens, hread, hsig, htype⟩
  rw [if_neg (not_not.mpr htype)]
  have hmod : card.first = card.first % 2 ^ 32 := (Nat.mod_eq_of_lt (GET_LWORD_lt _ _)).symm
  have hoffset : toU32 ((card.first : Int) * 512) = 512 * card.first % 2 ^ 32 := by
    have hnat := offset_mod card.first
    rwa [← hmod] at hnat
  have hfirst : GET_LWORD_FROM_BYTE (card.sector 0)
    (TABLE_ENTRY_0 + 3 * TABLE_ENTRY_SIZE + OFFSET_FIRST_SEC) = card.first := rfl
  rw [hfirst, hoffset]
  generalize hat : fseek card.long 512 (512 * card.first % 2 ^ 32) = pos
  have hland : pos = 512 * card.first ↔ Lands card 512 card.first := by
    rw [← hat]
    rfl
  by_cases hread' : card.Readable pos
  · obtain ⟨ret, t', es, rs, hchain, hmbr, hbound, hwalk⟩ :=
      ebrLoop_spec card MAX_PARTITIONS 60 pos card.first t [pos] (by decide) (by decide)
        (by rw [hfour]; rfl)
    have hdrop : t'.mbr.drop 4 = es := by
      rw [hmbr, ← hfour, List.drop_left]
    have hmax : t'.mbr.length ≤ MAX_PARTITIONS := by
      rw [hmbr, List.length_append, hfour]
      exact Nat.add_le_add_left hbound 4
    refine ⟨⟨ret, t', [pos] ++ rs⟩, (if_neg (not_not.mpr hread')).trans hchain, hmax, ?_⟩
    constructor
    · rintro ⟨-, hpos, hes⟩ _
      rw [hdrop] at hes
      exact ⟨hland.mp hpos, fun _ => (hwalk _ hpos hmod).mp hes⟩
    · intro hfits
      obtain ⟨hl, hmore⟩ := hfits hextended
      have hpos := hland.mpr hl
      have hes := (hwalk _ hpos hmod).mpr (hmore (hpos ▸ hread'))
      rw [← hdrop] at hes
      exact ⟨hmax, hpos, hes⟩
  · have hmax : t.mbr.length ≤ MAX_PARTITIONS := hfour.le.trans (by decide)
    have hdrop : t.mbr.drop 4 = [] := by
      rw [← hfour, List.drop_length]
    refine ⟨⟨-1, t, [pos]⟩, if_pos hread', hmax, ?_⟩
    constructor
    · rintro ⟨-, hpos, -⟩ _
      exact ⟨hland.mp hpos, fun h => absurd h (hpos ▸ hread')⟩
    · intro hfits
      refine ⟨hmax, hland.mpr (hfits hextended).1, ?_⟩
      rw [hdrop]
      rfl

/-- A card of 8 GiB with one entry in its table: an extended partition at 4 GiB. All its
records but the first are empty. -/
def bigCard : Card where
  opens := true
  size := 2 ^ 33
  byte i :=
    if i = 0x1BE + 3 * 16 + 4 then 0x05
    else if i = 0x1BE + 3 * 16 + 8 + 2 then 0x80
    else if i = 0x1FE then 0x55
    else if i = 0x1FF then 0xAA
    else 0
  long := 32
  long_ge := le_rfl

/-- The record of the extended partition at 4 GiB is looked for at offset 0. -/
theorem mmc_read_mbr_wraps :
    ¬ ∃ result, mmc_read_mbr bigCard 0 0 = .done result ∧ WalkedTable bigCard result := by
  have hreads : (do
      let result ← mmc_read_mbr bigCard 0 0
      .done result.reads) = .done [0] := by decide +kernel
  rintro ⟨result, hrun, hwalked⟩
  rw [hrun] at hreads
  have hnil : result.reads = [0] := Outcome.done.inj hreads
  have hlogical := hwalked.logical
  rw [hnil] at hlogical
  have hfirst : (0 : Nat) = 512 * bigCard.first := hlogical.1
  revert hfirst
  decide

end BootableRecovery.Mmcutils
