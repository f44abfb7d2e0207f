import BootableRecovery.Mtdutils.Clean
import BootableRecovery.Recovery.Args

/-!
# `bootloader.c`: the bootloader message on MTD

The message is kept in the second of the first three pages of the `misc` partition. To set it
the three pages are read, the message is put into them, and they are written again. A page
is as large as the device says it is; the message has 1088 bytes.

Main results:
* `set_bootloader_message_mtd_iff`: setting a message keeps inside the buffer, leaves the other
  pages alone and makes it the message that is read, exactly when the page is large enough.
* `set_bootloader_message_mtd_small`: with pages of 512 bytes the copy leaves the buffer.
-/

namespace BootableRecovery.Recovery

open Mtdutils

def MISC_PAGES : Nat := 3
def MISC_COMMAND_PAGE : Nat := 1

/-- The bytes of `struct bootloader_message`. -/
def BootloaderMessage.bytes (m : BootloaderMessage) : Bytes := m.command ++ (m.status ++ m.recovery)

/-! ## The code -/

/-- The `misc` partition without bad blocks: what succeeds besides reading and writing it, the
page size of the device, and what is in the buffer of a read context. -/
structure Misc (p : MtdPartition) where
  mtd_find_partition_by_name : Bool
  mtd_partition_info : Bool
  mtd_read_partition : Bool
  mtd_write_partition : Bool
  close : Bool
  write_size : Nat
  write_size_lt : write_size < 2 ^ 32
  buffer : { b : Bytes // b.length = p.erase_size }
  leftover : Leftover p

section Code

variable {p : MtdPartition} (m : Misc p)

/-- The partition gets read. -/
def Misc.reads : Bool :=
  m.mtd_find_partition_by_name && m.mtd_partition_info && m.mtd_read_partition

/-- The partition gets written. -/
def Misc.writes : Bool := m.mtd_write_partition && m.close

/-- `write_size * MISC_PAGES`, a `size_t` of 32 bits. -/
def Misc.size : Nat := toU32 ((m.write_size * MISC_PAGES : Nat) : Int)

/-- Read the pages. -/
def Misc.readPages (flash : Flash) : Outcome (Option Bytes) :=
  if !m.mtd_find_partition_by_name then .done none
  else if !m.mtd_partition_info then .done none
  else if !m.mtd_read_partition then .done none
  else readFront p m.buffer flash m.size

/-- `get_bootloader_message_mtd`: the bytes of the message, or `none` for -1. -/
def get_bootloader_message_mtd (flash : Flash) : Outcome (Option Bytes) := do
  let r ← m.readPages flash
  match r with
  | none => .done none
  | some data => do
    let out ← load data (m.write_size * MISC_COMMAND_PAGE : Nat) 1088
    .done (some out)

/-- `set_bootloader_message_mtd`: what the partition holds, or `none` for -1. -/
def set_bootloader_message_mtd (flash : Flash) (msg : BootloaderMessage) :
    Outcome (Option Flash) := do
  let r ← m.readPages flash
  match r with
  | none => .done none
  | some data =>
    if data.length < m.write_size * MISC_COMMAND_PAGE + msg.bytes.length then .fault
    else if !m.mtd_write_partition then .done none
    else do
      let data := overwrite data (m.write_size * MISC_COMMAND_PAGE) msg.bytes
      let w ← writePartition cleanChip m.leftover flash [data]
      .done (if m.close then w else none)

/-! ## What is expected -/

/-- A page of the partition. -/
def Misc.page (flash : Flash) (i : Nat) : Bytes :=
  slice (contents p flash) (i * m.write_size) m.write_size

/-- The message is read, and the other pages are as before. -/
structure Replaced (msg : BootloaderMessage) (flash flash' : Flash) : Prop where
  get : get_bootloader_message_mtd m flash' = .done (some msg.bytes)
  page0 : m.page flash' 0 = m.page flash 0
  page2 : m.page flash' 2 = m.page flash 2

/-- When the pages can be read, the message fits into two of them. When they can be written too,
it fits into one, or its end is what the page behind it begins with anyway. -/
def MessageFits (flash : Flash) (msg : BootloaderMessage) : Prop :=
  m.reads = true → m.size ≤ blocks p * p.erase_size →
    m.write_size + 1088 ≤ m.size ∧
      (m.writes = true → 1088 ≤ m.write_size ∨
        slice (contents p flash) (2 * m.write_size) (1088 - m.write_size) =
          msg.bytes.drop m.write_size)

end Code

theorem BootloaderMessage.bytes_length (msg : BootloaderMessage) : msg.bytes.length = 1088 := by
  rw [bytes, List.length_append, List.length_append, msg.command_length, msg.status_length,
    msg.recovery_length]

/-! ## Slices -/

section Slices

variable {content block : Bytes} {pos q n : Nat}

theorem slice_take (content : Bytes) (h : q + n ≤ pos) :
    slice (content.take pos) q n = slice content q n := by
  unfold slice
  rw [List.drop_take, List.take_take, Nat.min_eq_left (by omega)]

/-- Bytes that begin in the new block and end behind it. -/
theorem slice_overwrite_end (h : pos + block.length ≤ content.length) (hq : pos ≤ q)
    (hend : q ≤ pos + block.length) (hn : pos + block.length ≤ q + n) :
    slice (overwrite content pos block) q n =
      block.drop (q - pos) ++ slice content (pos + block.length) (q + n - (pos + block.length)) := by
  have htake : (content.take pos).length = pos := by
    rw [List.length_take]
    omega
  have hdrop : (block.drop (q - pos)).length = block.length - (q - pos) := List.length_drop
  unfold slice overwrite
  rw [List.drop_append, List.drop_of_length_le (by omega), List.nil_append, htake,
    List.drop_append_of_le_length (by omega), List.take_append, List.take_of_length_le (by omega),
    hdrop]
  congr 2
  omega

/-- They are as before exactly when the end of the block is. -/
theorem slice_overwrite_end_iff (h : pos + block.length ≤ content.length) (hq : pos ≤ q)
    (hend : q ≤ pos + block.length) (hn : pos + block.length ≤ q + n) :
    slice (overwrite content pos block) q n = slice content q n ↔
      slice content q (pos + block.length - q) = block.drop (q - pos) := by
  have hsplit := slice_append_slice content q (pos + block.length - q)
    (q + n - (pos + block.length))
  have hpos : q + (pos + block.length - q) = pos + block.length := by omega
  have hsum : pos + block.length - q + (q + n - (pos + block.length)) = n := by omega
  rw [hpos, hsum] at hsplit
  rw [slice_overwrite_end h hq hend hn, ← hsplit, List.append_left_inj, eq_comm]

end Slices

/-! ## The result -/

section Result

variable {p : MtdPartition} {m : Misc p} {flash : Flash}

theorem Misc.size_lt (m : Misc p) : m.size < 2 ^ 32 := toU32_lt _

/-- The pages are read when nothing fails and the partition is long enough. -/
theorem readPages_spec (h : Whole p flash) :
    m.readPages flash = .done (if m.reads = true ∧ m.size ≤ blocks p * p.erase_size then
      some ((contents p flash).take m.size) else none) := by
  have hfront := readFront_spec h m.buffer m.size_lt
  unfold Misc.readPages Misc.reads
  cases m.mtd_find_partition_by_name with
  | false => simp
  | true =>
    cases m.mtd_partition_info with
    | false => simp
    | true =>
      cases m.mtd_read_partition with
      | false => simp
      | true => simpa using hfront

/-- Three pages that hold the message are not counted in a wrapped number. -/
theorem Misc.size_eq (hcap : m.size ≤ blocks p * p.erase_size)
    (hfits : m.write_size + 1088 ≤ m.size) : m.size = 3 * m.write_size := by
  have hlt := m.write_size_lt
  have hsmall : m.size < 2 ^ 31 := lt_of_le_of_lt hcap (blocks_mul_le p)
  unfold size MISC_PAGES toU32 at *
  omega

/-- A page of what was read is a page of the partition. -/
theorem page_eq {flash' : Flash} {data : Bytes} (hdata : (contents p flash').take m.size = data)
    {i : Nat} (hi : (i + 1) * m.write_size ≤ m.size) :
    m.page flash' i = slice data (i * m.write_size) m.write_size := by
  rw [Nat.succ_mul] at hi
  rw [← hdata, slice_take _ hi]
  rfl

/-- Writing the pages with the message in them. -/
theorem replaced_iff (h : Whole p flash) (msg : BootloaderMessage) (hreads : m.reads = true)
    (hcap : m.size ≤ blocks p * p.erase_size) (hfits : m.write_size + 1088 ≤ m.size)
    {flash' : Flash} (h' : Whole p flash')
    (hdata : (contents p flash').take m.size =
      overwrite ((contents p flash).take m.size) m.write_size msg.bytes) :
    Replaced m msg flash flash' ↔ (1088 ≤ m.write_size ∨
      slice (contents p flash) (2 * m.write_size) (1088 - m.write_size) =
        msg.bytes.drop m.write_size) := by
  have hmsg := msg.bytes_length
  have hsize := Misc.size_eq hcap hfits
  have hlen : ((contents p flash).take m.size).length = m.size := by
    rw [List.length_take, contents_length h]
    exact Nat.min_eq_left hcap
  have hroom : m.write_size + msg.bytes.length ≤ ((contents p flash).take m.size).length := by
    rw [hmsg, hlen]
    exact hfits
  have hget : get_bootloader_message_mtd m flash' = .done (some msg.bytes) := by
    have hload := load_ofNat (b := overwrite ((contents p flash).take m.size) m.write_size msg.bytes)
      (i := m.write_size * MISC_COMMAND_PAGE) (n := 1088) (by
        rw [overwrite_length hroom, hlen, MISC_COMMAND_PAGE, Nat.mul_one]
        exact hfits)
    have hslice := slice_overwrite hroom
    rw [hmsg] at hslice
    rw [MISC_COMMAND_PAGE, Nat.mul_one, hslice] at hload
    unfold get_bootloader_message_mtd
    rw [readPages_spec h', if_pos ⟨hreads, hcap⟩, hdata, Outcome.done_bind]
    simp only [MISC_COMMAND_PAGE, Nat.mul_one, hload, Outcome.done_bind]
  have hpage0 : m.page flash' 0 = m.page flash 0 := by
    rw [page_eq hdata (by omega), page_eq rfl (by omega),
      slice_overwrite_of_disjoint hroom (.inl (by omega))]
  have hpage2 : m.page flash' 2 = m.page flash 2 ↔ (1088 ≤ m.write_size ∨
      slice (contents p flash) (2 * m.write_size) (1088 - m.write_size) =
        msg.bytes.drop m.write_size) := by
    have hold : m.page flash 2 =
        slice ((contents p flash).take m.size) (2 * m.write_size) m.write_size :=
      page_eq rfl (by omega)
    rw [page_eq hdata (by omega), hold]
    rcases Nat.lt_or_ge m.write_size 1088 with hlt | hge
    · have hiff := slice_overwrite_end_iff hroom (q := 2 * m.write_size) (n := m.write_size)
        (by omega) (by omega) (by omega)
      have hstart : 2 * m.write_size - m.write_size = m.write_size := by omega
      have hcount : m.write_size + msg.bytes.length - 2 * m.write_size = 1088 - m.write_size := by
        omega
      rw [hiff, hstart, hcount, slice_take _ (by omega)]
      exact ⟨.inr, fun hor => hor.resolve_left (by omega)⟩
    · refine iff_of_true ?_ (.inl hge)
      exact slice_overwrite_of_disjoint hroom (.inr (by omega))
  exact ⟨fun hrep => hpage2.mp hrep.page2, fun hor => ⟨hget, hpage0, hpage2.mpr hor⟩⟩

/-- Setting a message keeps inside the buffer and, if it succeeds, makes it the message and
leaves the other pages alone, exactly when the message fits. -/
theorem set_bootloader_message_mtd_iff (m : Misc p) (flash : { f : Flash // Whole p f })
    (msg : BootloaderMessage) :
    (∃ r, set_bootloader_message_mtd m flash msg = .done r ∧
      ∀ flash', r = some flash' → Replaced m msg flash flash') ↔ MessageFits m flash msg := by
  obtain ⟨flash, hwhole⟩ := flash
  have hmsg := msg.bytes_length
  simp only
  unfold set_bootloader_message_mtd
  rw [readPages_spec hwhole]
  by_cases hread : m.reads = true ∧ m.size ≤ blocks p * p.erase_size
  swap
  · rw [if_neg hread, Outcome.done_bind]
    exact iff_of_true ⟨_, rfl, nofun⟩ fun hreads hcap => absurd ⟨hreads, hcap⟩ hread
  obtain ⟨hreads, hcap⟩ := hread
  have hlen : ((contents p flash).take m.size).length = m.size := by
    rw [List.length_take, contents_length hwhole]
    exact Nat.min_eq_left hcap
  rw [if_pos ⟨hreads, hcap⟩, Outcome.done_bind]
  simp only [hlen, hmsg, MISC_COMMAND_PAGE, Nat.mul_one]
  by_cases hfits : m.write_size + 1088 ≤ m.size
  swap
  · rw [if_pos (by omega)]
    exact iff_of_false (fun ⟨r, hr, _⟩ => by cases hr) fun hm => hfits (hm hreads hcap).1
  rw [if_neg (by omega)]
  have hmessage : MessageFits m flash msg ↔ (m.writes = true → 1088 ≤ m.write_size ∨
      slice (contents p flash) (2 * m.write_size) (1088 - m.write_size) =
        msg.bytes.drop m.write_size) :=
    ⟨fun hm => (hm hreads hcap).2, fun hm _ _ => ⟨hfits, hm⟩⟩
  rw [hmessage]
  cases hopen : m.mtd_write_partition with
  | false =>
    refine iff_of_true ⟨none, rfl, nofun⟩ fun hw => ?_
    rw [Misc.writes, hopen] at hw
    cases hw
  | true =>
    have hroom : m.write_size + msg.bytes.length ≤ ((contents p flash).take m.size).length := by
      rw [hmsg, hlen]
      exact hfits
    have hdata := overwrite_length hroom
    rw [hlen] at hdata
    have hne : overwrite ((contents p flash).take m.size) m.write_size msg.bytes ≠ [] :=
      List.ne_nil_of_length_pos (by omega)
    obtain ⟨flash', hwrite, hwhole', hfront⟩ :=
      writePartition_clean m.leftover hwhole hne (by omega)
    rw [hdata] at hfront
    have hiff := replaced_iff hwhole msg hreads hcap hfits hwhole' hfront
    simp only [Bool.not_true, Bool.false_eq_true, if_false, hwrite, Outcome.done_bind]
    cases hclose : m.close with
    | false =>
      refine iff_of_true ⟨none, rfl, nofun⟩ fun hw => ?_
      rw [Misc.writes, hclose, Bool.and_false] at hw
      cases hw
    | true =>
      have hw : m.writes = true := by rw [Misc.writes, hopen, hclose]; rfl
      rw [← hiff]
      simp only [hw, true_implies, if_true]
      constructor
      · rintro ⟨r, hr, hall⟩
        cases hr
        exact hall flash' rfl
      · intro hrep
        refine ⟨_, rfl, fun f hf => ?_⟩
        cases hf
        exact hrep

end Result

/-- A partition of three pages of 512 bytes, a block each. -/
def smallPages : MtdPartition := ⟨1536, 512, by decide, by decide⟩

/-- Pages of 512 bytes. -/
def smallMisc : Misc smallPages where
  mtd_find_partition_by_name := true
  mtd_partition_info := true
  mtd_read_partition := true
  mtd_write_partition := true
  close := true
  write_size := 512
  write_size_lt := by decide
  buffer := ⟨List.replicate 512 0, List.length_replicate⟩
  leftover := erasedLeftover smallPages

def zeroFlash : { f : Flash // Whole smallPages f } :=
  ⟨fun _ => List.replicate 512 0, fun _ => List.length_replicate⟩

/-- With pages of 512 bytes the message does not fit into the buffer. -/
theorem set_bootloader_message_mtd_small :
    ¬ ∃ r, set_bootloader_message_mtd smallMisc zeroFlash zeroMessage = .done r ∧
      ∀ flash', r = some flash' → Replaced smallMisc zeroMessage zeroFlash flash' := by
  have hfault : (do
      let r ← set_bootloader_message_mtd smallMisc zeroFlash zeroMessage
      .done r.isSome) = .fault := by decide +kernel
  rintro ⟨r, hr, -⟩
  rw [hr] at hfault
  cases hfault

end BootableRecovery.Recovery
