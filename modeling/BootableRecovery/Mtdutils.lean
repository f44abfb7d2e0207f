import BootableRecovery.Lib.Blocks
import BootableRecovery.Mtdutils.Stream

/-!
# `mtdutils/mtdutils.c`: reading and writing flash partitions

A partition is an array of erase blocks. The writer collects data into whole
blocks and puts each into the next block it can write; the reader returns the
blocks it can read, in order. Each skips blocks by its own rule, and no map of
the skipped blocks is stored.

The device is described by the answers it gives. `Chip` says which blocks are
bad from the factory, whether `MEMGETBADBLOCK` is supported at all, and what
goes wrong in each try to write a block; `Leftover` says what a failed operation
leaves in the block.

Main results:
* `write_block_spec`, `read_block_spec`: which block is written and which is
  read.
* `mtd_write_data_eq`: the calls of `mtd_write_data` write the whole blocks of
  the data, however it is cut into calls.
* `mtd_read_data_spec`: reading returns the blocks that `Stored` describes.
* `mtd_identity_iff`: on which devices reading back gives what was written.
-/

namespace BootableRecovery.Mtdutils

/-! ## The device -/

/-- `MtdPartition`, the fields that are used. The sizes are `unsigned int`. -/
structure MtdPartition where
  size : Nat
  erase_size : Nat
  erase_pos : 0 < erase_size
  size_lt : size < 2 ^ 32

/-- What goes wrong in one try to write a block: the erase fails, the block
holds something else after programming, or it cannot be read back. -/
inductive Fault where
  | none
  | erase
  | program
  | reread
  deriving DecidableEq, Repr

/-- The answers of a device. `memgetbadblock` is `none` where the `ioctl` is not
supported (`EOPNOTSUPP`), else it tells the bad blocks. `fault b retry` is the
fault of a try to write block `b`; try 2 is the last erase of a block that is
given up. -/
structure Chip where
  memgetbadblock : Option (Nat → Bool)
  fault : Nat → Nat → Fault

/-- What a failed operation leaves in a block, when `data` was to be written
there. A program failure leaves something else than the data. -/
structure Leftover (p : MtdPartition) where
  left : Nat → Nat → Bytes → Bytes
  left_ne : ∀ b retry data, left b retry data ≠ data
  left_length : ∀ b retry data, (left b retry data).length = p.erase_size

/-- The contents of the blocks. -/
abbrev Flash := Nat → Bytes

/-- An erased block. -/
def erased (p : MtdPartition) : Bytes := List.replicate p.erase_size 0xff

def Chip.isBad (c : Chip) (b : Nat) : Bool :=
  match c.memgetbadblock with
  | some f => f b
  | none => false

/-! ## Writing -/

/-- The part of `MtdWriteContext` that `write_block` changes: the offset of the
file descriptor, the contents of the flash behind it, and the offsets of the
blocks that were skipped. -/
structure WriteFd where
  pos : Nat
  flash : Flash
  bad_block_offsets : List Nat

/-- `MtdWriteContext`. `buffer` is the stored part of the buffer. -/
structure MtdWriteContext where
  buffer : Bytes
  fd : WriteFd

/-- One turn of the retry loop of `write_block`: erase, write, read back and
compare. -/
def tryBlock {p : MtdPartition} (c : Chip) (l : Leftover p) (b retry : Nat) (data : Bytes)
    (flash : Flash) : Flash × Bool :=
  if c.fault b retry = .erase then (Function.update flash b (l.left b retry data), false)
  else
    let flash := Function.update flash b
      (if c.fault b retry = .program then l.left b retry data else data)
    if c.fault b retry = .reread then (flash, false)
    else (flash, flash b == data)

/-- Give up on a block: try to erase it once more. -/
def giveUp {p : MtdPartition} (c : Chip) (l : Leftover p) (b : Nat) (data : Bytes)
    (flash : Flash) : Flash :=
  Function.update flash b (if c.fault b 2 = .erase then l.left b 2 data else erased p)

/-- The loop of `write_block` from the offset `pos` on; `none` is the return
value -1. -/
def writeLoop {p : MtdPartition} (c : Chip) (l : Leftover p) (data : Bytes) :
    Nat → Nat → WriteFd → Outcome (Option WriteFd)
  | fuel, pos, fd =>
    if (pos : Int) + p.erase_size ≤ wrap32 p.size then
      match fuel with
      | 0 => .spin
      | fuel + 1 =>
        let b := pos / p.erase_size
        let skipped := { fd with bad_block_offsets := fd.bad_block_offsets ++ [pos] }
        if c.isBad b then writeLoop c l data fuel (pos + p.erase_size) skipped
        else
          let (flash₀, ok₀) := tryBlock c l b 0 data fd.flash
          if ok₀ then .done (some { fd with pos := pos + p.erase_size, flash := flash₀ })
          else
            let (flash₁, ok₁) := tryBlock c l b 1 data flash₀
            if ok₁ then .done (some { fd with pos := pos + p.erase_size, flash := flash₁ })
            else
              writeLoop c l data fuel (pos + p.erase_size)
                { skipped with flash := giveUp c l b data flash₁ }
    else .done none

/-- `write_block`. -/
def write_block {p : MtdPartition} (c : Chip) (l : Leftover p) (fd : WriteFd) (data : Bytes) :
    Outcome (Option WriteFd) :=
  writeLoop c l data (p.size / p.erase_size + 1) fd.pos fd

/-- The inner loop of `mtd_write_data`: write complete blocks directly from the
user's buffer. The result has the data that is left. -/
def writeWhole {p : MtdPartition} (c : Chip) (l : Leftover p) :
    Nat → MtdWriteContext → Bytes → Outcome (Option (MtdWriteContext × Bytes))
  | fuel, ctx, rest =>
    if ctx.buffer.length = 0 ∧ p.erase_size ≤ rest.length then
      match fuel with
      | 0 => .spin
      | fuel + 1 => do
        let some fd ← write_block c l ctx.fd (rest.take p.erase_size) | .done none
        writeWhole c l fuel { ctx with fd := fd } (rest.drop p.erase_size)
    else .done (some (ctx, rest))

/-- Coalesce partial writes into complete blocks. -/
def coalesce (p : MtdPartition) (ctx : MtdWriteContext) (rest : Bytes) : MtdWriteContext × Bytes :=
  if 0 < ctx.buffer.length ∨ rest.length < p.erase_size then
    let avail := p.erase_size - ctx.buffer.length
    let copy := if rest.length < avail then rest.length else avail
    ({ ctx with buffer := ctx.buffer ++ rest.take copy }, rest.drop copy)
  else (ctx, rest)

/-- If a complete block was accumulated, write it. -/
def flushFull {p : MtdPartition} (c : Chip) (l : Leftover p) (ctx : MtdWriteContext) :
    Outcome (Option MtdWriteContext) :=
  if ctx.buffer.length = p.erase_size then do
    let some fd ← write_block c l ctx.fd ctx.buffer | .done none
    .done (some ⟨[], fd⟩)
  else .done (some ctx)

/-- The loop of `mtd_write_data` over the data that is not written yet. -/
def writeDataLoop {p : MtdPartition} (c : Chip) (l : Leftover p) :
    Nat → MtdWriteContext → Bytes → Outcome (Option MtdWriteContext)
  | fuel, ctx, rest =>
    if 0 < rest.length then
      match fuel with
      | 0 => .spin
      | fuel + 1 => do
        let some ctx' ← flushFull c l (coalesce p ctx rest).1 | .done none
        let rest' := (coalesce p ctx rest).2
        let some (ctx'', rest'') ← writeWhole c l rest'.length ctx' rest' | .done none
        writeDataLoop c l fuel ctx'' rest''
    else .done (some ctx)

/-- `mtd_write_data`; `none` is the return value -1, else all the data was
taken. -/
def mtd_write_data {p : MtdPartition} (c : Chip) (l : Leftover p) (ctx : MtdWriteContext)
    (data : Bytes) : Outcome (Option MtdWriteContext) :=
  writeDataLoop c l data.length ctx data

/-- Zero-pad and write any pending data, as `mtd_erase_blocks` does first. -/
def flushPadded {p : MtdPartition} (c : Chip) (l : Leftover p) (ctx : MtdWriteContext) :
    Outcome (Option WriteFd) :=
  if 0 < ctx.buffer.length then
    let pad := p.erase_size - ctx.buffer.length
    write_block c l ctx.fd (ctx.buffer ++ List.replicate pad 0)
  else .done (some ctx.fd)

/-- `mtd_write_close`, which is `mtd_erase_blocks(ctx, 0)` and `close`. The
result is the contents of the flash, or `none` when -1 is returned. -/
def mtd_write_close {p : MtdPartition} (c : Chip) (l : Leftover p) (ctx : MtdWriteContext) :
    Outcome (Option Flash) := do
  let some fd ← flushPadded c l ctx | .done none
  let total := wrap32 (toU32 ((p.size : Int) - fd.pos) / p.erase_size : Nat)
  if 0 > total then .done none else .done (some fd.flash)

/-- `mtd_write_partition`. -/
def mtd_write_partition (flash : Flash) : MtdWriteContext := ⟨[], 0, flash, []⟩

/-- Calls of `mtd_write_data` with the pieces of the data. -/
def writePieces {p : MtdPartition} (c : Chip) (l : Leftover p) :
    List Bytes → MtdWriteContext → Outcome (Option MtdWriteContext)
  | [], ctx => .done (some ctx)
  | piece :: pieces, ctx => do
    let some ctx ← mtd_write_data c l ctx piece | .done none
    writePieces c l pieces ctx

/-- Open the partition, write the pieces and close it. -/
def writePartition {p : MtdPartition} (c : Chip) (l : Leftover p) (flash : Flash)
    (pieces : List Bytes) : Outcome (Option Flash) := do
  let some ctx ← writePieces c l pieces (mtd_write_partition flash) | .done none
  mtd_write_close c l ctx

/-! ## Reading -/

/-- How the device answers a reader: the contents, the blocks whose `read`
fails, the ECC failures that reading a block adds, and the calls of
`ECCGETSTATS` that fail, by their number. -/
structure ReadEnv where
  content : Flash
  memgetbadblock : Option (Nat → Bool)
  readError : Nat → Bool
  eccFailures : Nat → Nat
  eccgetstatsFails : Nat → Bool

/-- The state of the file descriptor: its offset, the count of ECC failures,
and the number of `ECCGETSTATS` calls made. -/
structure ReadFd where
  pos : Nat
  failed : Nat
  calls : Nat
  deriving DecidableEq, Repr

/-- The loop of `read_block` from the offset `pos` on; `before` is the count of
failures it compares with. -/
def readLoop (p : MtdPartition) (env : ReadEnv) : Nat → Nat → Nat → ReadFd →
    Outcome (Option (Bytes × ReadFd))
  | fuel, pos, before, fd =>
    if (pos : Int) + p.erase_size ≤ wrap32 p.size then
      match fuel with
      | 0 => .spin
      | fuel + 1 =>
        let b := pos / p.erase_size
        let fd := { fd with pos := pos + p.erase_size, failed := fd.failed + env.eccFailures b }
        if env.readError b then readLoop p env fuel (pos + p.erase_size) before fd
        else if env.eccgetstatsFails fd.calls then .done none
        else
          let fd := { fd with calls := fd.calls + 1 }
          if fd.failed ≠ before then readLoop p env fuel (pos + p.erase_size) fd.failed fd
          else
            let mgbb : Int := match env.memgetbadblock with
              | some f => if f b then 1 else 0
              | none => -1
            if mgbb ≠ 0 then readLoop p env fuel (pos + p.erase_size) before fd
            else .done (some (env.content b, fd))
    else .done none

/-- `read_block`: the block that is read, or `none` when -1 is returned. -/
def read_block (p : MtdPartition) (env : ReadEnv) (fd : ReadFd) :
    Outcome (Option (Bytes × ReadFd)) :=
  if env.eccgetstatsFails fd.calls then .done none
  else readLoop p env (p.size / p.erase_size + 1) fd.pos fd.failed { fd with calls := fd.calls + 1 }

/-- `MtdReadContext`. -/
structure MtdReadContext where
  buffer : Bytes
  consumed : Nat
  fd : ReadFd
  deriving DecidableEq, Repr

/-- Read complete blocks directly into the user's buffer, which holds `data`
and has room for `len` bytes. -/
def readWhole (p : MtdPartition) (env : ReadEnv) (len : Nat) :
    Nat → MtdReadContext → Bytes → Outcome (Option (MtdReadContext × Bytes))
  | fuel, ctx, data =>
    if ctx.consumed = p.erase_size ∧ p.erase_size ≤ len - data.length then
      match fuel with
      | 0 => .spin
      | fuel + 1 => do
        let some (block, fd) ← read_block p env ctx.fd | .done none
        readWhole p env len fuel { ctx with fd := fd } (data ++ block)
    else .done (some (ctx, data))

/-- Take what is wanted and still in the buffer. -/
def copyBuffered (p : MtdPartition) (len : Nat) (ctx : MtdReadContext) (data : Bytes) :
    MtdReadContext × Bytes :=
  if ctx.consumed < p.erase_size then
    let avail := p.erase_size - ctx.consumed
    let copy := if len - data.length < avail then len - data.length else avail
    ({ ctx with consumed := ctx.consumed + copy }, data ++ slice ctx.buffer ctx.consumed copy)
  else (ctx, data)

/-- The loop of `mtd_read_data`; `data` is what was read so far. -/
def readDataLoop (p : MtdPartition) (env : ReadEnv) (len : Nat) :
    Nat → MtdReadContext → Bytes → Outcome (Option (Bytes × MtdReadContext))
  | fuel, ctx, data =>
    if (data.length : Int) < wrap32 len then
      match fuel with
      | 0 => .spin
      | fuel + 1 => do
        let copied := copyBuffered p len ctx data
        let some (ctx, data) ← readWhole p env len len copied.1 copied.2 | .done none
        if (data.length : Int) ≥ wrap32 len then .done (some (data, ctx))
        else if ctx.consumed = p.erase_size ∧ (data.length : Int) < wrap32 len then
          let some (block, fd) ← read_block p env ctx.fd | .done none
          readDataLoop p env len fuel { ctx with buffer := block, consumed := 0, fd := fd } data
        else readDataLoop p env len fuel ctx data
    else .done (some (data, ctx))

/-- `mtd_read_data`: the bytes that are read, or `none` when -1 is returned. -/
def mtd_read_data (p : MtdPartition) (env : ReadEnv) (ctx : MtdReadContext) (len : Nat) :
    Outcome (Option (Bytes × MtdReadContext)) :=
  readDataLoop p env len (len + 1) ctx []

/-- `mtd_read_partition`. -/
def mtd_read_partition (p : MtdPartition) : MtdReadContext := ⟨[], p.erase_size, ⟨0, 0, 0⟩⟩

/-- A device that reads every block without an error. -/
def ReadEnv.faultless (c : Chip) (flash : Flash) : ReadEnv where
  content := flash
  memgetbadblock := c.memgetbadblock
  readError _ := false
  eccFailures _ := 0
  eccgetstatsFails _ := false

/-- Open the partition and read `len` bytes from the start. -/
def readPartition (p : MtdPartition) (env : ReadEnv) (len : Nat) : Outcome (Option Bytes) := do
  let some (data, _) ← mtd_read_data p env (mtd_read_partition p) len | .done none
  .done (some data)

/-! ## Which block is written -/

section Write

variable {p : MtdPartition} {c : Chip} {l : Leftover p}

/-- The block is inside the partition, whose size is cast to `int`. -/
def InPartition (p : MtdPartition) (b : Nat) : Prop :=
  ((b * p.erase_size : Nat) : Int) + p.erase_size ≤ wrap32 p.size

instance (p : MtdPartition) (b : Nat) : Decidable (InPartition p b) := Int.decLe _ _

/-- The number of blocks of a partition; one from 2^31 bytes on has a negative size. -/
def blocks (p : MtdPartition) : Nat := (wrap32 p.size).toNat / p.erase_size

/-- `write_block` puts data into this block when it gets there. -/
def Chip.Writable (c : Chip) (b : Nat) : Prop :=
  c.isBad b = false ∧ (c.fault b 0 = .none ∨ c.fault b 1 = .none)

/-- `write_block` gives up on this block although it is not a bad one. -/
def Chip.GivenUp (c : Chip) (b : Nat) : Prop :=
  c.isBad b = false ∧ c.fault b 0 ≠ .none ∧ c.fault b 1 ≠ .none

instance (c : Chip) (b : Nat) : Decidable (c.Writable b) := instDecidableAnd

instance (c : Chip) (b : Nat) : Decidable (c.GivenUp b) := instDecidableAnd

theorem Chip.bad_or_givenUp_of_not_writable {b : Nat} (h : ¬ c.Writable b) :
    c.isBad b = true ∨ c.GivenUp b := by
  cases hbad : c.isBad b with
  | true => exact .inl rfl
  | false =>
    refine .inr ⟨hbad, ?_, ?_⟩
    · exact fun h0 => h ⟨hbad, .inl h0⟩
    · exact fun h1 => h ⟨hbad, .inr h1⟩

/-- The first block from `k` on that can be written. -/
structure FirstWritable (p : MtdPartition) (c : Chip) (k b : Nat) : Prop where
  le : k ≤ b
  inPartition : InPartition p b
  writable : c.Writable b
  before : ∀ j, k ≤ j → j < b → ¬ c.Writable j

/-- What is in a block that was given up. -/
def givenUpContent (c : Chip) (l : Leftover p) (b : Nat) (data : Bytes) : Bytes :=
  if c.fault b 2 = .erase then l.left b 2 data else erased p

/-- The flash after `data` went into block `b` and the blocks from `k` on were
skipped. -/
def afterWrite (c : Chip) (l : Leftover p) (flash : Flash) (k b : Nat) (data : Bytes) : Flash :=
  fun j => if j = b then data
    else if k ≤ j ∧ j < b ∧ c.GivenUp j then givenUpContent c l j data else flash j

theorem wrap32_size_le (p : MtdPartition) : wrap32 p.size ≤ p.size := by
  unfold wrap32
  omega

theorem InPartition.mono {b b' : Nat} (h : InPartition p b) (hle : b' ≤ b) : InPartition p b' := by
  have hmul : b' * p.erase_size ≤ b * p.erase_size := Nat.mul_le_mul_right _ hle
  unfold InPartition at h ⊢
  omega

theorem InPartition.lt {b : Nat} (h : InPartition p b) : b < p.size / p.erase_size := by
  unfold InPartition at h
  have hle := wrap32_size_le p
  have hmul : (b + 1) * p.erase_size ≤ p.size := by
    rw [Nat.succ_mul]
    omega
  exact (Nat.le_div_iff_mul_le p.erase_pos).mpr hmul

theorem inPartition_iff {b : Nat} : InPartition p b ↔ b < blocks p := by
  have hmul : ((b + 1) * p.erase_size : Nat) = b * p.erase_size + p.erase_size := Nat.succ_mul _ _
  have hpos := p.erase_pos
  rw [InPartition, blocks, Nat.lt_iff_add_one_le, Nat.le_div_iff_mul_le p.erase_pos]
  omega

theorem blocks_le (p : MtdPartition) : blocks p ≤ p.size / p.erase_size := by
  refine Nat.div_le_div_right ?_
  have := wrap32_size_le p
  omega

theorem tryBlock_none {b retry : Nat} (h : c.fault b retry = .none) (data : Bytes) (flash : Flash) :
    tryBlock c l b retry data flash = (Function.update flash b data, true) := by
  simp [tryBlock, h]

theorem tryBlock_fault (l : Leftover p) {b retry : Nat} (h : c.fault b retry ≠ .none) (data : Bytes)
    (flash : Flash) :
    ∃ x, tryBlock c l b retry data flash = (Function.update flash b x, false) := by
  cases hf : c.fault b retry with
  | none => exact absurd hf h
  | erase => exact ⟨l.left b retry data, by simp only [tryBlock, hf, if_true]⟩
  | program =>
    refine ⟨l.left b retry data, ?_⟩
    simp [tryBlock, hf, l.left_ne]
  | reread => exact ⟨data, by simp [tryBlock, hf]⟩

theorem afterWrite_self (flash : Flash) (b : Nat) (data : Bytes) :
    afterWrite c l flash b b data = Function.update flash b data := by
  funext j
  unfold afterWrite
  by_cases hj : j = b
  · rw [if_pos hj, hj, Function.update_self]
  · rw [if_neg hj, if_neg (by omega), Function.update_of_ne hj]

/-- Skipping a bad block changes nothing. -/
theorem afterWrite_bad {k b : Nat} (hbad : c.isBad k = true) (hlt : k < b) (flash : Flash)
    (data : Bytes) : afterWrite c l flash (k + 1) b data = afterWrite c l flash k b data := by
  funext j
  unfold afterWrite
  by_cases hj : j = k
  · subst hj
    have hno : ¬ c.GivenUp j := fun h => by rw [h.1] at hbad; cases hbad
    simp [hno]
  · have hiff : (k + 1 ≤ j ∧ j < b ∧ c.GivenUp j) ↔ (k ≤ j ∧ j < b ∧ c.GivenUp j) := by
      constructor
      · rintro ⟨h1, h2, h3⟩
        exact ⟨by omega, h2, h3⟩
      · rintro ⟨h1, h2, h3⟩
        exact ⟨by omega, h2, h3⟩
    simp only [hiff]

/-- Skipping a block that was given up leaves its last contents. -/
theorem afterWrite_givenUp {k b : Nat} (hg : c.GivenUp k) (hlt : k < b) (flash : Flash)
    (data : Bytes) (x y : Bytes) :
    afterWrite c l (giveUp c l k data (Function.update (Function.update flash k x) k y)) (k + 1) b
      data = afterWrite c l flash k b data := by
  funext j
  unfold afterWrite giveUp givenUpContent
  by_cases hj : j = k
  · subst hj
    have hne : j ≠ b := by omega
    have hnot : ¬ (j + 1 ≤ j ∧ j < b ∧ c.GivenUp j) := by omega
    have hyes : j ≤ j ∧ j < b ∧ c.GivenUp j := ⟨le_rfl, hlt, hg⟩
    simp only [if_neg hne, if_neg hnot, if_pos hyes, Function.update_self]
  · have hiff : (k + 1 ≤ j ∧ j < b ∧ c.GivenUp j) ↔ (k ≤ j ∧ j < b ∧ c.GivenUp j) := by
      constructor
      · rintro ⟨h1, h2, h3⟩
        exact ⟨by omega, h2, h3⟩
      · rintro ⟨h1, h2, h3⟩
        exact ⟨by omega, h2, h3⟩
    simp only [hiff, Function.update_of_ne hj]

section Turns

variable {k fuel : Nat} (data : Bytes) (fd : WriteFd)

theorem block_of_pos (p : MtdPartition) (k : Nat) : k * p.erase_size / p.erase_size = k :=
  Nat.mul_div_cancel k p.erase_pos

theorem writeLoop_out (hout : ¬ InPartition p k) :
    writeLoop c l data fuel (k * p.erase_size) fd = .done none := by
  unfold writeLoop
  exact if_neg hout

theorem writeLoop_writable (hin : InPartition p k) (hw : c.Writable k) :
    writeLoop c l data (fuel + 1) (k * p.erase_size) fd =
      .done (some { fd with pos := (k + 1) * p.erase_size,
                            flash := Function.update fd.flash k data }) := by
  have hcond : ((k * p.erase_size : Nat) : Int) + p.erase_size ≤ wrap32 p.size := hin
  unfold writeLoop
  simp only [if_pos hcond, block_of_pos, hw.1, Bool.false_eq_true, if_false, ← Nat.succ_mul]
  by_cases h0 : c.fault k 0 = .none
  · simp only [tryBlock_none h0, if_true]
  · obtain ⟨x, hx⟩ := tryBlock_fault l h0 data fd.flash
    have h1 : c.fault k 1 = .none := hw.2.resolve_left h0
    simp only [hx, Bool.false_eq_true, if_false, tryBlock_none h1, if_true, Function.update_idem]

theorem writeLoop_bad (hin : InPartition p k) (hbad : c.isBad k = true) :
    writeLoop c l data (fuel + 1) (k * p.erase_size) fd =
      writeLoop c l data fuel ((k + 1) * p.erase_size)
        { fd with bad_block_offsets := fd.bad_block_offsets ++ [k * p.erase_size] } := by
  have hcond : ((k * p.erase_size : Nat) : Int) + p.erase_size ≤ wrap32 p.size := hin
  conv_lhs => unfold writeLoop
  simp only [if_pos hcond, block_of_pos, hbad, if_true, ← Nat.succ_mul]

theorem writeLoop_givenUp (l : Leftover p) (fuel : Nat) (hin : InPartition p k) (hg : c.GivenUp k) :
    ∃ x y, writeLoop c l data (fuel + 1) (k * p.erase_size) fd =
      writeLoop c l data fuel ((k + 1) * p.erase_size)
        { fd with
          bad_block_offsets := fd.bad_block_offsets ++ [k * p.erase_size]
          flash := giveUp c l k data (Function.update (Function.update fd.flash k x) k y) } := by
  have hcond : ((k * p.erase_size : Nat) : Int) + p.erase_size ≤ wrap32 p.size := hin
  obtain ⟨x, hx⟩ := tryBlock_fault l hg.2.1 data fd.flash
  obtain ⟨y, hy⟩ := tryBlock_fault l hg.2.2 data (Function.update fd.flash k x)
  refine ⟨x, y, ?_⟩
  conv_lhs => unfold writeLoop
  simp only [if_pos hcond, block_of_pos, hg.1, Bool.false_eq_true, if_false, hx, hy,
    ← Nat.succ_mul]

end Turns

/-- What the loop of `write_block` does from block `k` on: it writes the first
block that can be written, or there is none and it fails. -/
def WritesFirst (c : Chip) (l : Leftover p) (data : Bytes) (k : Nat) (flash : Flash)
    (r : Outcome (Option WriteFd)) : Prop :=
  (∃ b bad, FirstWritable p c k b ∧
    r = .done (some ⟨(b + 1) * p.erase_size, afterWrite c l flash k b data, bad⟩)) ∨
  ((∀ b, k ≤ b → InPartition p b → ¬ c.Writable b) ∧ r = .done none)

/-- A block that is not written is skipped: the search goes on behind it. -/
theorem WritesFirst.skip {data : Bytes} {k : Nat} {flash flash' : Flash}
    {r : Outcome (Option WriteFd)} (hno : ¬ c.Writable k)
    (h : WritesFirst c l data (k + 1) flash' r)
    (hflash : ∀ b, k < b → afterWrite c l flash' (k + 1) b data = afterWrite c l flash k b data) :
    WritesFirst c l data k flash r := by
  rcases h with ⟨b, bad, hfirst, hrun⟩ | ⟨hnone, hrun⟩
  · refine .inl ⟨b, bad, ⟨?_, hfirst.inPartition, hfirst.writable, ?_⟩, ?_⟩
    · exact le_trans (Nat.le_succ k) hfirst.le
    · intro j hkj hjb
      rcases Nat.eq_or_lt_of_le hkj with rfl | hlt
      · exact hno
      · exact hfirst.before j hlt hjb
    · rw [hrun, hflash b hfirst.le]
  · refine .inr ⟨?_, hrun⟩
    intro b hkb hinb
    rcases Nat.eq_or_lt_of_le hkb with rfl | hlt
    · exact hno
    · exact hnone b hlt hinb

theorem writeLoop_spec (data : Bytes) (fuel : Nat) : ∀ (k : Nat) (fd : WriteFd),
    p.size / p.erase_size < k + fuel →
    WritesFirst c l data k fd.flash (writeLoop c l data fuel (k * p.erase_size) fd) := by
  induction fuel with
  | zero =>
    intro k fd hfuel
    have hout : ¬ InPartition p k := fun hin => by have := hin.lt; omega
    exact .inr ⟨fun b hb hin => absurd (hin.mono hb) hout, writeLoop_out data fd hout⟩
  | succ fuel ih =>
    intro k fd hfuel
    by_cases hin : InPartition p k
    · by_cases hw : c.Writable k
      · refine .inl ⟨k, fd.bad_block_offsets, ⟨le_rfl, hin, hw, fun j h1 h2 => by omega⟩, ?_⟩
        rw [writeLoop_writable data fd hin hw, afterWrite_self]
      · rcases Chip.bad_or_givenUp_of_not_writable hw with hbad | hg
        · rw [writeLoop_bad data fd hin hbad]
          exact (ih (k + 1) _ (by omega)).skip hw fun b hb => afterWrite_bad hbad hb fd.flash data
        · obtain ⟨x, y, hstep⟩ := writeLoop_givenUp data fd l fuel hin hg
          rw [hstep]
          exact (ih (k + 1) _ (by omega)).skip hw fun b hb =>
            afterWrite_givenUp hg hb fd.flash data x y
    · exact .inr ⟨fun b hb hinb => absurd (hinb.mono hb) hin, writeLoop_out data fd hin⟩

/-- `write_block` at block `k` writes the first block that can be written from
there on, or fails because there is none. -/
theorem write_block_spec (l : Leftover p) {fd : WriteFd} {k : Nat}
    (hpos : fd.pos = k * p.erase_size) (data : Bytes) :
    WritesFirst c l data k fd.flash (write_block c l fd data) := by
  unfold write_block
  rw [hpos]
  exact writeLoop_spec data _ k fd (by omega)

end Write

/-! ## The stream of blocks -/

section Stream

variable {p : MtdPartition} {c : Chip} {l : Leftover p}

/-- Write a sequence of blocks. -/
def writeBlocks (c : Chip) (l : Leftover p) : List Bytes → WriteFd → Outcome (Option WriteFd)
  | [], fd => .done (some fd)
  | d :: ds, fd => do
    let some fd ← write_block c l fd d | .done none
    writeBlocks c l ds fd

/-- Go on with the file descriptor that was reached, if none of the calls
failed. -/
def andThen {α : Type} (r : Outcome (Option WriteFd)) (f : WriteFd → Outcome (Option α)) :
    Outcome (Option α) := do
  let some fd ← r | .done none
  f fd

theorem andThen_assoc {α : Type} (r : Outcome (Option WriteFd))
    (f : WriteFd → Outcome (Option WriteFd)) (g : WriteFd → Outcome (Option α)) :
    andThen (andThen r f) g = andThen r fun fd => andThen (f fd) g := by
  cases r with
  | done o =>
    cases o with
    | none => rfl
    | some fd => rfl
  | fault => rfl
  | spin => rfl

theorem andThen_some {α : Type} (fd : WriteFd) (f : WriteFd → Outcome (Option α)) :
    andThen (.done (some fd)) f = f fd := rfl

theorem andThen_eq_some {α : Type} {r : Outcome (Option WriteFd)}
    {f : WriteFd → Outcome (Option α)} {x : α} (h : andThen r f = .done (some x)) :
    ∃ fd, r = .done (some fd) ∧ f fd = .done (some x) := by
  cases r with
  | done o =>
    cases o with
    | none => cases h
    | some fd => exact ⟨fd, rfl, h⟩
  | fault => cases h
  | spin => cases h

theorem writeBlocks_nil (fd : WriteFd) : writeBlocks c l [] fd = .done (some fd) := rfl

theorem writeBlocks_cons (d : Bytes) (ds : List Bytes) (fd : WriteFd) :
    writeBlocks c l (d :: ds) fd = andThen (write_block c l fd d) (writeBlocks c l ds) := rfl

theorem writeBlocks_append (ds ds' : List Bytes) (fd : WriteFd) :
    writeBlocks c l (ds ++ ds') fd = andThen (writeBlocks c l ds fd) (writeBlocks c l ds') := by
  induction ds generalizing fd with
  | nil => rfl
  | cons d ds ih =>
    rw [List.cons_append, writeBlocks_cons, writeBlocks_cons, andThen_assoc]
    congr 1
    funext fd'
    exact ih fd'

/-! ### The buffers of any `write_block`

`Stream` has the same functions over any `write_block`; here it is the one of a chip. -/

/-- `write_block` as `Stream` has it. -/
def chipWrite (c : Chip) (l : Leftover p) (fd : WriteFd) (data : Bytes) :
    Outcome (Bool × WriteFd) := do
  match ← write_block c l fd data with
  | some fd => .done (true, fd)
  | none => .done (false, fd)

def MtdWriteContext.stream (ctx : MtdWriteContext) : Stream.WriteContext WriteFd :=
  ⟨ctx.buffer, ctx.fd⟩

/-- What is kept of a call of `Stream`. -/
def ofSettled : WriteFd ⊕ Stream.WriteContext WriteFd → Option MtdWriteContext
  | .inl _ => none
  | .inr ctx => some ⟨ctx.buffer, ctx.fd⟩

theorem coalesce_stream (ctx : MtdWriteContext) (rest : Bytes) :
    Stream.coalesce p.erase_size ctx.stream rest =
      ((coalesce p ctx rest).1.stream, (coalesce p ctx rest).2) := by
  unfold Stream.coalesce coalesce MtdWriteContext.stream
  split
  · rfl
  · rfl

theorem flushFull_stream (ctx : MtdWriteContext) :
    flushFull c l ctx = (do
      let r ← Stream.flushFull p.erase_size (chipWrite c l) ctx.stream
      .done (ofSettled (Stream.settle r))) := by
  unfold flushFull Stream.flushFull MtdWriteContext.stream chipWrite
  split
  · cases write_block c l ctx.fd ctx.buffer with
    | done o =>
      cases o with
      | none => rfl
      | some fd => rfl
    | fault => rfl
    | spin => rfl
  · rfl

theorem writeWhole_stream (fuel : Nat) : ∀ (ctx : MtdWriteContext) (rest : Bytes),
    writeWhole c l fuel ctx rest = (do
      let (ok, ctx, rest) ← Stream.writeWhole p.erase_size (chipWrite c l) fuel ctx.stream rest
      .done (if ok then some (⟨ctx.buffer, ctx.fd⟩, rest) else none)) := by
  induction fuel with
  | zero =>
    intro ctx rest
    unfold writeWhole Stream.writeWhole MtdWriteContext.stream
    split
    · rfl
    · rfl
  | succ fuel ih =>
    intro ctx rest
    unfold writeWhole Stream.writeWhole MtdWriteContext.stream chipWrite
    split
    · simp only
      cases write_block c l ctx.fd (rest.take p.erase_size) with
      | done o =>
        cases o with
        | none => rfl
        | some fd => exact ih { ctx with fd := fd } _
      | fault => rfl
      | spin => rfl
    · rfl

theorem writeDataLoop_stream (fuel : Nat) : ∀ (ctx : MtdWriteContext) (rest : Bytes),
    writeDataLoop c l fuel ctx rest = (do
      let r ← Stream.writeDataLoop p.erase_size (chipWrite c l) fuel ctx.stream rest
      .done (ofSettled (Stream.settle r))) := by
  induction fuel with
  | zero =>
    intro ctx rest
    unfold writeDataLoop Stream.writeDataLoop
    split
    · rfl
    · rfl
  | succ fuel ih =>
    intro ctx rest
    unfold writeDataLoop Stream.writeDataLoop
    split
    · rw [coalesce_stream]
      simp only [flushFull_stream, writeWhole_stream, ih]
      cases Stream.flushFull p.erase_size (chipWrite c l) (coalesce p ctx rest).1.stream with
      | done r =>
        obtain ⟨ok, ctx₁⟩ := r
        cases ok with
        | false => rfl
        | true =>
          simp only [Outcome.done_bind, Stream.settle, ofSettled, Bool.not_true,
            Bool.false_eq_true, if_false, MtdWriteContext.stream]
          cases Stream.writeWhole p.erase_size (chipWrite c l) (coalesce p ctx rest).2.length
            ⟨ctx₁.buffer, ctx₁.fd⟩ (coalesce p ctx rest).2 with
          | done r =>
            obtain ⟨ok, ctx₂, rest₂⟩ := r
            cases ok with
            | false => rfl
            | true => rfl
          | fault => rfl
          | spin => rfl
      | fault => rfl
      | spin => rfl
    · rfl

theorem writeBlocks_feed (ds : List Bytes) : ∀ fd : WriteFd,
    writeBlocks c l ds fd = (do
      let (ok, fd) ← Stream.feed (chipWrite c l) ds fd
      .done (if ok then some fd else none)) := by
  induction ds with
  | nil => exact fun fd => rfl
  | cons d ds ih =>
    intro fd
    rw [writeBlocks, Stream.feed, chipWrite]
    cases write_block c l fd d with
    | done o =>
      cases o with
      | none => rfl
      | some fd' => exact ih fd'
    | fault => rfl
    | spin => rfl

/-- The effect of `mtd_write_data` on a stream, the pending data included: its
whole blocks are written, and the rest is kept in the buffer. -/
def writeStream (c : Chip) (l : Leftover p) (fd : WriteFd) (stream : Bytes) :
    Outcome (Option MtdWriteContext) :=
  andThen (writeBlocks c l (wholeBlocks p.erase_size stream) fd) fun fd =>
    .done (some ⟨partialBlock p.erase_size stream, fd⟩)

theorem writeStream_of_lt {stream : Bytes} (h : stream.length < p.erase_size) (fd : WriteFd) :
    writeStream c l fd stream = .done (some ⟨stream, fd⟩) := by
  rw [writeStream, wholeBlocks_of_lt h, partialBlock_of_lt h]
  rfl

/-- `mtd_write_data` writes the whole blocks of the stream that the pending
data and the new data make, and keeps the rest. -/
theorem mtd_write_data_eq {ctx : MtdWriteContext} (hbuf : ctx.buffer.length < p.erase_size)
    (data : Bytes) :
    mtd_write_data c l ctx data = writeStream c l ctx.fd (ctx.buffer ++ data) := by
  have hsettled : mtd_write_data c l ctx data = (do
      let r ← Stream.settled
        (Stream.mtd_write_data p.erase_size (chipWrite c l) ctx.stream data)
      .done (ofSettled r)) := by
    rw [mtd_write_data, writeDataLoop_stream]
    unfold Stream.settled Stream.mtd_write_data
    cases Stream.writeDataLoop p.erase_size (chipWrite c l) data.length ctx.stream data with
    | done r => rfl
    | fault => rfl
    | spin => rfl
  rw [hsettled, Stream.mtd_write_data_eq p.erase_pos hbuf, writeStream, writeBlocks_feed,
    Stream.writeStream]
  unfold Stream.andThen
  simp only [MtdWriteContext.stream]
  cases Stream.feed (chipWrite c l) (wholeBlocks p.erase_size (ctx.buffer ++ data)) ctx.fd with
  | done r =>
    obtain ⟨ok, fd⟩ := r
    cases ok with
    | false => rfl
    | true => rfl
  | fault => rfl
  | spin => rfl

/-- However the data is cut into pieces, the blocks that are written are those
of the whole stream. -/
theorem writePieces_eq (pieces : List Bytes) : ∀ ctx : MtdWriteContext,
    ctx.buffer.length < p.erase_size →
    writePieces c l pieces ctx = writeStream c l ctx.fd (ctx.buffer ++ pieces.flatten) := by
  induction pieces with
  | nil =>
    intro ctx hbuf
    rw [List.flatten_nil, List.append_nil, writeStream_of_lt hbuf]
    rfl
  | cons piece pieces ih =>
    intro ctx hbuf
    have hpos := p.erase_pos
    have hsplit : ctx.buffer ++ (piece :: pieces).flatten =
        (wholeBlocks p.erase_size (ctx.buffer ++ piece)).flatten ++
          (partialBlock p.erase_size (ctx.buffer ++ piece) ++ pieces.flatten) := by
      rw [← List.append_assoc, wholeBlocks_flatten, List.flatten_cons, List.append_assoc]
    have hwhole : ∀ d ∈ wholeBlocks p.erase_size (ctx.buffer ++ piece), d.length = p.erase_size :=
      fun d hd => wholeBlocks_length_eq hd
    rw [writePieces, mtd_write_data_eq hbuf, hsplit, writeStream, writeStream,
      wholeBlocks_append hpos hwhole, partialBlock_append hpos hwhole, writeBlocks_append,
      andThen_assoc]
    cases writeBlocks c l (wholeBlocks p.erase_size (ctx.buffer ++ piece)) ctx.fd with
    | done o =>
      cases o with
      | none => rfl
      | some fd => exact ih ⟨_, fd⟩ (partialBlock_length_lt hpos)
    | fault => rfl
    | spin => rfl

end Stream

/-! ## Which blocks are read -/

section Read

variable {p : MtdPartition} {bad : Nat → Bool} {env : ReadEnv}

/-- The first block from `k` on that is not bad. -/
structure FirstGood (p : MtdPartition) (bad : Nat → Bool) (k b : Nat) : Prop where
  le : k ≤ b
  inPartition : InPartition p b
  good : bad b = false
  before : ∀ j, k ≤ j → j < b → bad j = true

/-- The blocks that are not bad, from block `k` up to block `e`, hold `ds`. -/
inductive Stored (p : MtdPartition) (bad : Nat → Bool) (flash : Flash) :
    Nat → List Bytes → Nat → Prop where
  | nil (k : Nat) : Stored p bad flash k [] k
  | cons {k b e : Nat} {ds : List Bytes} (first : FirstGood p bad k b)
      (rest : Stored p bad flash (b + 1) ds e) : Stored p bad flash k (flash b :: ds) e

theorem Stored.le {flash : Flash} {k e : Nat} {ds : List Bytes} (h : Stored p bad flash k ds e) :
    k ≤ e := by
  induction h with
  | nil k => exact le_rfl
  | cons first _ ih => exact le_trans (le_trans first.le (Nat.le_succ _)) ih

/-- The stored blocks do not depend on what is behind them. -/
theorem Stored.frame {flash flash' : Flash} {k e : Nat} {ds : List Bytes}
    (h : Stored p bad flash k ds e) (hsame : ∀ j, j < e → flash' j = flash j) :
    Stored p bad flash' k ds e := by
  induction h with
  | nil k => exact .nil k
  | cons first rest ih =>
    rw [← hsame _ rest.le]
    exact .cons first (ih hsame)

/-- One more block. -/
theorem Stored.snoc {flash : Flash} {k e b : Nat} {ds : List Bytes} (h : Stored p bad flash k ds e)
    (hb : FirstGood p bad e b) : Stored p bad flash k (ds ++ [flash b]) (b + 1) := by
  induction h with
  | nil k => exact .cons hb (.nil _)
  | cons first _ ih => exact .cons first (ih hb)

/-- A reader meets no error other than bad blocks. -/
structure ReadEnv.Reliable (env : ReadEnv) (bad : Nat → Bool) : Prop where
  supported : env.memgetbadblock = some bad
  readError : ∀ b, env.readError b = false
  eccFailures : ∀ b, env.eccFailures b = 0
  eccgetstats : ∀ n, env.eccgetstatsFails n = false

theorem readLoop_good (henv : env.Reliable bad) {k fuel : Nat} {fd : ReadFd}
    (hin : InPartition p k) (hgood : bad k = false) :
    readLoop p env (fuel + 1) (k * p.erase_size) fd.failed fd =
      .done (some (env.content k, ⟨(k + 1) * p.erase_size, fd.failed, fd.calls + 1⟩)) := by
  have hcond : ((k * p.erase_size : Nat) : Int) + p.erase_size ≤ wrap32 p.size := hin
  unfold readLoop
  simp only [if_pos hcond, block_of_pos, henv.readError, henv.eccgetstats, henv.eccFailures,
    henv.supported, hgood, Bool.false_eq_true, if_false, Nat.add_zero, ne_eq, not_true_eq_false,
    ← Nat.succ_mul]

theorem readLoop_bad (henv : env.Reliable bad) {k fuel : Nat} {fd : ReadFd}
    (hin : InPartition p k) (hbad : bad k = true) :
    readLoop p env (fuel + 1) (k * p.erase_size) fd.failed fd =
      readLoop p env fuel ((k + 1) * p.erase_size) fd.failed
        ⟨(k + 1) * p.erase_size, fd.failed, fd.calls + 1⟩ := by
  have hcond : ((k * p.erase_size : Nat) : Int) + p.erase_size ≤ wrap32 p.size := hin
  conv_lhs => unfold readLoop
  simp only [if_pos hcond, block_of_pos, henv.readError, henv.eccgetstats, henv.eccFailures,
    henv.supported, hbad, if_true, Bool.false_eq_true, if_false, Nat.add_zero, ne_eq,
    not_true_eq_false, one_ne_zero, not_false_eq_true, ← Nat.succ_mul]

theorem readLoop_spec (henv : env.Reliable bad) {b : Nat} (fuel : Nat) :
    ∀ (k : Nat) (fd : ReadFd), FirstGood p bad k b → b < k + fuel →
      ∃ calls, readLoop p env fuel (k * p.erase_size) fd.failed fd =
        .done (some (env.content b, ⟨(b + 1) * p.erase_size, fd.failed, calls⟩)) := by
  induction fuel with
  | zero =>
    intro k fd hb hfuel
    have := hb.le
    omega
  | succ fuel ih =>
    intro k fd hb hfuel
    rcases Nat.eq_or_lt_of_le hb.le with rfl | hlt
    · exact ⟨_, readLoop_good henv hb.inPartition hb.good⟩
    · rw [readLoop_bad henv (hb.inPartition.mono hb.le) (hb.before k le_rfl hlt)]
      exact ih (k + 1) ⟨(k + 1) * p.erase_size, fd.failed, fd.calls + 1⟩
        ⟨hlt, hb.inPartition, hb.good, fun j hkj => hb.before j (by omega)⟩ (by omega)

/-- `read_block` at block `k` reads the first block from there on that is not
bad. -/
theorem read_block_spec (henv : env.Reliable bad) {k b : Nat} {fd : ReadFd}
    (hpos : fd.pos = k * p.erase_size) (hb : FirstGood p bad k b) :
    ∃ fd', read_block p env fd = .done (some (env.content b, fd')) ∧
      fd'.pos = (b + 1) * p.erase_size := by
  have hlt := hb.inPartition.lt
  obtain ⟨calls, hrun⟩ := readLoop_spec henv (p.size / p.erase_size + 1) k
    { fd with calls := fd.calls + 1 } hb (by omega)
  refine ⟨⟨(b + 1) * p.erase_size, fd.failed, calls⟩, ?_, rfl⟩
  unfold read_block
  rw [henv.eccgetstats, if_neg (by decide), hpos]
  exact hrun

/-- Where `MEMGETBADBLOCK` is not supported no block is ever read. -/
theorem readLoop_unsupported (hnone : env.memgetbadblock = none) (fuel : Nat) :
    ∀ (k before : Nat) (fd : ReadFd), p.size / p.erase_size < k + fuel →
      readLoop p env fuel (k * p.erase_size) before fd = .done none := by
  have hout : ∀ {k fuel before} {fd : ReadFd}, ¬ InPartition p k →
      readLoop p env fuel (k * p.erase_size) before fd = .done none := by
    intro k fuel before fd hout
    unfold readLoop
    exact if_neg hout
  induction fuel with
  | zero =>
    intro k before fd hfuel
    exact hout fun hin => by have := hin.lt; omega
  | succ fuel ih =>
    intro k before fd hfuel
    by_cases hin : InPartition p k
    · have hcond : ((k * p.erase_size : Nat) : Int) + p.erase_size ≤ wrap32 p.size := hin
      have hminus : (-1 : Int) ≠ 0 := by decide
      unfold readLoop
      simp only [if_pos hcond, block_of_pos, hnone, ← Nat.succ_mul, ih (k + 1) _ _ (by omega),
        if_pos hminus, ite_self]
    · exact hout hin

theorem read_block_unsupported (hnone : env.memgetbadblock = none) {k : Nat} {fd : ReadFd}
    (hpos : fd.pos = k * p.erase_size) : read_block p env fd = .done none := by
  unfold read_block
  rw [hpos, readLoop_unsupported hnone _ k _ _ (by omega), ite_self]

/-- The bytes that a reader still gets: the rest of its buffer and the blocks
from its position on. -/
structure Reading (p : MtdPartition) (env : ReadEnv) (bad : Nat → Bool) (ctx : MtdReadContext)
    (s : Bytes) : Prop where
  consumed : ctx.consumed ≤ p.erase_size
  buffer : (ctx.buffer.drop ctx.consumed).length = p.erase_size - ctx.consumed
  stored : ∃ k ds e, ctx.fd.pos = k * p.erase_size ∧ Stored p bad env.content k ds e ∧
    (∀ d ∈ ds, d.length = p.erase_size) ∧ s = ctx.buffer.drop ctx.consumed ++ ds.flatten

/-- With an empty buffer the next block is at the front of the stream. -/
theorem Reading.read_block (henv : env.Reliable bad) {ctx : MtdReadContext} {s : Bytes}
    (h : Reading p env bad ctx s) (hempty : ctx.consumed = p.erase_size) (hs : 0 < s.length) :
    ∃ block fd rest, Mtdutils.read_block p env ctx.fd = .done (some (block, fd)) ∧
      block.length = p.erase_size ∧ s = block ++ rest ∧
      (∀ buffer, buffer.length = 0 ∨ buffer = ctx.buffer →
        Reading p env bad ⟨buffer, p.erase_size, fd⟩ rest) ∧
      Reading p env bad ⟨block, 0, fd⟩ s := by
  obtain ⟨k, ds, e, hpos, hst, hlen, rfl⟩ := h.stored
  have hnil : ctx.buffer.drop ctx.consumed = [] := by
    refine List.eq_nil_of_length_eq_zero ?_
    rw [h.buffer, hempty, Nat.sub_self]
  rw [hnil, List.nil_append] at hs ⊢
  cases hst with
  | nil => simp at hs
  | cons first rest =>
    rename_i b ds'
    obtain ⟨fd, hread, hfd⟩ := read_block_spec henv hpos first
    have hblock := hlen _ (List.mem_cons_self ..)
    have hrest : ∀ d ∈ ds', d.length = p.erase_size :=
      fun d hd => hlen d (List.mem_cons_of_mem _ hd)
    refine ⟨env.content b, fd, ds'.flatten, hread, hblock, rfl, ?_, ?_⟩
    · intro buffer hbuffer
      have hdrop : buffer.drop p.erase_size = [] := by
        rcases hbuffer with hzero | rfl
        · rw [List.eq_nil_of_length_eq_zero hzero, List.drop_nil]
        · rw [← hempty, hnil]
      refine ⟨le_rfl, ?_, b + 1, ds', e, hfd, rest, hrest, ?_⟩
      · rw [hdrop, Nat.sub_self, List.length_nil]
      · rw [hdrop, List.nil_append]
    · refine ⟨Nat.zero_le _, ?_, b + 1, ds', e, hfd, rest, hrest, ?_⟩
      · rw [List.drop_zero, hblock, Nat.sub_zero]
      · rw [List.drop_zero, List.flatten_cons]

/-- Copying `n` bytes out of the buffer. -/
theorem Reading.copy {ctx : MtdReadContext} {s : Bytes} (h : Reading p env bad ctx s) {n : Nat}
    (hn : n ≤ p.erase_size - ctx.consumed) :
    slice ctx.buffer ctx.consumed n = s.take n ∧
      Reading p env bad { ctx with consumed := ctx.consumed + n } (s.drop n) := by
  have hle := h.consumed
  have hbuf := h.buffer
  obtain ⟨k, ds, e, hpos, hst, hlen, rfl⟩ := h.stored
  have htake : n ≤ (ctx.buffer.drop ctx.consumed).length := by omega
  refine ⟨?_, by simp only; omega, ?_, k, ds, e, hpos, hst, hlen, ?_⟩
  · rw [List.take_append_of_le_length htake]
    rfl
  · simp only
    rw [← List.drop_drop, List.length_drop, hbuf]
    omega
  · simp only
    rw [List.drop_append_of_le_length htake, List.drop_drop]

/-- The inner loop reads blocks until less than a block is wanted. -/
theorem readWhole_spec (henv : env.Reliable bad) (len fuel : Nat) :
    ∀ (ctx : MtdReadContext) (data s : Bytes), Reading p env bad ctx s →
      ctx.consumed = p.erase_size → data.length ≤ len → len - data.length ≤ s.length →
      len - data.length ≤ fuel →
      ∃ ctx' n, readWhole p env len fuel ctx data = .done (some (ctx', data ++ s.take n)) ∧
        Reading p env bad ctx' (s.drop n) ∧ ctx'.consumed = p.erase_size ∧
        n ≤ len - data.length ∧ len - data.length - n < p.erase_size := by
  have hstop : ∀ {fuel : Nat} {ctx : MtdReadContext} {data s : Bytes}, Reading p env bad ctx s →
      ctx.consumed = p.erase_size → len - data.length < p.erase_size →
      ∃ ctx' n, readWhole p env len fuel ctx data = .done (some (ctx', data ++ s.take n)) ∧
        Reading p env bad ctx' (s.drop n) ∧ ctx'.consumed = p.erase_size ∧
        n ≤ len - data.length ∧ len - data.length - n < p.erase_size := by
    intro fuel ctx data s h hempty hlt
    refine ⟨ctx, 0, ?_, h, hempty, Nat.zero_le _, by omega⟩
    unfold readWhole
    rw [if_neg (by omega), List.take_zero, List.append_nil]
  induction fuel with
  | zero =>
    intro ctx data s h hempty _ _ hfuel
    have hpos := p.erase_pos
    exact hstop h hempty (by omega)
  | succ fuel ih =>
    intro ctx data s h hempty hdata hs hfuel
    have hpos := p.erase_pos
    by_cases hgo : p.erase_size ≤ len - data.length
    · obtain ⟨block, fd, rest, hread, hblock, rfl, hnext, -⟩ :=
        h.read_block henv hempty (by omega)
      rw [List.length_append] at hs
      have hlen : (data ++ block).length = data.length + p.erase_size := by
        rw [List.length_append, hblock]
      obtain ⟨ctx', n, hrun, h', hempty', hn, hrem⟩ :=
        ih { ctx with fd := fd } (data ++ block) rest (by rw [hempty]; exact hnext _ (.inr rfl))
          hempty (by omega) (by omega) (by omega)
      refine ⟨ctx', p.erase_size + n, ?_, ?_, hempty', by omega, by omega⟩
      · conv_lhs => unfold readWhole
        rw [if_pos ⟨hempty, hgo⟩]
        simp only [hread, Outcome.done_bind]
        rw [hrun, ← hblock, List.take_length_add_append, List.append_assoc]
      · rw [← hblock, List.drop_length_add_append]
        exact h'
    · exact hstop h hempty (by omega)

/-- The first half of a turn of `mtd_read_data`: everything that is wanted was
read, or less than a block is still wanted and the buffer is empty. -/
theorem readTurn_spec (henv : env.Reliable bad) (len : Nat) (data : Bytes)
    {ctx : MtdReadContext} {s : Bytes} (h : Reading p env bad ctx s) (hdata : data.length ≤ len)
    (hs : len - data.length ≤ s.length) :
    ∃ ctx' n, readWhole p env len len (copyBuffered p len ctx data).1
        (copyBuffered p len ctx data).2 = .done (some (ctx', data ++ s.take n)) ∧
      Reading p env bad ctx' (s.drop n) ∧ n ≤ len - data.length ∧
      (data.length + n = len ∨
        ctx'.consumed = p.erase_size ∧ len - data.length - n < p.erase_size) ∧
      (len - data.length < p.erase_size - ctx.consumed → data.length + n = len) := by
  have hle := h.consumed
  unfold copyBuffered
  by_cases hbuf : ctx.consumed < p.erase_size
  · simp only [if_pos hbuf]
    by_cases hfew : len - data.length < p.erase_size - ctx.consumed
    · obtain ⟨htake, h'⟩ := h.copy (n := len - data.length) (by omega)
      refine ⟨{ ctx with consumed := ctx.consumed + (len - data.length) }, len - data.length, ?_,
        h', le_rfl, .inl (by omega), fun _ => by omega⟩
      simp only [if_pos hfew, htake]
      unfold readWhole
      rw [if_neg (by simp only; omega)]
    · obtain ⟨htake, h'⟩ := h.copy (n := p.erase_size - ctx.consumed) le_rfl
      have hlen : (data ++ s.take (p.erase_size - ctx.consumed)).length =
          data.length + (p.erase_size - ctx.consumed) := by
        rw [List.length_append, List.length_take]
        omega
      have hs' : (s.drop (p.erase_size - ctx.consumed)).length =
          s.length - (p.erase_size - ctx.consumed) := List.length_drop
      obtain ⟨ctx', n, hrun, h'', hempty, hn, hrem⟩ := readWhole_spec henv len len
        { ctx with consumed := ctx.consumed + (p.erase_size - ctx.consumed) }
        (data ++ s.take (p.erase_size - ctx.consumed)) _ h' (by simp only; omega) (by omega)
        (by omega) (by omega)
      refine ⟨ctx', p.erase_size - ctx.consumed + n, ?_, ?_, by omega, .inr ⟨hempty, by omega⟩,
        by omega⟩
      · simp only [if_neg hfew, htake]
        rw [hrun, List.append_assoc, List.take_add]
      · rw [← List.drop_drop]
        exact h''
  · simp only [if_neg hbuf]
    obtain ⟨ctx', n, hrun, h', hempty, hn, hrem⟩ := readWhole_spec henv len len ctx data s h
      (by omega) hdata hs (by omega)
    exact ⟨ctx', n, hrun, h', hn, .inr ⟨hempty, hrem⟩, by omega⟩

/-- One turn of the loop of `mtd_read_data`, below the limit of `int`. -/
theorem readDataLoop_turn {len fuel : Nat} {ctx ctx' : MtdReadContext} {data data' : Bytes}
    (hint : len < 2 ^ 31) (hlt : data.length < len)
    (hrun : readWhole p env len len (copyBuffered p len ctx data).1 (copyBuffered p len ctx data).2 =
      .done (some (ctx', data'))) :
    readDataLoop p env len (fuel + 1) ctx data =
      if len ≤ data'.length then .done (some (data', ctx'))
      else if ctx'.consumed = p.erase_size then do
        let some (block, fd) ← Mtdutils.read_block p env ctx'.fd | .done none
        readDataLoop p env len fuel { ctx' with buffer := block, consumed := 0, fd := fd } data'
      else readDataLoop p env len fuel ctx' data' := by
  have hcast : (data.length : Int) < len := by exact_mod_cast hlt
  have hle : ((len : Int) ≤ data'.length) = (len ≤ data'.length) := propext Nat.cast_le
  have hwrap : wrap32 (len : Int) = len := wrap32_of_range (by omega) (by omega)
  conv_lhs => unfold readDataLoop
  simp only [hwrap, if_pos hcast, hrun, Outcome.done_bind, ge_iff_le, hle]
  by_cases hdone : len ≤ data'.length
  · simp only [if_pos hdone]
  · have hmore : (data'.length : Int) < len := by exact_mod_cast not_le.mp hdone
    simp only [if_neg hdone, hmore, and_true]

/-- `mtd_read_data` returns the front of the stream. -/
theorem mtd_read_data_spec (henv : env.Reliable bad) {ctx : MtdReadContext} {s : Bytes} {len : Nat}
    (h : Reading p env bad ctx s) (hlen : len ≤ s.length) (hint : len < 2 ^ 31) :
    ∃ ctx', mtd_read_data p env ctx len = .done (some (s.take len, ctx')) ∧
      Reading p env bad ctx' (s.drop len) := by
  unfold mtd_read_data
  rcases Nat.eq_zero_or_pos len with rfl | hpos
  · refine ⟨ctx, ?_, h⟩
    unfold readDataLoop
    rw [wrap32_of_range (by decide) (by decide)]
    rfl
  · obtain ⟨ctx₁, n, hrun, h₁, hn, hend, -⟩ :=
      readTurn_spec henv len [] h (Nat.zero_le _) hlen
    simp only [List.length_nil, Nat.sub_zero, Nat.zero_add, List.nil_append] at hrun hn hend
    have hlen₁ : (s.take n).length = n := by
      rw [List.length_take]
      omega
    rw [readDataLoop_turn hint (show ([] : Bytes).length < len from hpos) hrun, hlen₁]
    rcases Nat.lt_or_ge n len with hmore | hdone
    · -- Less than a block is wanted: it is read into the buffer, and the next turn copies it.
      obtain ⟨hempty, hrem⟩ := hend.resolve_left (by omega)
      obtain ⟨block, fd, rest, hread, hblock, -, -, h₂⟩ :=
        h₁.read_block henv hempty (by rw [List.length_drop]; omega)
      obtain ⟨ctx₃, n', hrun', h₃, hn', -, hall⟩ := readTurn_spec henv len (s.take n) h₂
        (by omega) (by rw [List.length_drop]; omega)
      obtain rfl : n' = len - n := by
        have := hall (by simp only; omega)
        omega
      have htake : s.take n ++ (s.drop n).take (len - n) = s.take len := by
        rw [← List.take_add, show n + (len - n) = len by omega]
      have hlen₃ : (s.take len).length = len := by
        rw [List.length_take]
        omega
      rw [htake] at hrun'
      rw [List.drop_drop, show n + (len - n) = len by omega] at h₃
      obtain ⟨fuel, rfl⟩ : ∃ f, len = f + 1 := ⟨len - 1, by omega⟩
      refine ⟨ctx₃, ?_, h₃⟩
      rw [if_neg (by omega), if_pos hempty, hread, Outcome.done_bind]
      simp only
      rw [readDataLoop_turn hint (by omega) hrun', hlen₃, if_pos le_rfl]
    · obtain rfl : n = len := by omega
      refine ⟨ctx₁, ?_, h₁⟩
      rw [if_pos le_rfl]

end Read

/-! ## Reading back what was written -/

section Identity

variable {p : MtdPartition} {c : Chip} {l : Leftover p}

/-- The blocks that are written for `data`; the last one is padded with
zeros. -/
def paddedBlocks (p : MtdPartition) (data : Bytes) : List Bytes :=
  wholeBlocks p.erase_size data ++
    (if 0 < (partialBlock p.erase_size data).length then
      [partialBlock p.erase_size data ++
        List.replicate (p.erase_size - (partialBlock p.erase_size data).length) 0]
    else [])

/-- The end of `mtd_write_close`, when the pending data is written. -/
def closeFd (p : MtdPartition) (fd : WriteFd) : Outcome (Option Flash) :=
  if 0 > wrap32 (toU32 ((p.size : Int) - fd.pos) / p.erase_size : Nat) then .done none
  else .done (some fd.flash)

theorem mtd_write_close_eq (ctx : MtdWriteContext) :
    mtd_write_close c l ctx = andThen (flushPadded c l ctx) (closeFd p) := by
  simp only [mtd_write_close, andThen, closeFd]

/-- The pending data is the last of the padded blocks. -/
theorem flushPadded_eq (data : Bytes) (fd : WriteFd) :
    flushPadded c l ⟨partialBlock p.erase_size data, fd⟩ =
      writeBlocks c l (if 0 < (partialBlock p.erase_size data).length then
        [partialBlock p.erase_size data ++
          List.replicate (p.erase_size - (partialBlock p.erase_size data).length) 0]
      else []) fd := by
  unfold flushPadded
  by_cases hpart : 0 < (partialBlock p.erase_size data).length
  · simp only [if_pos hpart]
    rw [writeBlocks_cons, andThen]
    cases write_block c l fd (partialBlock p.erase_size data ++
      List.replicate (p.erase_size - (partialBlock p.erase_size data).length) 0) with
    | done o => cases o <;> rfl
    | fault => rfl
    | spin => rfl
  · simp only [if_neg hpart]
    rfl

/-- Closing after the stream was written. -/
theorem bind_writeStream {α : Type} (fd : WriteFd) (stream : Bytes)
    (close : MtdWriteContext → Outcome (Option α)) :
    (do
      let some ctx ← writeStream c l fd stream | .done none
      close ctx) =
      andThen (writeBlocks c l (wholeBlocks p.erase_size stream) fd) fun fd =>
        close ⟨partialBlock p.erase_size stream, fd⟩ := by
  unfold writeStream
  cases writeBlocks c l (wholeBlocks p.erase_size stream) fd with
  | done o => cases o <;> rfl
  | fault => rfl
  | spin => rfl

theorem writePartition_eq (flash : Flash) (pieces : List Bytes) :
    writePartition c l flash pieces =
      andThen (writeBlocks c l (paddedBlocks p pieces.flatten) ⟨0, flash, []⟩) (closeFd p) := by
  have hempty : (mtd_write_partition flash).buffer.length < p.erase_size := p.erase_pos
  rw [writePartition, writePieces_eq pieces (mtd_write_partition flash) hempty,
    mtd_write_partition, List.nil_append, paddedBlocks, writeBlocks_append, andThen_assoc]
  rw [bind_writeStream]
  congr 1
  funext fd
  rw [mtd_write_close_eq, flushPadded_eq]

theorem paddedBlocks_flatten (data : Bytes) :
    ∃ n, (paddedBlocks p data).flatten = data ++ List.replicate n 0 := by
  unfold paddedBlocks
  have hall := wholeBlocks_flatten p.erase_size data
  split
  · refine ⟨p.erase_size - (partialBlock p.erase_size data).length, ?_⟩
    rw [List.flatten_append, List.flatten_singleton, ← List.append_assoc, hall]
  · rename_i hpart
    have hnil : partialBlock p.erase_size data = [] := List.eq_nil_of_length_eq_zero (by omega)
    refine ⟨0, ?_⟩
    rw [hnil] at hall
    rw [List.flatten_append, List.flatten_nil, hall, List.replicate_zero, List.append_nil]

theorem paddedBlocks_length_eq {data d : Bytes} (hd : d ∈ paddedBlocks p data) :
    d.length = p.erase_size := by
  have hlt : (partialBlock p.erase_size data).length < p.erase_size :=
    partialBlock_length_lt p.erase_pos
  unfold paddedBlocks at hd
  rcases List.mem_append.mp hd with hd | hd
  · exact wholeBlocks_length_eq hd
  · split at hd
    · rw [List.mem_singleton.mp hd, List.length_append, List.length_replicate]
      omega
    · cases hd

theorem Chip.isBad_eq {bad : Nat → Bool} (h : c.memgetbadblock = some bad) : c.isBad = bad := by
  funext b
  simp [Chip.isBad, h]

theorem faultless_reliable {bad : Nat → Bool} (h : c.memgetbadblock = some bad) (flash : Flash) :
    (ReadEnv.faultless c flash).Reliable bad :=
  ⟨h, fun _ => rfl, fun _ => rfl, fun _ => rfl⟩

/-- Writing blocks: as long as no block is given up before one that is written,
they are where the reader looks for them. -/
theorem writeBlocks_stored (hgap : ∀ b b', b < b' → InPartition p b' → c.GivenUp b →
    ¬ c.Writable b') (ds : List Bytes) : ∀ (k : Nat) (fd fd' : WriteFd),
    fd.pos = k * p.erase_size → writeBlocks c l ds fd = .done (some fd') →
    ∃ e, Stored p c.isBad fd'.flash k ds e ∧ ∀ j, j < k → fd'.flash j = fd.flash j := by
  induction ds with
  | nil =>
    intro k fd fd' _ h
    cases h
    exact ⟨k, .nil k, fun _ _ => rfl⟩
  | cons d ds ih =>
    intro k fd fd' hpos h
    rcases write_block_spec (c := c) l hpos d with ⟨b, bad, hfirst, hrun⟩ | ⟨-, hrun⟩
    · rw [writeBlocks_cons, hrun] at h
      obtain ⟨e, hst, hsame⟩ := ih (b + 1) _ fd' rfl h
      have hb : fd'.flash b = d := by
        rw [hsame b (Nat.lt_succ_self b)]
        simp only [afterWrite, if_true]
      have hgood : FirstGood p c.isBad k b := by
        refine ⟨hfirst.le, hfirst.inPartition, hfirst.writable.1, fun j hkj hjb => ?_⟩
        rcases Chip.bad_or_givenUp_of_not_writable (hfirst.before j hkj hjb) with hbad | hg
        · exact hbad
        · exact absurd hfirst.writable (hgap j b hjb hfirst.inPartition hg)
      refine ⟨e, ?_, fun j hj => ?_⟩
      · have hcons := Stored.cons hgood hst
        rwa [hb] at hcons
      · have hle := hfirst.le
        rw [hsame j (by omega)]
        simp only [afterWrite]
        rw [if_neg (by omega), if_neg (by omega)]
    · rw [writeBlocks_cons, hrun] at h
      cases h

/-- The stored blocks are inside the partition. -/
theorem Stored.bounds {bad : Nat → Bool} {flash : Flash} {k e : Nat} {ds : List Bytes}
    (h : Stored p bad flash k ds e) :
    k + ds.length ≤ e ∧ (ds ≠ [] → InPartition p (e - 1)) := by
  induction h with
  | nil k => exact ⟨le_rfl, fun hne => absurd rfl hne⟩
  | @cons k b e ds first rest ih =>
    obtain ⟨hlen, hin⟩ := ih
    have hle := first.le
    refine ⟨by rw [List.length_cons]; omega, fun _ => ?_⟩
    cases rest with
    | nil => exact first.inPartition
    | cons first' rest' => exact hin (by simp)

theorem flatten_length_eq {size : Nat} {ds : List Bytes} (h : ∀ d ∈ ds, d.length = size) :
    ds.flatten.length = ds.length * size := by
  induction ds with
  | nil => simp
  | cons d ds ih =>
    rw [List.flatten_cons, List.length_append, h d (List.mem_cons_self ..),
      ih fun d' hd' => h d' (List.mem_cons_of_mem _ hd'), List.length_cons, Nat.succ_mul]
    omega

/-- A stored stream is shorter than the limit of `int`. -/
theorem Stored.flatten_lt {bad : Nat → Bool} {flash : Flash} {e : Nat} {ds : List Bytes}
    (h : Stored p bad flash 0 ds e) (hlen : ∀ d ∈ ds, d.length = p.erase_size) :
    ds.flatten.length < 2 ^ 31 := by
  obtain ⟨hcount, hin⟩ := h.bounds
  rcases List.eq_nil_or_concat ds with rfl | ⟨ds', d, hds⟩
  · decide
  · have hne : ds ≠ [] := by rw [hds]; simp
    have hpart := hin hne
    have hlt := (wrap32_range p.size).2
    have he : 0 < e := by
      have : 0 < ds.length := List.length_pos_iff.mpr hne
      omega
    have hmul : ds.length * p.erase_size ≤ e * p.erase_size :=
      Nat.mul_le_mul_right _ (by omega)
    have hlast : e * p.erase_size = (e - 1) * p.erase_size + p.erase_size := by
      rw [← Nat.succ_mul, Nat.succ_eq_add_one, Nat.sub_add_cancel he]
    rw [flatten_length_eq hlen]
    unfold InPartition at hpart
    have hnat : (((e - 1) * p.erase_size : Nat) : Int) + p.erase_size < 2 ^ 31 :=
      lt_of_le_of_lt hpart hlt
    clear hpart hlt
    omega

/-- Reading a stored stream from the start. -/
theorem readPartition_stored {bad : Nat → Bool} (hsup : c.memgetbadblock = some bad) {flash : Flash}
    {e : Nat} {ds : List Bytes} (h : Stored p bad flash 0 ds e)
    (hlen : ∀ d ∈ ds, d.length = p.erase_size) {n : Nat} (hn : n ≤ ds.flatten.length) :
    readPartition p (.faultless c flash) n = .done (some (ds.flatten.take n)) := by
  have hreading : Reading p (.faultless c flash) bad (mtd_read_partition p) ds.flatten := by
    refine ⟨le_rfl, ?_, 0, ds, e, ?_, h, hlen, ?_⟩
    · simp [mtd_read_partition]
    · simp [mtd_read_partition]
    · simp [mtd_read_partition]
  have hint : n < 2 ^ 31 := lt_of_le_of_lt hn (h.flatten_lt hlen)
  obtain ⟨ctx', hrun, -⟩ := mtd_read_data_spec (faultless_reliable hsup flash) hreading hn hint
  unfold readPartition
  rw [hrun]
  rfl

/-- Reading no bytes always succeeds. -/
theorem readPartition_zero (env : ReadEnv) : readPartition p env 0 = .done (some []) := by
  unfold readPartition mtd_read_data readDataLoop
  rw [wrap32_of_range (by decide) (by decide)]
  rfl

/-- A partition with a block is smaller than the limit of `int`. -/
theorem InPartition.size_lt {b : Nat} (h : InPartition p b) :
    p.size < 2 ^ 31 ∧ (b + 1) * p.erase_size ≤ p.size := by
  have hsmall : p.size < 2 ^ 31 := by
    by_contra hbig
    have hneg : wrap32 p.size < 0 := by
      have hlt := p.size_lt
      unfold wrap32
      omega
    unfold InPartition at h
    omega
  have hwrap : wrap32 p.size = p.size := wrap32_of_range (by omega) (by omega)
  unfold InPartition at h
  rw [hwrap] at h
  refine ⟨hsmall, ?_⟩
  rw [Nat.succ_mul]
  omega

/-- Closing behind a block of the partition succeeds. -/
theorem closeFd_done {b : Nat} (h : InPartition p b) {fd : WriteFd}
    (hpos : fd.pos = (b + 1) * p.erase_size) : closeFd p fd = .done (some fd.flash) := by
  obtain ⟨hsmall, hle⟩ := h.size_lt
  have hsub : (p.size : Int) - fd.pos = ((p.size - fd.pos : Nat) : Int) := by omega
  obtain ⟨total, htotal⟩ : ∃ n, (p.size - fd.pos) / p.erase_size = n := ⟨_, rfl⟩
  have hdiv : total ≤ p.size - fd.pos := htotal ▸ Nat.div_le_self _ _
  have hrange : (-2 ^ 31 : Int) ≤ total ∧ (total : Int) < 2 ^ 31 := by omega
  have hnonneg : ¬ 0 > (total : Int) := by omega
  unfold closeFd
  rw [hsub, toU32_of_range (by omega), htotal, wrap32_of_range hrange.1 hrange.2, if_neg hnonneg]

theorem closeFd_some {fd : WriteFd} {flash : Flash} (h : closeFd p fd = .done (some flash)) :
    flash = fd.flash := by
  unfold closeFd at h
  split at h
  · cases h
  · cases h
    rfl

/-- A successful write: the padded blocks of the data were written. -/
theorem writePartition_some {flash flash' : Flash} {pieces : List Bytes}
    (h : writePartition c l flash pieces = .done (some flash')) :
    ∃ fd, writeBlocks c l (paddedBlocks p pieces.flatten) ⟨0, flash, []⟩ = .done (some fd) ∧
      flash' = fd.flash := by
  rw [writePartition_eq] at h
  obtain ⟨fd, hrun, hclose⟩ := andThen_eq_some h
  exact ⟨fd, hrun, closeFd_some hclose⟩

/-- Reading back gives what was written, whatever it is, whatever the flash held
before, and whatever a failed operation leaves in a block. -/
def Identity (p : MtdPartition) (c : Chip) : Prop :=
  ∀ (l : Leftover p) (flash₀ flash : Flash) (pieces : List Bytes),
    writePartition c l flash₀ pieces = .done (some flash) →
    readPartition p (.faultless c flash) pieces.flatten.length = .done (some pieces.flatten)

/-- The reader skips the blocks that the writer skips: the device can be asked
for bad blocks, and no block that can be written lies behind one that the writer
gives up although it is not bad. Or no block can be written at all. -/
def Consistent (p : MtdPartition) (c : Chip) : Prop :=
  (c.memgetbadblock.isSome ∧
    ∀ b b', b < b' → InPartition p b' → c.GivenUp b → ¬ c.Writable b') ∨
  ∀ b, InPartition p b → ¬ c.Writable b

theorem identity_of_consistent (h : Consistent p c) : Identity p c := by
  intro l flash₀ flash pieces hwrite
  obtain ⟨fd, hrun, rfl⟩ := writePartition_some hwrite
  obtain ⟨n, hflat⟩ := paddedBlocks_flatten (p := p) pieces.flatten
  rcases h with ⟨hsup, hgap⟩ | hnone
  · obtain ⟨bad, hbad⟩ := Option.isSome_iff_exists.mp hsup
    obtain ⟨e, hst, -⟩ := writeBlocks_stored hgap _ 0 _ fd (Nat.zero_mul _).symm hrun
    rw [Chip.isBad_eq hbad] at hst
    rw [readPartition_stored hbad hst (fun d hd => paddedBlocks_length_eq hd)
      (by rw [hflat, List.length_append]; omega), hflat, List.take_left]
  · have hnil : paddedBlocks p pieces.flatten = [] := by
      cases hds : paddedBlocks p pieces.flatten with
      | nil => rfl
      | cons d ds =>
        rw [hds, writeBlocks_cons] at hrun
        have hpos : (⟨0, flash₀, []⟩ : WriteFd).pos = 0 * p.erase_size := (Nat.zero_mul _).symm
        rcases write_block_spec (c := c) l hpos d with ⟨b, bad, hfirst, -⟩ | ⟨-, hfail⟩
        · exact absurd hfirst.writable (hnone b hfirst.inPartition)
        · rw [hfail] at hrun
          cases hrun
    have hempty : pieces.flatten = [] := by
      rw [hnil, List.flatten_nil] at hflat
      exact (List.append_eq_nil_iff.mp hflat.symm).1
    rw [hempty]
    exact readPartition_zero _

/-! The converse: a device that is not consistent loses data. Blocks of zeros
are written, and what is left in a block that was given up is not zeros. -/

/-- A block of zeros. -/
def zeroBlock (p : MtdPartition) : Bytes := List.replicate p.erase_size 0

theorem zeroBlock_ne_erased (p : MtdPartition) : zeroBlock p ≠ erased p := by
  intro h
  have hmem : (0 : UInt8) ∈ erased p := by
    rw [← h]
    exact List.mem_replicate.mpr ⟨Nat.pos_iff_ne_zero.mp p.erase_pos, rfl⟩
  exact absurd (List.mem_replicate.mp hmem).2 (by decide)

/-- A failed operation leaves an erased block, or one of zeros where that is
different from the data. -/
def erasedLeftover (p : MtdPartition) : Leftover p where
  left _ _ data := if data = erased p then zeroBlock p else erased p
  left_ne b retry data := by
    split
    · rename_i h
      rw [h]
      exact zeroBlock_ne_erased p
    · rename_i h
      exact fun heq => h heq.symm
  left_length b retry data := by
    split
    · exact List.length_replicate
    · exact List.length_replicate

theorem givenUpContent_zeroBlock (b : Nat) :
    givenUpContent c (erasedLeftover p) b (zeroBlock p) = erased p := by
  unfold givenUpContent erasedLeftover
  simp only [if_neg (zeroBlock_ne_erased p), ite_self]

theorem paddedBlocks_of_blocks {ds : List Bytes} (h : ∀ d ∈ ds, d.length = p.erase_size) :
    paddedBlocks p ds.flatten = ds := by
  have hwhole := wholeBlocks_append p.erase_pos h []
  have hpart := partialBlock_append p.erase_pos h []
  rw [List.append_nil] at hwhole hpart
  unfold paddedBlocks
  rw [hwhole, hpart, wholeBlocks_of_lt p.erase_pos, partialBlock_of_lt p.erase_pos]
  simp

theorem FirstWritable.write_block (l : Leftover p) {k b : Nat} (hb : FirstWritable p c k b)
    {fd : WriteFd} (hpos : fd.pos = k * p.erase_size) (data : Bytes) :
    ∃ bad, Mtdutils.write_block c l fd data =
      .done (some ⟨(b + 1) * p.erase_size, afterWrite c l fd.flash k b data, bad⟩) := by
  rcases write_block_spec (c := c) l hpos data with ⟨b', bad, hb', hrun⟩ | ⟨hnone, -⟩
  · obtain rfl : b = b' := by
      rcases Nat.lt_trichotomy b b' with hlt | heq | hgt
      · exact absurd hb.writable (hb'.before b hb.le hlt)
      · exact heq
      · exact absurd hb'.writable (hb.before b' hb'.le hgt)
    exact ⟨bad, hrun⟩
  · exact absurd hb.writable (hnone b hb.le hb.inPartition)

/-- From the start there is a first block that can be written. -/
theorem exists_firstWritable {k b : Nat} (hkb : k ≤ b) (hin : InPartition p b)
    (hw : c.Writable b) : ∃ b', b' ≤ b ∧ FirstWritable p c k b' := by
  have hex : ∃ b, k ≤ b ∧ c.Writable b := ⟨b, hkb, hw⟩
  have hle : Nat.find hex ≤ b := Nat.find_min' hex ⟨hkb, hw⟩
  obtain ⟨hk, hwrite⟩ := Nat.find_spec hex
  refine ⟨Nat.find hex, hle, hk, hin.mono hle, hwrite, ?_⟩
  intro j hkj hj hwj
  exact Nat.find_min hex hj ⟨hkj, hwj⟩

/-- Blocks of zeros can be written up to block `n`, when the writer gives up no
block before it. -/
theorem writeBlocks_zeros {bad : Nat → Bool} (hbad : c.memgetbadblock = some bad) (l : Leftover p)
    (flash : Flash) {n : Nat} (hin : InPartition p n) (hno : ∀ j, j < n → ¬ c.GivenUp j) :
    ∃ m e fd, writeBlocks c l (List.replicate m (zeroBlock p)) ⟨0, flash, []⟩ = .done (some fd) ∧
      fd.pos = e * p.erase_size ∧ e ≤ n ∧ (∀ j, e ≤ j → j < n → ¬ c.Writable j) ∧
      Stored p bad fd.flash 0 (List.replicate m (zeroBlock p)) e := by
  induction n with
  | zero =>
    exact ⟨0, 0, ⟨0, flash, []⟩, rfl, (Nat.zero_mul _).symm, le_rfl, fun j _ hj => by omega,
      .nil 0⟩
  | succ n ih =>
    obtain ⟨m, e, fd, hrun, hpos, hle, hskip, hst⟩ :=
      ih (hin.mono (Nat.le_succ n)) fun j hj => hno j (by omega)
    by_cases hw : c.Writable n
    · have hfirst : FirstWritable p c e n := ⟨hle, hin.mono (Nat.le_succ n), hw, hskip⟩
      obtain ⟨offsets, hstep⟩ := hfirst.write_block l hpos (zeroBlock p)
      have hgood : FirstGood p bad e n := by
        rw [← Chip.isBad_eq hbad]
        refine ⟨hle, hfirst.inPartition, hw.1, fun j hej hjn => ?_⟩
        exact (Chip.bad_or_givenUp_of_not_writable (hskip j hej hjn)).resolve_right
          (hno j (by omega))
      refine ⟨m + 1, n + 1,
        ⟨(n + 1) * p.erase_size, afterWrite c l fd.flash e n (zeroBlock p), offsets⟩, ?_, rfl,
        le_rfl, fun j h1 h2 => by omega, ?_⟩
      · rw [List.replicate_succ', writeBlocks_append, hrun, andThen_some, writeBlocks_cons,
          hstep, andThen_some, writeBlocks_nil]
      · have hframe : Stored p bad (afterWrite c l fd.flash e n (zeroBlock p)) 0
            (List.replicate m (zeroBlock p)) e := by
          refine hst.frame fun j hj => ?_
          unfold afterWrite
          rw [if_neg (by omega), if_neg (by omega)]
        have hsnoc := hframe.snoc hgood
        have hn : afterWrite c l fd.flash e n (zeroBlock p) n = zeroBlock p := by
          simp only [afterWrite, if_true]
        rwa [hn, ← List.replicate_succ'] at hsnoc
    · refine ⟨m, e, fd, hrun, hpos, by omega, fun j hej hjn => ?_, hst⟩
      rcases Nat.lt_succ_iff_lt_or_eq.mp hjn with hlt | rfl
      · exact hskip j hej hlt
      · exact hw

/-- Blocks that were written up to a block of the partition are a successful
write of the partition. -/
theorem writePartition_done {ds : List Bytes} (hlen : ∀ d ∈ ds, d.length = p.erase_size)
    {flash : Flash} {fd : WriteFd}
    (hrun : writeBlocks c l ds ⟨0, flash, []⟩ = .done (some fd)) {b : Nat} (hin : InPartition p b)
    (hpos : fd.pos = (b + 1) * p.erase_size) :
    writePartition c l flash ds = .done (some fd.flash) := by
  rw [writePartition_eq, paddedBlocks_of_blocks hlen, hrun, andThen_some, closeFd_done hin hpos]

/-- Without `MEMGETBADBLOCK` nothing can be read. -/
theorem readPartition_unsupported {env : ReadEnv} (hnone : env.memgetbadblock = none) {len : Nat}
    (hle : p.erase_size ≤ len) (hint : len < 2 ^ 31) : readPartition p env len = .done none := by
  have hpos := p.erase_pos
  have hwrap : wrap32 (len : Int) = len := wrap32_of_range (by omega) (by omega)
  have hlt : (([] : Bytes).length : Int) < len := by simp only [List.length_nil]; omega
  have hfd : (mtd_read_partition p).fd.pos = 0 * p.erase_size := (Nat.zero_mul _).symm
  have hcopy : copyBuffered p len (mtd_read_partition p) [] = (mtd_read_partition p, []) := by
    unfold copyBuffered mtd_read_partition
    exact if_neg (lt_irrefl _)
  have hwhole : readWhole p env len len (mtd_read_partition p) [] = .done none := by
    obtain ⟨fuel, rfl⟩ : ∃ f, len = f + 1 := ⟨len - 1, by omega⟩
    have hcond : (mtd_read_partition p).consumed = p.erase_size ∧
        p.erase_size ≤ fuel + 1 - ([] : Bytes).length := ⟨rfl, hle⟩
    unfold readWhole
    rw [if_pos hcond, read_block_unsupported hnone hfd]
    rfl
  unfold readPartition mtd_read_data readDataLoop
  simp only [hwrap, if_pos hlt, hcopy, hwhole, Outcome.done_bind]

theorem not_identity_of_unsupported (hnone : c.memgetbadblock = none) {b : Nat}
    (hin : InPartition p b) (hw : c.Writable b) : ¬ Identity p c := by
  intro hid
  obtain ⟨b', hle, hfirst⟩ := exists_firstWritable (Nat.zero_le b) hin hw
  have hstart : (⟨0, fun _ => [], []⟩ : WriteFd).pos = 0 * p.erase_size := (Nat.zero_mul _).symm
  obtain ⟨offsets, hstep⟩ := hfirst.write_block (erasedLeftover p) hstart (zeroBlock p)
  have hlen : ∀ d ∈ [zeroBlock p], d.length = p.erase_size := by
    intro d hd
    rw [List.mem_singleton.mp hd]
    exact List.length_replicate
  have hrun : writeBlocks c (erasedLeftover p) [zeroBlock p] ⟨0, fun _ => [], []⟩ = .done (some
      ⟨(b' + 1) * p.erase_size,
        afterWrite c (erasedLeftover p) (fun _ => []) 0 b' (zeroBlock p), offsets⟩) := by
    rw [writeBlocks_cons, hstep, andThen_some, writeBlocks_nil]
  have hread := hid _ _ _ _ (writePartition_done hlen hrun hfirst.inPartition rfl)
  have hflat : [zeroBlock p].flatten.length = p.erase_size := by
    rw [List.flatten_singleton]
    exact List.length_replicate
  obtain ⟨hsmall, hsize⟩ := hin.size_lt
  have herase : p.erase_size ≤ (b + 1) * p.erase_size := Nat.le_mul_of_pos_left _ (by omega)
  rw [hflat, readPartition_unsupported hnone le_rfl (by omega)] at hread
  cases hread

theorem not_identity_of_gap {bad : Nat → Bool} (hbad : c.memgetbadblock = some bad) {b b' : Nat}
    (hlt : b < b') (hin : InPartition p b') (hg : c.GivenUp b) (hw : c.Writable b') :
    ¬ Identity p c := by
  intro hid
  -- The first block that is given up: all the blocks before it are bad or can be written.
  have hex : ∃ b, c.GivenUp b := ⟨b, hg⟩
  obtain ⟨g, hgle, hgg, hno⟩ : ∃ g, g ≤ b ∧ c.GivenUp g ∧ ∀ j, j < g → ¬ c.GivenUp j :=
    ⟨Nat.find hex, Nat.find_min' hex hg, Nat.find_spec hex, fun j hj => Nat.find_min hex hj⟩
  have hing : InPartition p g := hin.mono (by omega)
  obtain ⟨m, e, fd, hrun, hpos, heg, hskip, hst⟩ :=
    writeBlocks_zeros hbad (erasedLeftover p) (fun _ => []) hing hno
  -- One more block goes behind the one that is given up, where an erased block is left.
  obtain ⟨w, -, hfirst⟩ := exists_firstWritable (show e ≤ b' by omega) hin hw
  have hgw : g < w := by
    rcases Nat.lt_trichotomy g w with h | rfl | h
    · exact h
    · rcases hfirst.writable.2 with h0 | h1
      · exact absurd h0 hgg.2.1
      · exact absurd h1 hgg.2.2
    · exact absurd hfirst.writable (hskip w hfirst.le h)
  obtain ⟨offsets, hstep⟩ := hfirst.write_block (erasedLeftover p) hpos (zeroBlock p)
  have hlen : ∀ d ∈ List.replicate (m + 1) (zeroBlock p), d.length = p.erase_size := by
    intro d hd
    rw [(List.mem_replicate.mp hd).2]
    exact List.length_replicate
  have hrun' : writeBlocks c (erasedLeftover p) (List.replicate (m + 1) (zeroBlock p))
      ⟨0, fun _ => [], []⟩ = .done (some ⟨(w + 1) * p.erase_size,
        afterWrite c (erasedLeftover p) fd.flash e w (zeroBlock p), offsets⟩) := by
    rw [List.replicate_succ', writeBlocks_append, hrun, andThen_some, writeBlocks_cons, hstep,
      andThen_some, writeBlocks_nil]
  have hread := hid _ _ _ _ (writePartition_done hlen hrun' hfirst.inPartition rfl)
  simp only at hread
  have hleft : afterWrite c (erasedLeftover p) fd.flash e w (zeroBlock p) g = erased p := by
    unfold afterWrite
    rw [if_neg (by omega), if_pos ⟨heg, hgw, hgg⟩, givenUpContent_zeroBlock]
  have hframe : Stored p bad (afterWrite c (erasedLeftover p) fd.flash e w (zeroBlock p)) 0
      (List.replicate m (zeroBlock p)) e := by
    refine hst.frame fun j hj => ?_
    unfold afterWrite
    rw [if_neg (by omega), if_neg (by omega)]
  have hgood : FirstGood p bad e g := by
    rw [← Chip.isBad_eq hbad]
    refine ⟨heg, hing, hgg.1, fun j hej hjg => ?_⟩
    exact (Chip.bad_or_givenUp_of_not_writable (hskip j hej hjg)).resolve_right (hno j hjg)
  have hst' := hframe.snoc hgood
  rw [hleft] at hst'
  have hlen' : ∀ d ∈ List.replicate m (zeroBlock p) ++ [erased p], d.length = p.erase_size := by
    intro d hd
    rcases List.mem_append.mp hd with hd | hd
    · rw [(List.mem_replicate.mp hd).2]
      exact List.length_replicate
    · rw [List.mem_singleton.mp hd]
      exact List.length_replicate
  have hsame : (List.replicate (m + 1) (zeroBlock p)).flatten.length =
      (List.replicate m (zeroBlock p) ++ [erased p]).flatten.length := by
    rw [flatten_length_eq hlen, flatten_length_eq hlen', List.length_replicate,
      List.length_append, List.length_replicate, List.length_singleton]
  rw [hsame, readPartition_stored hbad hst' hlen' le_rfl, List.take_length] at hread
  have heq := Option.some.inj (Outcome.done.inj hread)
  rw [List.replicate_succ', List.flatten_append, List.flatten_append, List.flatten_singleton,
    List.flatten_singleton] at heq
  exact zeroBlock_ne_erased p (List.append_cancel_left heq).symm

/-- Reading back gives what was written exactly on the devices where the reader
skips the blocks that the writer skips. -/
theorem mtd_identity_iff (p : MtdPartition) (c : Chip) : Identity p c ↔ Consistent p c := by
  refine ⟨fun hid => ?_, identity_of_consistent⟩
  by_cases hw : ∀ b, InPartition p b → ¬ c.Writable b
  · exact .inr hw
  · push Not at hw
    obtain ⟨b₀, hin₀, hw₀⟩ := hw
    left
    cases hbad : c.memgetbadblock with
    | none => exact absurd hid (not_identity_of_unsupported hbad hin₀ hw₀)
    | some bad =>
      refine ⟨rfl, fun b b' hlt hin hg hw => ?_⟩
      exact not_identity_of_gap hbad hlt hin hg hw hid

/-- Two blocks of one byte; programming the first one fails. -/
def programFailure : Chip where
  memgetbadblock := some fun _ => false
  fault b _ := if b = 0 then .program else .none

def twoBlocks : MtdPartition := ⟨2, 1, by decide, by decide⟩

/-- One byte is written behind the block whose programming fails; the reader
returns what is left in that block. -/
theorem mtd_identity_program_failure :
    (do
      let some flash ← writePartition programFailure (erasedLeftover twoBlocks) (fun _ => []) [[0]]
        | .done none
      readPartition twoBlocks (.faultless programFailure flash) 1) = .done (some [0xff]) ∧
    ¬ Identity twoBlocks programFailure := by
  refine ⟨by decide +kernel, ?_⟩
  have hin : InPartition twoBlocks 1 := by decide +kernel
  exact not_identity_of_gap rfl Nat.zero_lt_one hin (by decide) (by decide)

end Identity

end BootableRecovery.Mtdutils
