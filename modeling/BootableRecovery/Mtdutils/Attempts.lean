import BootableRecovery.Mtdutils

/-!
# `mtdutils/mtdutils.c`: writing when a second attempt may end differently

`mtd_erase_blocks` writes what is pending, and `mtd_write_close` tries that again when it
failed. Whether the second attempt finds a block depends on a device whose answers change,
so that `Device` answers by the number of blocks that were visited before. A failed call
leaves the offset of the descriptor and the skipped blocks behind.

Main results:
* `write_block_spec`: which block `write_block` takes, and what it leaves when it found
  one and when it did not.
* `write_block_ofChip`: for a device that answers alike each time this is the
  `write_block` of `Mtdutils`.
* `eraseLoop_erased`: erasing leaves the blocks before the offset alone.
-/

namespace BootableRecovery.Mtdutils.Attempts

/-! ## The device -/

/-- What `MEMGETBADBLOCK` returns: 0, a positive number, -1 with `EOPNOTSUPP`, or -1 with
another error. -/
inductive BadBlock where
  | good
  | bad
  | unsupported
  | error
  deriving DecidableEq, Repr

/-- `write_block` does not try to erase such a block. -/
def BadBlock.skips : BadBlock → Bool
  | good => false
  | bad => true
  | unsupported => false
  | error => true

/-- What happens to a block while it is visited: the answer of `MEMGETBADBLOCK`, the faults
of the tries, and what a fault leaves in the block where `data` was to be written. Try 2 is
the last erase of a block that is given up. -/
structure Visit (p : MtdPartition) where
  badblock : BadBlock
  fault : Nat → Fault
  left : Nat → Bytes → Bytes
  left_length : ∀ retry data, (left retry data).length = p.erase_size

/-- The answers of a device: how the visit of a block goes at a time. -/
abbrev Device (p : MtdPartition) := Nat → Nat → Visit p

/-- The descriptor of a partition that is written: its offset, the contents of the flash,
the blocks that were skipped, the number of visits, and the blocks that were written and
verified. -/
structure WriteFd where
  pos : Nat
  flash : Flash
  bad_block_offsets : List Nat
  time : Nat
  verified : List (Nat × Bytes)

section Code

variable {p : MtdPartition} (d : Device p)

/-- One turn of the retry loop at the offset `pos`: erase, write, read back and compare. A
failed erase leaves the offset where it was, a failed read leaves it before the block. -/
def tryBlock (v : Visit p) (pos retry : Nat) (data : Bytes) (fd : WriteFd) : Bool × WriteFd :=
  let b := pos / p.erase_size
  if v.fault retry = .erase then
    (false, { fd with flash := Function.update fd.flash b (v.left retry data) })
  else
    let flash := Function.update fd.flash b
      (if v.fault retry = .program then v.left retry data else data)
    if v.fault retry = .reread then (false, { fd with flash := flash, pos := pos })
    else (flash b == data, { fd with flash := flash, pos := pos + p.erase_size })

/-- The body of the loop of `write_block` at the offset `pos`; the result is whether the
block was written. -/
def visitBlock (pos : Nat) (data : Bytes) (fd : WriteFd) : Bool × WriteFd :=
  let b := pos / p.erase_size
  let v := d fd.time b
  let fd := { fd with time := fd.time + 1 }
  let skip := fun fd : WriteFd => { fd with bad_block_offsets := fd.bad_block_offsets ++ [pos] }
  if v.badblock.skips then (false, skip fd)
  else
    match tryBlock v pos 0 data fd with
    | (true, fd) => (true, { fd with verified := fd.verified ++ [(b, data)] })
    | (false, fd) =>
      match tryBlock v pos 1 data fd with
      | (true, fd) => (true, { fd with verified := fd.verified ++ [(b, data)] })
      | (false, fd) =>
        let content := if v.fault 2 = .erase then v.left 2 data else erased p
        (false, skip { fd with flash := Function.update fd.flash b content })

/-- The loop of `write_block` from the offset `pos` on. -/
def writeLoop (data : Bytes) : Nat → Nat → WriteFd → Outcome (Bool × WriteFd)
  | fuel, pos, fd =>
    if (pos : Int) + p.erase_size ≤ wrap32 p.size then
      match fuel with
      | 0 => .spin
      | fuel + 1 =>
        match visitBlock d pos data fd with
        | (true, fd) => .done (true, fd)
        | (false, fd) => writeLoop data fuel (pos + p.erase_size) fd
    else .done (false, fd)

/-- `write_block`; `true` is the return value 0. -/
def write_block (fd : WriteFd) (data : Bytes) : Outcome (Bool × WriteFd) :=
  writeLoop d data (p.size / p.erase_size + 1) fd.pos fd

/-- The loop of `mtd_erase_blocks`: erase `blocks` blocks from the offset `pos` on. The
result has the offset behind them. -/
def eraseLoop : Nat → Nat → WriteFd → Nat × WriteFd
  | 0, pos, fd => (pos, fd)
  | blocks + 1, pos, fd =>
    let b := pos / p.erase_size
    let v := d fd.time b
    let fd := { fd with time := fd.time + 1 }
    if v.badblock = .bad then eraseLoop blocks (pos + p.erase_size) fd
    else
      let content := if v.fault 0 = .erase then v.left 0 (fd.flash b) else erased p
      eraseLoop blocks (pos + p.erase_size)
        { fd with flash := Function.update fd.flash b content }

/-- What `mtd_erase_blocks` does when nothing is pending. -/
def eraseFrom (blocks : Int) (fd : WriteFd) : Option Nat × WriteFd :=
  let total := wrap32 (toU32 ((p.size : Int) - fd.pos) / p.erase_size : Nat)
  let blocks := if blocks < 0 then total else blocks
  if blocks > total then (none, fd)
  else
    let (pos, fd) := eraseLoop d blocks.toNat fd.pos fd
    (some pos, fd)

/-- `mtd_erase_blocks`; the result is the offset, or `none` for -1. -/
def mtd_erase_blocks (ctx : Stream.WriteContext WriteFd) (blocks : Int) :
    Outcome (Option Nat × Stream.WriteContext WriteFd) := do
  let (ok, ctx) ← Stream.flushPending p.erase_size (write_block d) ctx
  if !ok then .done (none, ctx)
  else
    let (pos, fd) := eraseFrom d blocks ctx.fd
    .done (pos, { ctx with fd := fd })

/-- `mtd_write_data` on this device. -/
def mtd_write_data (ctx : Stream.WriteContext WriteFd) (data : Bytes) :
    Outcome (Bool × Stream.WriteContext WriteFd) :=
  Stream.mtd_write_data p.erase_size (write_block d) ctx data

/-- `mtd_write_close`; `closes` says whether `close` succeeds. -/
def mtd_write_close (closes : Bool) (ctx : Stream.WriteContext WriteFd) :
    Outcome (Bool × WriteFd) := do
  let (pos, ctx) ← mtd_erase_blocks d ctx 0
  .done (pos.isSome && closes, ctx.fd)

/-- `mtd_write_partition` on a partition that holds `flash`. -/
def mtd_write_partition (flash : Flash) (time : Nat) : Stream.WriteContext WriteFd :=
  ⟨[], ⟨0, flash, [], time, []⟩⟩

end Code

variable {p : MtdPartition} {d : Device p}

/-! ## Visits -/

/-- The data is in the block after this try and was read back. -/
def Visit.stores (v : Visit p) (retry : Nat) (data : Bytes) : Bool :=
  v.fault retry = .none ∨ (v.fault retry = .program ∧ v.left retry data = data)

/-- `write_block` stores the data in a block that is visited so. -/
def Visit.takes (v : Visit p) (data : Bytes) : Bool :=
  !v.badblock.skips && (v.stores 0 data || v.stores 1 data)

/-- The block at which a try on block `b` leaves the offset, which was at block `m`. -/
def Visit.leavesTry (v : Visit p) (b retry m : Nat) : Nat :=
  match v.fault retry with
  | .erase => m
  | .reread => b
  | .none => b + 1
  | .program => b + 1

/-- The block at which a visit of block `b` that stores nothing leaves the offset. -/
def Visit.leaves (v : Visit p) (b m : Nat) : Nat :=
  if v.badblock.skips then m else v.leavesTry b 1 (v.leavesTry b 0 m)

theorem Visit.leaves_between (v : Visit p) {b m low : Nat} (hm : low ≤ m) (hb : low ≤ b) :
    low ≤ v.leaves b m := by
  unfold leaves leavesTry
  split
  · exact hm
  · split
    · split <;> omega
    · exact hb
    · omega
    · omega

section Block

variable {fd : WriteFd} {data : Bytes}

/-- What a try on block `b` leaves. -/
structure Tried (v : Visit p) (b retry : Nat) (data : Bytes) (fd : WriteFd)
    (r : Bool × WriteFd) : Prop where
  ok : r.1 = v.stores retry data
  stored : r.1 = true → r.2.flash b = data ∧ r.2.pos = (b + 1) * p.erase_size
  pos : ∀ m, fd.pos = m * p.erase_size → r.2.pos = v.leavesTry b retry m * p.erase_size
  frame : ∀ j, j ≠ b → r.2.flash j = fd.flash j
  skipped : r.2.bad_block_offsets = fd.bad_block_offsets
  verified : r.2.verified = fd.verified
  time : r.2.time = fd.time

theorem tryBlock_tried (v : Visit p) (b retry : Nat) (data : Bytes) (fd : WriteFd) :
    Tried v b retry data fd (tryBlock v (b * p.erase_size) retry data fd) := by
  have hnext : b * p.erase_size + p.erase_size = (b + 1) * p.erase_size :=
    (Nat.succ_mul _ _).symm
  unfold tryBlock
  rw [Nat.mul_div_cancel b p.erase_pos]
  simp only
  cases hv : v.fault retry with
  | none =>
    refine ⟨by simp [Visit.stores, hv], fun _ => ⟨by simp, hnext⟩, fun m _ => ?_,
      fun j hj => Function.update_of_ne hj _ _, rfl, rfl, rfl⟩
    simp only [Visit.leavesTry, hv]
    exact hnext
  | erase =>
    refine ⟨by simp [Visit.stores, hv], nofun, fun m hm => ?_,
      fun j hj => Function.update_of_ne hj _ _, rfl, rfl, rfl⟩
    simp only [Visit.leavesTry, hv]
    exact hm
  | program =>
    refine ⟨by simp [Visit.stores, hv, Bool.beq_eq_decide_eq], fun hok => ⟨?_, hnext⟩,
      fun m _ => ?_, fun j hj => Function.update_of_ne hj _ _, rfl, rfl, rfl⟩
    · exact eq_of_beq hok
    · simp only [Visit.leavesTry, hv]
      exact hnext
  | reread =>
    refine ⟨by simp [Visit.stores, hv], nofun, fun m _ => ?_,
      fun j hj => Function.update_of_ne hj _ _, rfl, rfl, rfl⟩
    simp only [Visit.leavesTry, hv]
    rfl

/-- What a visit of block `b` leaves. -/
structure Visited (v : Visit p) (b : Nat) (data : Bytes) (fd : WriteFd) (r : Bool × WriteFd) :
    Prop where
  ok : r.1 = v.takes data
  stored : r.1 = true → r.2.flash b = data ∧ r.2.pos = (b + 1) * p.erase_size ∧
    r.2.bad_block_offsets = fd.bad_block_offsets ∧ r.2.verified = fd.verified ++ [(b, data)]
  skipped : r.1 = false →
    (∀ m, fd.pos = m * p.erase_size → r.2.pos = v.leaves b m * p.erase_size) ∧
    r.2.bad_block_offsets = fd.bad_block_offsets ++ [b * p.erase_size] ∧
    r.2.verified = fd.verified
  frame : ∀ j, j ≠ b → r.2.flash j = fd.flash j
  time : r.2.time = fd.time + 1

theorem visitBlock_visited (b : Nat) (data : Bytes) (fd : WriteFd) :
    Visited (d fd.time b) b data fd (visitBlock d (b * p.erase_size) data fd) := by
  unfold visitBlock
  rw [Nat.mul_div_cancel b p.erase_pos]
  simp only
  generalize d fd.time b = v
  by_cases hskip : v.badblock.skips = true
  · rw [if_pos hskip]
    refine ⟨by simp [Visit.takes, hskip], nofun, fun _ => ⟨fun m hm => ?_, rfl, rfl⟩,
      fun j _ => rfl, rfl⟩
    rw [Visit.leaves, if_pos hskip]
    exact hm
  rw [if_neg hskip]
  have first := tryBlock_tried v b 0 data { fd with time := fd.time + 1 }
  split
  · rename_i fd₀ htry₀
    rw [htry₀] at first
    obtain ⟨hflash, hpos⟩ := first.stored rfl
    refine ⟨?_, fun _ => ⟨hflash, hpos, first.skipped, by rw [first.verified]⟩, nofun,
      first.frame, first.time⟩
    have hok := first.ok
    simp only [Visit.takes, ← hok, Bool.not_eq_true] at hskip ⊢
    simp [hskip]
  · rename_i fd₀ htry₀
    rw [htry₀] at first
    have second := tryBlock_tried v b 1 data fd₀
    have htakes : (tryBlock v (b * p.erase_size) 1 data fd₀).1 = v.takes data := by
      have hok := first.ok
      rw [second.ok, Visit.takes, ← hok]
      simp [hskip]
    have hframe : ∀ j, j ≠ b → (tryBlock v (b * p.erase_size) 1 data fd₀).2.flash j =
        fd.flash j := fun j hj => (second.frame j hj).trans (first.frame j hj)
    split
    · rename_i fd₁ htry₁
      rw [htry₁] at second hframe htakes
      obtain ⟨hflash, hpos⟩ := second.stored rfl
      refine ⟨htakes, fun _ => ⟨hflash, hpos, second.skipped.trans first.skipped, ?_⟩, nofun,
        hframe, second.time.trans first.time⟩
      rw [second.verified, first.verified]
    · rename_i fd₁ htry₁
      rw [htry₁] at second hframe htakes
      refine ⟨htakes, nofun, fun _ => ⟨fun m hm => ?_, ?_, ?_⟩, fun j hj => ?_,
        second.time.trans first.time⟩
      · rw [Visit.leaves, if_neg hskip]
        exact second.pos _ (first.pos m hm)
      · rw [second.skipped, first.skipped]
      · exact second.verified.trans first.verified
      · exact (Function.update_of_ne hj _ _).trans (hframe j hj)

end Block

/-! ## One call of `write_block` -/

/-- Block `b` is the first from block `k` on that takes the data, when block `k` is visited
at the time `t`. -/
structure First (d : Device p) (t k b : Nat) (data : Bytes) : Prop where
  le : k ≤ b
  inside : InPartition p b
  takes : (d (t + (b - k)) b).takes data = true
  before : ∀ j, k ≤ j → j < b → (d (t + (j - k)) j).takes data = false

/-- No block from block `k` on takes the data. -/
def Full (d : Device p) (t k : Nat) (data : Bytes) : Prop :=
  ∀ j, k ≤ j → InPartition p j → (d (t + (j - k)) j).takes data = false

/-- The block at which `n` visits from block `k` on leave the offset, which was at block
`m`, if they store nothing. -/
def Device.leaves (d : Device p) : Nat → Nat → Nat → Nat → Nat
  | _, _, 0, m => m
  | t, k, n + 1, m => leaves d (t + 1) (k + 1) n ((d t k).leaves k m)

/-- The offsets of `n` blocks from block `k` on. -/
def offsets (p : MtdPartition) (k n : Nat) : List Nat :=
  (List.range' k n).map (· * p.erase_size)

theorem offsets_cons (p : MtdPartition) (k n : Nat) :
    offsets p k (n + 1) = k * p.erase_size :: offsets p (k + 1) n := rfl

theorem Device.le_leaves (d : Device p) {low : Nat} (n : Nat) : ∀ t k m : Nat, low ≤ k → low ≤ m →
    low ≤ d.leaves t k n m := by
  induction n with
  | zero => exact fun t k m _ hm => hm
  | succ n ih =>
    intro t k m hk hm
    exact ih _ _ _ (by omega) (Visit.leaves_between _ hm hk)

section Call

variable {fd : WriteFd} {data : Bytes}

/-- `write_block` put the data into block `b` when it started at block `k`. -/
structure Wrote (p : MtdPartition) (k b : Nat) (data : Bytes) (fd fd' : WriteFd) : Prop where
  pos : fd'.pos = (b + 1) * p.erase_size
  time : fd'.time = fd.time + (b - k) + 1
  stored : fd'.flash b = data
  frame : ∀ j, j < k ∨ b < j → fd'.flash j = fd.flash j
  skipped : fd'.bad_block_offsets = fd.bad_block_offsets ++ offsets p k (b - k)
  verified : fd'.verified = fd.verified ++ [(b, data)]

/-- `write_block` found no block from block `k` on when the offset was at block `m`. -/
structure RanOut (d : Device p) (k m : Nat) (fd fd' : WriteFd) : Prop where
  pos : fd'.pos = d.leaves fd.time k (blocks p - k) m * p.erase_size
  time : fd'.time = fd.time + (blocks p - k)
  frame : ∀ j < k, fd'.flash j = fd.flash j
  skipped : fd'.bad_block_offsets = fd.bad_block_offsets ++ offsets p k (blocks p - k)
  verified : fd'.verified = fd.verified

/-- What `write_block` returns and leaves. -/
def Written (d : Device p) (k m : Nat) (data : Bytes) (fd : WriteFd) (r : Bool × WriteFd) : Prop :=
  (r.1 = true ∧ ∃ b, First d fd.time k b data ∧ Wrote p k b data fd r.2) ∨
    (r.1 = false ∧ Full d fd.time k data ∧ RanOut d k m fd r.2)

/-- Block `k` was visited in vain before. -/
theorem Written.skip {k m : Nat} {fd₁ : WriteFd} {r : Bool × WriteFd} (hin : InPartition p k)
    (hvisit : Visited (d fd.time k) k data fd (false, fd₁))
    (h : Written d (k + 1) ((d fd.time k).leaves k m) data fd₁ r) :
    Written d k m data fd r := by
  obtain ⟨-, hbad, hverified⟩ := hvisit.skipped rfl
  have htime := hvisit.time
  have hno : (d fd.time k).takes data = false := hvisit.ok.symm
  have hshift : ∀ j, k + 1 ≤ j → fd₁.time + (j - (k + 1)) = fd.time + (j - k) := by
    intro j hj
    simp only at htime
    omega
  rcases h with ⟨hok, b, hfirst, h⟩ | ⟨hok, hfull, h⟩
  · have hle := hfirst.le
    have hsucc : b - k = b - (k + 1) + 1 := by omega
    refine .inl ⟨hok, b, ⟨by omega, hfirst.inside, ?_, fun j hj hlt => ?_⟩, h.pos, ?_, h.stored,
      fun j hj => ?_, ?_, ?_⟩
    · rw [← hshift b hle]
      exact hfirst.takes
    · rcases Nat.eq_or_lt_of_le hj with rfl | hj
      · rwa [Nat.sub_self]
      · rw [← hshift j hj]
        exact hfirst.before j hj hlt
    · rw [h.time, hshift b hle]
    · exact (h.frame j (by omega)).trans (hvisit.frame j (by omega))
    · rw [h.skipped, hbad, List.append_assoc, hsucc, offsets_cons]
      rfl
    · rw [h.verified, hverified]
  · have hlt := inPartition_iff.mp hin
    have hsucc : blocks p - k = blocks p - (k + 1) + 1 := by omega
    refine .inr ⟨hok, fun j hj hjin => ?_, ?_, ?_, fun j hj => ?_, ?_, ?_⟩
    · rcases Nat.eq_or_lt_of_le hj with rfl | hj
      · rwa [Nat.sub_self]
      · rw [← hshift j hj]
        exact hfull j hj hjin
    · rw [h.pos, hsucc, Device.leaves]
      simp only at htime
      rw [htime]
    · rw [h.time, hshift _ (by omega)]
    · exact (h.frame j (by omega)).trans (hvisit.frame j (by omega))
    · rw [h.skipped, hbad, List.append_assoc, hsucc, offsets_cons]
      rfl
    · rw [h.verified, hverified]

theorem writeLoop_out {k : Nat} (h : ¬ InPartition p k) (data : Bytes) (fuel : Nat) (fd : WriteFd) :
    writeLoop d data fuel (k * p.erase_size) fd = .done (false, fd) := by
  unfold writeLoop
  exact if_neg h

theorem writeLoop_in {k : Nat} (h : InPartition p k) (data : Bytes) (fuel : Nat) (fd : WriteFd) :
    writeLoop d data (fuel + 1) (k * p.erase_size) fd =
      match visitBlock d (k * p.erase_size) data fd with
      | (true, fd) => .done (true, fd)
      | (false, fd) => writeLoop d data fuel ((k + 1) * p.erase_size) fd := by
  rw [Nat.succ_mul]
  conv_lhs => unfold writeLoop
  exact if_pos h

/-- Behind the last block nothing is written. -/
theorem written_out {k m : Nat} (hout : ¬ InPartition p k) (hpos : fd.pos = m * p.erase_size) :
    Written d k m data fd (false, fd) := by
  have hzero : blocks p - k = 0 := by
    rw [inPartition_iff] at hout
    omega
  refine .inr ⟨rfl, fun j hj hin => absurd (hin.mono hj) hout, ?_, ?_, fun _ _ => rfl, ?_, rfl⟩
  · rw [hzero]
    exact hpos
  · rw [hzero]
    rfl
  · rw [hzero]
    exact (List.append_nil _).symm

theorem writeLoop_spec (data : Bytes) (fuel : Nat) : ∀ (k m : Nat) (fd : WriteFd),
    fd.pos = m * p.erase_size → blocks p < k + fuel →
    ∃ r, writeLoop d data fuel (k * p.erase_size) fd = .done r ∧ Written d k m data fd r := by
  induction fuel with
  | zero =>
    intro k m fd hpos hfuel
    have hout : ¬ InPartition p k := by
      rw [inPartition_iff]
      omega
    rw [writeLoop_out hout]
    exact ⟨_, rfl, written_out hout hpos⟩
  | succ fuel ih =>
    intro k m fd hpos hfuel
    by_cases hin : InPartition p k
    · have hvisit := visitBlock_visited (d := d) k data fd
      rw [writeLoop_in hin]
      rcases hr : visitBlock d (k * p.erase_size) data fd with ⟨ok, fd₁⟩
      rw [hr] at hvisit
      cases ok with
      | true =>
        obtain ⟨hflash, hpos₁, hbad, hverified⟩ := hvisit.stored rfl
        have hnow : fd.time + (k - k) = fd.time := by rw [Nat.sub_self, Nat.add_zero]
        refine ⟨_, rfl, .inl ⟨rfl, k, ⟨le_rfl, hin, ?_, fun j hj hlt => by omega⟩, hpos₁, ?_,
          hflash, fun j hj => hvisit.frame j (by omega), ?_, hverified⟩⟩
        · rw [hnow]
          exact hvisit.ok.symm
        · rw [hnow]
          exact hvisit.time
        · rw [Nat.sub_self, hbad]
          exact (List.append_nil _).symm
      | false =>
        have hpos₁ := (hvisit.skipped rfl).1 m hpos
        obtain ⟨r, hloop, hwritten⟩ := ih (k + 1) _ fd₁ hpos₁ (by omega)
        exact ⟨r, hloop, hwritten.skip hin hvisit⟩
    · rw [writeLoop_out hin]
      exact ⟨_, rfl, written_out hin hpos⟩

/-- `write_block` returns: it stored the data in the first block that took it, or no block
did. -/
theorem write_block_spec {k : Nat} (hpos : fd.pos = k * p.erase_size) (data : Bytes) :
    ∃ r, write_block d fd data = .done r ∧ Written d k k data fd r := by
  have hle := blocks_le p
  rw [write_block, hpos]
  exact writeLoop_spec data _ k k fd hpos (by omega)

end Call

/-! ## Erasing -/

/-- What erasing from block `k` on leaves. -/
structure Erased (p : MtdPartition) (k blocks : Nat) (fd : WriteFd) (r : Nat × WriteFd) : Prop where
  result : r.1 = (k + blocks) * p.erase_size
  pos : r.2.pos = fd.pos
  skipped : r.2.bad_block_offsets = fd.bad_block_offsets
  verified : r.2.verified = fd.verified
  frame : ∀ j < k, r.2.flash j = fd.flash j

/-- Erasing changes nothing before the block it starts at. -/
theorem eraseLoop_erased (blocks : Nat) : ∀ (k : Nat) (fd : WriteFd),
    Erased p k blocks fd (eraseLoop d blocks (k * p.erase_size) fd) := by
  induction blocks with
  | zero => exact fun k fd => ⟨rfl, rfl, rfl, rfl, fun _ _ => rfl⟩
  | succ blocks ih =>
    intro k fd
    unfold eraseLoop
    simp only [Nat.mul_div_cancel k p.erase_pos, ← Nat.succ_mul, Nat.succ_eq_add_one]
    split
    · obtain ⟨hend, hpos, hbad, hverified, hframe⟩ := ih (k + 1) { fd with time := fd.time + 1 }
      exact ⟨hend.trans (by rw [Nat.add_right_comm, Nat.add_assoc]), hpos, hbad, hverified,
        fun j hj => hframe j (by omega)⟩
    · obtain ⟨hend, hpos, hbad, hverified, hframe⟩ := ih (k + 1) _
      refine ⟨hend.trans (by rw [Nat.add_right_comm, Nat.add_assoc]), hpos, hbad, hverified,
        fun j hj => (hframe j (by omega)).trans ?_⟩
      exact Function.update_of_ne (by omega) _ _

/-- The records and what lies before block `k` are as they were. -/
structure Untouched (k : Nat) (fd fd' : WriteFd) : Prop where
  pos : fd'.pos = fd.pos
  skipped : fd'.bad_block_offsets = fd.bad_block_offsets
  verified : fd'.verified = fd.verified
  frame : ∀ j < k, fd'.flash j = fd.flash j

theorem Untouched.refl (k : Nat) (fd : WriteFd) : Untouched k fd fd :=
  ⟨rfl, rfl, rfl, fun _ _ => rfl⟩

section EraseBlocks

variable {k : Nat}

theorem eraseFrom_untouched (n : Int) {fd : WriteFd} (hpos : fd.pos = k * p.erase_size) :
    Untouched k fd (eraseFrom d n fd).2 := by
  have herased : ∀ blocks : Nat, Untouched k fd (eraseLoop d blocks fd.pos fd).2 := by
    intro blocks
    have h := eraseLoop_erased (d := d) blocks k fd
    rw [hpos]
    exact ⟨h.pos, h.skipped, h.verified, h.frame⟩
  unfold eraseFrom
  simp only
  generalize (if n < 0 then _ else n) = blocks
  split
  · exact .refl k fd
  · exact herased _

/-- With nothing pending the blocks before the offset are left alone. -/
theorem mtd_erase_blocks_empty (ctx : Stream.WriteContext WriteFd) (hbuf : ctx.buffer = [])
    (hpos : ctx.fd.pos = k * p.erase_size) (n : Int) : ∃ r fd', mtd_erase_blocks d ctx n = .done (r, ⟨[], fd'⟩) ∧
      Untouched k ctx.fd fd' := by
  obtain ⟨buffer, fd⟩ := ctx
  subst hbuf
  have hflush : Stream.flushPending p.erase_size (write_block d) ⟨[], fd⟩ =
      .done (true, ⟨[], fd⟩) := rfl
  unfold mtd_erase_blocks
  rw [hflush, Outcome.done_bind]
  exact ⟨_, _, rfl, eraseFrom_untouched n hpos⟩

/-- What is pending is written first, or nothing else is done. -/
theorem mtd_erase_blocks_pending (ctx : Stream.WriteContext WriteFd) (hbuf : ctx.buffer ≠ [])
    (hpos : ctx.fd.pos = k * p.erase_size) {last : Bytes}
    (hlast : ctx.buffer ++ List.replicate (p.erase_size - ctx.buffer.length) 0 = last) (n : Int) :
    (∃ b fd₁ r fd', First d ctx.fd.time k b last ∧ Wrote p k b last ctx.fd fd₁ ∧
      mtd_erase_blocks d ctx n = .done (r, ⟨[], fd'⟩) ∧ Untouched (b + 1) fd₁ fd') ∨
    (∃ fd', Full d ctx.fd.time k last ∧ RanOut d k k ctx.fd fd' ∧
      mtd_erase_blocks d ctx n = .done (none, ⟨ctx.buffer, fd'⟩)) := by
  obtain ⟨⟨ok, fd₁⟩, hwrite, hwritten⟩ := write_block_spec (d := d) hpos last
  have hflush : Stream.flushPending p.erase_size (write_block d) ctx =
      .done (ok, ⟨if ok then [] else ctx.buffer, fd₁⟩) := by
    unfold Stream.flushPending
    rw [if_pos (List.length_pos_iff.mpr hbuf), hlast, hwrite]
    rfl
  unfold mtd_erase_blocks
  rw [hflush, Outcome.done_bind]
  rcases hwritten with ⟨hok, b, hfirst, hwrote⟩ | ⟨hok, hfull, hout⟩
  · simp only at hok
    subst hok
    exact .inl ⟨b, fd₁, _, _, hfirst, hwrote, rfl, eraseFrom_untouched n hwrote.pos⟩
  · simp only at hok
    subst hok
    exact .inr ⟨fd₁, hfull, hout, rfl⟩

end EraseBlocks

/-! ## What is kept while blocks are written -/

/-- The verified blocks are in order, all before block `k`, and still hold their data. -/
structure Kept (p : MtdPartition) (k : Nat) (fd : WriteFd) : Prop where
  order : (fd.verified.map Prod.fst).Pairwise (· < ·)
  inside : ∀ v ∈ fd.verified, InPartition p v.1
  below : ∀ v ∈ fd.verified, v.1 < k
  holds : ∀ v ∈ fd.verified, fd.flash v.1 = v.2

section Kept

variable {k b : Nat} {fd fd' : WriteFd} {data : Bytes}

theorem Kept.mono {k' : Nat} (h : Kept p k fd) (hle : k ≤ k') : Kept p k' fd :=
  ⟨h.order, h.inside, fun v hv => (h.below v hv).trans_le hle, h.holds⟩

/-- What leaves the blocks before block `k` and the record alone. -/
theorem Kept.frame (h : Kept p k fd) (hverified : fd'.verified = fd.verified)
    (hframe : ∀ j < k, fd'.flash j = fd.flash j) : Kept p k fd' := by
  refine ⟨?_, ?_, ?_, ?_⟩
  · rw [hverified]
    exact h.order
  · rw [hverified]
    exact h.inside
  · rw [hverified]
    exact h.below
  · rw [hverified]
    exact fun v hv => (hframe v.1 (h.below v hv)).trans (h.holds v hv)

/-- One more block. -/
theorem Kept.wrote (h : Kept p k fd) {t : Nat} (hfirst : First d t k b data)
    (hwrote : Wrote p k b data fd fd') : Kept p (b + 1) fd' := by
  have hle := hfirst.le
  refine ⟨?_, ?_, ?_, ?_⟩
  · rw [hwrote.verified, List.map_append, List.pairwise_append]
    refine ⟨h.order, List.pairwise_singleton _ _, fun i hi j hj => ?_⟩
    obtain ⟨v, hv, rfl⟩ := List.mem_map.mp hi
    rw [List.map_singleton, List.mem_singleton] at hj
    have := h.below v hv
    simp only at hj
    omega
  · rw [hwrote.verified]
    intro v hv
    rcases List.mem_append.mp hv with hv | hv
    · exact h.inside v hv
    · rw [List.mem_singleton.mp hv]
      exact hfirst.inside
  · rw [hwrote.verified]
    intro v hv
    rcases List.mem_append.mp hv with hv | hv
    · have := h.below v hv
      omega
    · rw [List.mem_singleton.mp hv]
      exact Nat.lt_succ_self b
  · rw [hwrote.verified]
    intro v hv
    rcases List.mem_append.mp hv with hv | hv
    · exact (hwrote.frame v.1 (.inl (h.below v hv))).trans (h.holds v hv)
    · rw [List.mem_singleton.mp hv]
      exact hwrote.stored

end Kept

/-! ## Several blocks -/

/-- The blocks are stored, in order, in the first blocks from block `k` on that take them,
the last one before block `k'`. Block `b` is visited at the time `t + b`. -/
inductive Stores (d : Device p) (t : Nat) : Nat → List Bytes → Nat → Prop where
  | nil {k : Nat} : Stores d t k [] k
  | cons {k b k' : Nat} {data : Bytes} {ds : List Bytes} :
      First d (t + k) k b data → Stores d t (b + 1) ds k' → Stores d t k (data :: ds) k'

theorem First.unique {t k b b' : Nat} {data : Bytes} (h : First d t k b data)
    (h' : First d t k b' data) : b = b' := by
  rcases Nat.lt_trichotomy b b' with hlt | heq | hgt
  · have hno := h'.before b h.le hlt
    rw [h.takes] at hno
    cases hno
  · exact heq
  · have hno := h.before b' h'.le hgt
    rw [h'.takes] at hno
    cases hno

theorem First.not_full {t k b : Nat} {data : Bytes} (h : First d t k b data) :
    ¬ Full d t k data := by
  intro hfull
  have hno := hfull b h.le h.inside
  rw [h.takes] at hno
  cases hno

theorem Stores.unique {t k k₁ k₂ : Nat} {ds : List Bytes} (h₁ : Stores d t k ds k₁)
    (h₂ : Stores d t k ds k₂) : k₁ = k₂ := by
  induction h₁ with
  | nil =>
    cases h₂
    rfl
  | cons hfirst _ ih =>
    cases h₂ with
    | cons hfirst' hrest' =>
      rw [hfirst.unique hfirst'] at ih
      exact ih hrest'

/-- Where the blocks from block `k` on begin. -/
structure At (p : MtdPartition) (t k : Nat) (fd : WriteFd) : Prop where
  pos : fd.pos = k * p.erase_size
  time : fd.time = t + k
  kept : Kept p k fd

/-- Blocks that are written one after the other up to the first that fails. -/
theorem feed_spec {t : Nat} (ds : List Bytes) : ∀ {k : Nat} {fd : WriteFd}, At p t k fd →
    ∃ r, Stream.feed (write_block d) ds fd = .done r ∧
      ((r.1 = true ∧ ∃ k', Stores d t k ds k' ∧ At p t k' r.2 ∧
        r.2.verified.map Prod.snd = fd.verified.map Prod.snd ++ ds) ∨
      (r.1 = false ∧ ∀ k', ¬ Stores d t k ds k')) := by
  induction ds with
  | nil =>
    intro k fd hat
    exact ⟨_, rfl, .inl ⟨rfl, k, .nil, hat, (List.append_nil _).symm⟩⟩
  | cons data ds ih =>
    intro k fd hat
    obtain ⟨⟨ok, fd₁⟩, hwrite, hwritten⟩ := write_block_spec (d := d) hat.pos data
    rw [Stream.feed, hwrite, Outcome.done_bind]
    rcases hwritten with ⟨hok, b, hfirst, hwrote⟩ | ⟨hok, hfull, -⟩
    · simp only at hok
      subst hok
      rw [hat.time] at hfirst
      have hle := hfirst.le
      have hat₁ : At p t (b + 1) fd₁ := by
        refine ⟨hwrote.pos, ?_, hat.kept.wrote hfirst hwrote⟩
        have htime : fd₁.time = fd.time + (b - k) + 1 := hwrote.time
        rw [hat.time] at htime
        omega
      obtain ⟨r, hfeed, hr⟩ := ih hat₁
      refine ⟨r, hfeed, ?_⟩
      rcases hr with ⟨hok, k', hstores, hat', hdata⟩ | ⟨hok, hno⟩
      · refine .inl ⟨hok, k', .cons hfirst hstores, hat', ?_⟩
        rw [hdata, hwrote.verified, List.map_append, List.append_assoc]
        rfl
      · refine .inr ⟨hok, fun k' hstores => ?_⟩
        cases hstores with
        | cons hfirst' hrest =>
          rw [← hfirst.unique hfirst'] at hrest
          exact hno k' hrest
    · simp only at hok
      subst hok
      rw [hat.time] at hfull
      refine ⟨_, rfl, .inr ⟨rfl, fun k' hstores => ?_⟩⟩
      cases hstores with
      | cons hfirst' _ => exact hfirst'.not_full hfull

/-! ## A device that answers alike each time -/

section OfChip

variable (c : Chip) (l : Leftover p)

/-- The answers of the device of `Mtdutils`. -/
def ofChip : Device p := fun _ b =>
  { badblock := match c.memgetbadblock with
      | some f => if f b then .bad else .good
      | none => .unsupported
    fault := c.fault b
    left := l.left b
    left_length := l.left_length b }

/-- What `Mtdutils` has of a descriptor. -/
def WriteFd.forget (fd : WriteFd) : Mtdutils.WriteFd := ⟨fd.pos, fd.flash, fd.bad_block_offsets⟩

/-- What `Mtdutils` has of a result. -/
def forget : Bool × WriteFd → Option Mtdutils.WriteFd
  | (true, fd) => some fd.forget
  | (false, _) => none

theorem ofChip_skips (time b : Nat) : (ofChip c l time b).badblock.skips = c.isBad b := by
  unfold ofChip Chip.isBad
  cases c.memgetbadblock with
  | none => rfl
  | some f =>
    cases hf : f b with
    | true => simp [BadBlock.skips, hf]
    | false => simp [BadBlock.skips, hf]

/-- A try is that of `Mtdutils`. -/
theorem tryBlock_ofChip {pos retry : Nat} {data : Bytes} (fd : WriteFd) {flash : Flash} {ok : Bool}
    (h : Mtdutils.tryBlock c l (pos / p.erase_size) retry data fd.flash = (flash, ok))
    (time : Nat) :
    ∃ pos', tryBlock (ofChip c l time (pos / p.erase_size)) pos retry data fd =
      (ok, { fd with flash := flash, pos := pos' }) ∧ (ok = true → pos' = pos + p.erase_size) := by
  unfold tryBlock
  unfold Mtdutils.tryBlock at h
  by_cases herase : c.fault (pos / p.erase_size) retry = .erase
  · rw [if_pos herase] at h
    cases h
    exact ⟨fd.pos, by simp [ofChip, herase], nofun⟩
  by_cases hreread : c.fault (pos / p.erase_size) retry = .reread
  · simp only [if_neg herase, if_pos hreread] at h
    cases h
    exact ⟨pos, by simp [ofChip, hreread], nofun⟩
  · simp only [if_neg herase, if_neg hreread] at h
    cases h
    refine ⟨pos + p.erase_size, ?_, fun _ => rfl⟩
    simp only [ofChip, herase, hreread, if_false]
    rfl

theorem writeLoop_ofChip (data : Bytes) (fuel : Nat) :
    ∀ (pos : Nat) (fd : WriteFd) (fd₀ : Mtdutils.WriteFd), fd.flash = fd₀.flash →
      fd.bad_block_offsets = fd₀.bad_block_offsets →
      (writeLoop (ofChip c l) data fuel pos fd >>= fun r => .done (forget r)) =
        Mtdutils.writeLoop c l data fuel pos fd₀ := by
  induction fuel with
  | zero =>
    intro pos fd fd₀ hflash hbad
    unfold writeLoop Mtdutils.writeLoop
    split
    · rfl
    · rfl
  | succ fuel ih =>
    intro pos fd fd₀ hflash hbad
    unfold writeLoop Mtdutils.writeLoop
    split
    swap
    · rfl
    simp only [visitBlock, ofChip_skips]
    by_cases hskip : c.isBad (pos / p.erase_size) = true
    · simp only [hskip, if_true]
      exact ih _ _ _ hflash (by rw [hbad])
    simp only [hskip, Bool.false_eq_true, if_false]
    rcases h₀ : Mtdutils.tryBlock c l (pos / p.erase_size) 0 data fd₀.flash with ⟨flash₀, ok₀⟩
    have hstart := h₀
    rw [← hflash] at hstart
    obtain ⟨pos₀, htry₀, hpos₀⟩ :=
      tryBlock_ofChip c l { fd with time := fd.time + 1 } hstart fd.time
    simp only [htry₀]
    cases ok₀ with
    | true => simp [forget, WriteFd.forget, hpos₀ rfl, hbad]
    | false =>
      rcases h₁ : Mtdutils.tryBlock c l (pos / p.erase_size) 1 data flash₀ with ⟨flash₁, ok₁⟩
      obtain ⟨pos₁, htry₁, hpos₁⟩ := tryBlock_ofChip c l
        { fd with time := fd.time + 1, flash := flash₀, pos := pos₀ } h₁ fd.time
      simp only [htry₁]
      cases ok₁ with
      | true => simp [forget, WriteFd.forget, hpos₁ rfl, hbad]
      | false =>
        simp only [Bool.false_eq_true, if_false]
        exact ih _ _ _ rfl (by rw [hbad])

/-- For a device that answers alike each time this is the `write_block` of `Mtdutils`. -/
theorem write_block_ofChip (fd : WriteFd) (data : Bytes) :
    (write_block (ofChip c l) fd data >>= fun r => .done (forget r)) =
      Mtdutils.write_block c l fd.forget data :=
  writeLoop_ofChip c l data _ fd.pos fd fd.forget rfl rfl

end OfChip

end BootableRecovery.Mtdutils.Attempts
