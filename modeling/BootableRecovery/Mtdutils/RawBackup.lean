import BootableRecovery.Mtdutils

/-!
# `mtdutils/mtdutils.c`: `cmd_mtd_backup_raw_partition`

A partition is read in pieces of 2048 bytes up to the first -1 of `mtd_read_data`, which
stands for the end of the partition and for an error alike. The blocks that are good are
those that are neither bad nor unreadable. `read_block` leaves out some of them: it takes
a failure of `MEMGETBADBLOCK` for a bad block, and it compares the count of ECC failures
with the count before a block whose `read` failed.

Main results:
* `backup_raw_partition_iff`: on which devices the result 0 means that the output is the
  contents of the good blocks.
* `backup_raw_partition_short`: a good block is left out behind a block that cannot be read.
-/

namespace BootableRecovery.Mtdutils.Backup

/-! ## The device -/

/-- How the device answers a reader, block by block: what the block holds, whether it is
bad, whether its `read` fails, the ECC failures that reading it adds, and whether the calls
for it fail: `MEMGETBADBLOCK`, `ECCGETSTATS` before a search that starts at the block, and
`ECCGETSTATS` after it was read. -/
structure Device (p : MtdPartition) where
  content : Nat → Bytes
  content_length : ∀ b, (content b).length = p.erase_size
  bad : Nat → Bool
  readError : Nat → Bool
  eccFailures : Nat → Nat
  memgetbadblockFails : Nat → Bool
  beforeFails : Nat → Bool
  afterFails : Nat → Bool

/-- The state of the file descriptor: its offset and the count of ECC failures. -/
structure ReadFd where
  pos : Nat
  failed : Nat
  deriving DecidableEq, Repr

section Code

variable {p : MtdPartition} (d : Device p)

/-- What `MEMGETBADBLOCK` returns. -/
def memgetbadblock (b : Nat) : Int :=
  if d.memgetbadblockFails b then -1 else if d.bad b then 1 else 0

/-- The loop of `read_block` from the offset `pos` on; `before` is the count of failures it
compares with. -/
def readLoop : Nat → Nat → Nat → Nat → Outcome (Option (Bytes × ReadFd))
  | fuel, pos, before, failed =>
    if (pos : Int) + p.erase_size ≤ wrap32 p.size then
      match fuel with
      | 0 => .spin
      | fuel + 1 =>
        let b := pos / p.erase_size
        let after := failed + d.eccFailures b
        if d.readError b then readLoop fuel (pos + p.erase_size) before after
        else if d.afterFails b then .done none
        else if after ≠ before then readLoop fuel (pos + p.erase_size) after after
        else if memgetbadblock d b ≠ 0 then readLoop fuel (pos + p.erase_size) before after
        else .done (some (d.content b, ⟨pos + p.erase_size, after⟩))
    else .done none

/-- `read_block`: the block that is read, or `none` when -1 is returned. -/
def read_block (fd : ReadFd) : Outcome (Option (Bytes × ReadFd)) :=
  if d.beforeFails (fd.pos / p.erase_size) then .done none
  else readLoop d (p.size / p.erase_size + 1) fd.pos fd.failed fd.failed

theorem readLoop_length_eq (fuel : Nat) : ∀ {pos before failed : Nat} {fd' : ReadFd} {block : Bytes},
    readLoop d fuel pos before failed = .done (some (block, fd')) → block.length = p.erase_size := by
  induction fuel with
  | zero =>
    intro pos before failed fd' block h
    unfold readLoop at h
    split at h
    · cases h
    · cases h
  | succ fuel ih =>
    intro pos before failed fd' block h
    unfold readLoop at h
    split at h
    swap
    · cases h
    simp only at h
    split at h
    · exact ih h
    split at h
    · cases h
    split at h
    · exact ih h
    split at h
    · exact ih h
    · cases h
      exact d.content_length _

/-- The blocks of the device. -/
def reader : Stream.BlockReader ReadFd p.erase_size where
  read_block := read_block d
  length_eq := by
    intro fd fd' block h
    unfold read_block at h
    split at h
    · cases h
    · exact readLoop_length_eq d _ h

/-- What succeeds before anything is read, which calls of `write` store all of their bytes,
whether `close` succeeds, and what the buffer for a block happens to hold. -/
structure Output (p : MtdPartition) where
  mtd_scan_partitions : Bool
  mtd_find_partition_by_name : Bool
  mtd_partition_info : Bool
  opens : Bool
  mtd_read_partition : Bool
  writes : Nat → Bool
  close : Bool
  buffer : { b : Bytes // b.length = p.erase_size }

def BLOCK_SIZE : Nat := 2048

/-- The loop; the result is the contents of the output, or `none` when a `write` failed. -/
def backupLoop (o : Output p) : Nat → Nat → Stream.ReadContext ReadFd → Bytes →
    Outcome (Option Bytes)
  | 0, _, _, _ => .spin
  | fuel + 1, i, ctx, out => do
    let r ← Stream.mtd_read_data (reader d) ctx BLOCK_SIZE
    match r with
    | none => .done (some out)
    | some (buf, ctx) =>
      if 0 < buf.length then
        if o.writes i then backupLoop o fuel (i + 1) ctx (out ++ buf) else .done none
      else .done (some out)

/-- `cmd_mtd_backup_raw_partition` with the count of ECC failures before it: the result, and
what the output holds, if it was not removed. -/
def cmd_mtd_backup_raw_partition (o : Output p) (failed : Nat) : Outcome (Int × Option Bytes) :=
  if !o.mtd_scan_partitions then .done (-1, none)
  else if !o.mtd_find_partition_by_name then .done (-1, none)
  else if !o.mtd_partition_info then .done (-1, none)
  else if !o.opens then .done (-1, none)
  else if !o.mtd_read_partition then .done (-1, none)
  else do
    let ctx := Stream.mtd_read_partition p.erase_size o.buffer ⟨0, failed⟩
    let r ← backupLoop d o (p.size + 1) 0 ctx []
    match r with
    | none => .done (-1, none)
    | some out => if !o.close then .done (-1, none) else .done (0, some out)

/-! ## What is expected -/

/-- A block that is neither bad nor unreadable. -/
def good (b : Nat) : Bool := !d.bad b && !d.readError b && d.eccFailures b == 0

/-- The good ones of `n` blocks from block `k` on. -/
def goodBlocks (k n : Nat) : List Nat := (List.range' k n).filter (good d)

/-- The good blocks are all read: for each of them `MEMGETBADBLOCK` does not fail, no ECC
failures come from blocks right before it whose `read` failed, and no call of `ECCGETSTATS`
fails before it is read. -/
def AllRead : Prop :=
  ∀ g < blocks p, good d g = true →
    d.memgetbadblockFails g = false ∧
    (∀ j < g, (∀ i, j ≤ i → i < g → d.readError i = true) → d.eccFailures j = 0) ∧
    ∀ j ≤ g, (d.afterFails j = true → d.readError j = true) ∧
      (d.beforeFails j = true → 0 < j ∧ good d (j - 1) = false)

end Code

variable {p : MtdPartition} {d : Device p}

/-! ## The blocks that are read -/

/-- What is read of `n` blocks from block `k` on. `start` says that a call of `read_block`
starts there, and `stale` counts the ECC failures since the count it compares with. -/
def delivered (d : Device p) : Bool → Nat → Nat → Nat → List Nat
  | _, _, 0, _ => []
  | start, stale, n + 1, k =>
    if start = true ∧ d.beforeFails k = true then []
    else if d.readError k then delivered d false (stale + d.eccFailures k) n (k + 1)
    else if d.afterFails k then []
    else if stale + d.eccFailures k ≠ 0 then delivered d false 0 n (k + 1)
    else if memgetbadblock d k ≠ 0 then delivered d false 0 n (k + 1)
    else k :: delivered d true 0 n (k + 1)

/-- `ECCGETSTATS` does not fail before block `k`. -/
theorem delivered_succ {start : Bool} {k : Nat} (h : ¬ (start = true ∧ d.beforeFails k = true))
    (stale n : Nat) : delivered d start stale (n + 1) k =
      if d.readError k then delivered d false (stale + d.eccFailures k) n (k + 1)
      else if d.afterFails k then []
      else if stale + d.eccFailures k ≠ 0 then delivered d false 0 n (k + 1)
      else if memgetbadblock d k ≠ 0 then delivered d false 0 n (k + 1)
      else k :: delivered d true 0 n (k + 1) := by
  rw [delivered, if_neg h]

theorem readLoop_out {k : Nat} (h : ¬ InPartition p k) (fuel before failed : Nat) :
    readLoop d fuel (k * p.erase_size) before failed = .done none := by
  unfold readLoop
  exact if_neg h

theorem readLoop_in {k : Nat} (h : InPartition p k) (fuel before failed : Nat) :
    readLoop d (fuel + 1) (k * p.erase_size) before failed =
      if d.readError k then
        readLoop d fuel ((k + 1) * p.erase_size) before (failed + d.eccFailures k)
      else if d.afterFails k then .done none
      else if failed + d.eccFailures k ≠ before then
        readLoop d fuel ((k + 1) * p.erase_size) (failed + d.eccFailures k) (failed + d.eccFailures k)
      else if memgetbadblock d k ≠ 0 then
        readLoop d fuel ((k + 1) * p.erase_size) before (failed + d.eccFailures k)
      else .done (some (d.content k, ⟨(k + 1) * p.erase_size, failed + d.eccFailures k⟩)) := by
  rw [Nat.succ_mul]
  conv_lhs => unfold readLoop
  refine (if_pos h).trans ?_
  simp only [Nat.mul_div_cancel k p.erase_pos]

/-- A call of `read_block` returns the first of these blocks. -/
theorem readLoop_spec (n : Nat) : ∀ (k before stale fuel : Nat), k + n = blocks p → n ≤ fuel →
    (readLoop d fuel (k * p.erase_size) before (before + stale) = .done none ∧
      delivered d false stale n k = []) ∨
    (∃ b failed, k ≤ b ∧ b < k + n ∧
      readLoop d fuel (k * p.erase_size) before (before + stale) =
        .done (some (d.content b, ⟨(b + 1) * p.erase_size, failed⟩)) ∧
      delivered d false stale n k = b :: delivered d true 0 (k + n - (b + 1)) (b + 1)) := by
  induction n with
  | zero =>
    intro k before stale fuel hk hfuel
    refine .inl ⟨readLoop_out ?_ _ _ _, rfl⟩
    rw [inPartition_iff]
    omega
  | succ n ih =>
    intro k before stale fuel hk hfuel
    obtain ⟨fuel, rfl⟩ : ∃ f, fuel = f + 1 := ⟨fuel - 1, by omega⟩
    have hin : InPartition p k := by
      rw [inPartition_iff]
      omega
    have hnext : ∀ before' stale' : Nat, _ := fun before' stale' =>
      ih (k + 1) before' stale' fuel (by omega) (by omega)
    have hshift : k + (n + 1) = k + 1 + n := by omega
    have hcarry : ∀ {r : Outcome (Option (Bytes × ReadFd))} {l : List Nat},
        ((r = .done none ∧ l = []) ∨ ∃ b failed, k + 1 ≤ b ∧ b < k + 1 + n ∧
          r = .done (some (d.content b, ⟨(b + 1) * p.erase_size, failed⟩)) ∧
          l = b :: delivered d true 0 (k + 1 + n - (b + 1)) (b + 1)) →
        (r = .done none ∧ l = []) ∨ ∃ b failed, k ≤ b ∧ b < k + (n + 1) ∧
          r = .done (some (d.content b, ⟨(b + 1) * p.erase_size, failed⟩)) ∧
          l = b :: delivered d true 0 (k + (n + 1) - (b + 1)) (b + 1) := by
      rintro r l (h | ⟨b, failed, hle, hlt, hr, hl⟩)
      · exact .inl h
      · rw [hshift]
        exact .inr ⟨b, failed, by omega, hlt, hr, hl⟩
    rw [readLoop_in hin, delivered_succ (by simp), Nat.add_assoc]
    by_cases herror : d.readError k = true
    · rw [if_pos herror, if_pos herror]
      exact hcarry (hnext before (stale + d.eccFailures k))
    rw [if_neg herror, if_neg herror]
    by_cases hafter : d.afterFails k = true
    · rw [if_pos hafter, if_pos hafter]
      exact .inl ⟨rfl, rfl⟩
    rw [if_neg hafter, if_neg hafter]
    by_cases hstale : stale + d.eccFailures k = 0
    swap
    · rw [if_pos (by omega), if_pos hstale]
      exact hcarry (hnext (before + (stale + d.eccFailures k)) 0)
    rw [hstale, Nat.add_zero]
    simp only [ne_eq, not_true_eq_false, if_false]
    by_cases hbad : memgetbadblock d k = 0
    swap
    · rw [if_pos hbad, if_pos hbad]
      exact hcarry (hnext before 0)
    rw [if_neg (by simp [hbad]), if_neg (by simp [hbad])]
    exact .inr ⟨k, before, le_rfl, by omega, rfl, by rw [show k + (n + 1) - (k + 1) = n by omega]⟩

/-- These blocks are read one after the other, and then -1 is returned. -/
theorem delivers_delivered (n : Nat) : ∀ (k failed : Nat), k + n = blocks p →
    Stream.Delivers (reader d) ⟨k * p.erase_size, failed⟩
      ((delivered d true 0 n k).map d.content) := by
  induction n using Nat.strong_induction_on with
  | _ n ih =>
    intro k failed hk
    have hblock : k * p.erase_size / p.erase_size = k := Nat.mul_div_cancel k p.erase_pos
    by_cases hbefore : d.beforeFails k = true
    · have hnil : delivered d true 0 n k = [] := by
        cases n with
        | zero => rfl
        | succ n => exact if_pos ⟨rfl, hbefore⟩
      rw [hnil]
      refine .stop ?_
      change read_block d _ = _
      rw [read_block, hblock, if_pos hbefore]
    have hstart : delivered d true 0 n k = delivered d false 0 n k := by
      cases n with
      | zero => rfl
      | succ n => rw [delivered_succ (by simp [hbefore]), delivered_succ (by simp)]
    have hread : read_block d ⟨k * p.erase_size, failed⟩ =
        readLoop d (p.size / p.erase_size + 1) (k * p.erase_size) failed (failed + 0) := by
      rw [read_block, hblock, if_neg hbefore]
      rfl
    have hle := blocks_le p
    rw [hstart]
    rcases readLoop_spec (d := d) n k failed 0 (p.size / p.erase_size + 1) hk (by omega) with
      ⟨hloop, hnil⟩ | ⟨b, failed', hkb, hlt, hloop, hcons⟩
    · rw [hnil]
      exact .stop (hread.trans hloop)
    · rw [hcons]
      exact .block (hread.trans hloop) (ih _ (by omega) _ _ (by omega))

/-! ## All good blocks -/

/-- `AllRead` for `n` blocks from block `k` on. -/
def AllReadFrom (d : Device p) (start : Bool) (stale n k : Nat) : Prop :=
  ∀ g, k ≤ g → g < k + n → good d g = true →
    d.memgetbadblockFails g = false ∧
    ((∀ i, k ≤ i → i < g → d.readError i = true) → stale = 0) ∧
    (∀ j, k ≤ j → j < g → (∀ i, j ≤ i → i < g → d.readError i = true) → d.eccFailures j = 0) ∧
    ∀ j, k ≤ j → j ≤ g → (d.afterFails j = true → d.readError j = true) ∧
      (d.beforeFails j = true → (j = k → start = false) ∧ (k < j → good d (j - 1) = false))

theorem good_iff {b : Nat} : good d b = true ↔
    d.bad b = false ∧ d.readError b = false ∧ d.eccFailures b = 0 := by
  simp [good, and_assoc]

theorem goodBlocks_succ (n k : Nat) : goodBlocks d k (n + 1) =
    if good d k then k :: goodBlocks d (k + 1) n else goodBlocks d (k + 1) n := by
  rw [goodBlocks, List.range'_succ, List.filter_cons]
  rfl

theorem mem_goodBlocks {n k g : Nat} :
    g ∈ goodBlocks d k n ↔ k ≤ g ∧ g < k + n ∧ good d g = true := by
  rw [goodBlocks, List.mem_filter, List.mem_range'_1, and_assoc]

/-- `ECCGETSTATS` fails for block `k`, so that no good block may follow. -/
theorem allReadFrom_stop {start : Bool} {k : Nat}
    (h : (start = true ∧ d.beforeFails k = true) ∨ (d.readError k = false ∧ d.afterFails k = true))
    (stale n : Nat) : [] = goodBlocks d k n ↔ AllReadFrom d start stale n k := by
  rw [eq_comm, List.eq_nil_iff_forall_not_mem]
  simp only [mem_goodBlocks]
  refine ⟨fun hno g hg hlt hgood => absurd ⟨hg, hlt, hgood⟩ (hno g), fun hall g hgood => ?_⟩
  obtain ⟨hg, hlt, hgood⟩ := hgood
  obtain ⟨-, -, -, hcalls⟩ := hall g hg hlt hgood
  obtain ⟨hafter, hbefore⟩ := hcalls k le_rfl hg
  rcases h with ⟨hstart, hfails⟩ | ⟨herror, hfails⟩
  · rw [(hbefore hfails).1 rfl] at hstart
    cases hstart
  · rw [hafter hfails] at herror
    cases herror

/-- Block `k` is not good and is left out. -/
theorem allReadFrom_skip {start : Bool} {k stale stale' : Nat} (hgood : good d k = false)
    (hbefore : d.beforeFails k = true → start = false)
    (hafter : d.afterFails k = true → d.readError k = true)
    (hstale : stale' = if d.readError k then stale + d.eccFailures k else 0) (n : Nat) :
    AllReadFrom d start stale (n + 1) k ↔ AllReadFrom d false stale' n (k + 1) := by
  constructor
  · intro hall g hg hlt hyes
    obtain ⟨hmgbb, hzero, hecc, hcalls⟩ := hall g (by omega) (by omega) hyes
    refine ⟨hmgbb, fun herrors => ?_, fun j hj => hecc j (by omega), fun j hj hjg => ?_⟩
    · split at hstale
      · rename_i herror
        have hrun : ∀ i, k ≤ i → i < g → d.readError i = true := by
          intro i hi hig
          rcases Nat.eq_or_lt_of_le hi with rfl | hi
          · exact herror
          · exact herrors i hi hig
        rw [hstale, hzero hrun, hecc k le_rfl (by omega) hrun]
      · exact hstale
    · obtain ⟨hj₁, hj₂⟩ := hcalls j (by omega) hjg
      exact ⟨hj₁, fun hfails => ⟨fun _ => rfl, fun _ => (hj₂ hfails).2 (by omega)⟩⟩
  · intro hall g hg hlt hyes
    have hne : g ≠ k := by
      rintro rfl
      rw [hgood] at hyes
      cases hyes
    obtain ⟨hmgbb, hzero, hecc, hcalls⟩ := hall g (by omega) (by omega) hyes
    have hboth : (∀ i, k ≤ i → i < g → d.readError i = true) →
        stale = 0 ∧ d.eccFailures k = 0 := by
      intro hrun
      rw [if_pos (hrun k le_rfl (by omega))] at hstale
      have := hzero fun i hi hig => hrun i (by omega) hig
      omega
    refine ⟨hmgbb, fun hrun => (hboth hrun).1, fun j hj hjg hrun => ?_, fun j hj hjg => ?_⟩
    · rcases Nat.eq_or_lt_of_le hj with rfl | hj
      · exact (hboth hrun).2
      · exact hecc j hj hjg hrun
    · rcases Nat.eq_or_lt_of_le hj with rfl | hj
      · exact ⟨hafter, fun hfails => ⟨fun _ => hbefore hfails, fun hlt => by omega⟩⟩
      · obtain ⟨hj₁, hj₂⟩ := hcalls j hj hjg
        refine ⟨hj₁, fun hfails => ⟨fun heq => by omega, fun _ => ?_⟩⟩
        rcases Nat.eq_or_lt_of_le hj with rfl | hj
        · exact hgood
        · exact (hj₂ hfails).2 hj

/-- Block `k` is good and is read. -/
theorem allReadFrom_read {start : Bool} {k : Nat} (hgood : good d k = true)
    (hbefore : d.beforeFails k = true → start = false) (hafter : d.afterFails k = false)
    (hmgbb : d.memgetbadblockFails k = false) (n : Nat) :
    AllReadFrom d start 0 (n + 1) k ↔ AllReadFrom d true 0 n (k + 1) := by
  constructor
  · intro hall g hg hlt hyes
    obtain ⟨hmgbb, -, hecc, hcalls⟩ := hall g (by omega) (by omega) hyes
    refine ⟨hmgbb, fun _ => rfl, fun j hj => hecc j (by omega), fun j hj hjg => ?_⟩
    obtain ⟨hj₁, hj₂⟩ := hcalls j (by omega) hjg
    refine ⟨hj₁, fun hfails => ⟨fun heq => ?_, fun _ => (hj₂ hfails).2 (by omega)⟩⟩
    have hno := (hj₂ hfails).2 (by omega)
    rw [heq, Nat.add_sub_cancel, hgood] at hno
    cases hno
  · intro hall g hg hlt hyes
    rcases Nat.eq_or_lt_of_le hg with rfl | hg
    · refine ⟨hmgbb, fun _ => rfl, fun j hj hjg => by omega, fun j hj hjg => ?_⟩
      obtain rfl : j = k := by omega
      refine ⟨fun hfails => ?_, fun hfails => ⟨fun _ => hbefore hfails, fun hlt => by omega⟩⟩
      rw [hafter] at hfails
      cases hfails
    · obtain ⟨hmgbb', -, hecc, hcalls⟩ := hall g hg (by omega) hyes
      refine ⟨hmgbb', fun _ => rfl, fun j hj hjg hrun => ?_, fun j hj hjg => ?_⟩
      · rcases Nat.eq_or_lt_of_le hj with rfl | hj
        · exact (good_iff.mp hgood).2.2
        · exact hecc j hj hjg hrun
      · rcases Nat.eq_or_lt_of_le hj with rfl | hj
        · refine ⟨fun hfails => ?_, fun hfails => ⟨fun _ => hbefore hfails, fun hlt => by omega⟩⟩
          rw [hafter] at hfails
          cases hfails
        · obtain ⟨hj₁, hj₂⟩ := hcalls j hj hjg
          refine ⟨hj₁, fun hfails => ⟨fun heq => by omega, fun _ => ?_⟩⟩
          rcases Nat.eq_or_lt_of_le hj with rfl | hj
          · cases (hj₂ hfails).1 rfl
          · exact (hj₂ hfails).2 hj

/-- A good block that is left out is missed. -/
theorem missed {k n : Nat} {l : List Nat} (hgood : good d k = true)
    (hsub : l.Sublist (goodBlocks d (k + 1) n)) : l ≠ goodBlocks d k (n + 1) := by
  intro heq
  have hlen := hsub.length_le
  rw [heq, goodBlocks_succ, if_pos hgood, List.length_cons] at hlen
  omega

/-- Only good blocks are read, in order, and all of them exactly when `AllReadFrom` holds. -/
theorem delivered_spec (n : Nat) : ∀ (start : Bool) (stale k : Nat),
    (delivered d start stale n k).Sublist (goodBlocks d k n) ∧
      (delivered d start stale n k = goodBlocks d k n ↔ AllReadFrom d start stale n k) := by
  induction n with
  | zero =>
    intro start stale k
    exact ⟨List.Sublist.refl _, iff_of_true rfl fun g hg hlt => by omega⟩
  | succ n ih =>
    intro start stale k
    by_cases hbefore : start = true ∧ d.beforeFails k = true
    · rw [delivered, if_pos hbefore]
      exact ⟨List.nil_sublist _, allReadFrom_stop (.inl hbefore) _ _⟩
    rw [delivered_succ hbefore]
    have hstart : d.beforeFails k = true → start = false := by
      intro hfails
      cases start with
      | false => rfl
      | true => exact absurd ⟨rfl, hfails⟩ hbefore
    by_cases herror : d.readError k = true
    · have hno : good d k = false := by simp [good, herror]
      rw [if_pos herror, goodBlocks_succ, if_neg (by simp [hno]),
        allReadFrom_skip hno hstart (fun _ => herror) (if_pos herror).symm]
      exact ih _ _ _
    rw [if_neg herror]
    by_cases hafter : d.afterFails k = true
    · rw [if_pos hafter]
      exact ⟨List.nil_sublist _, allReadFrom_stop (.inr ⟨by simpa using herror, hafter⟩) _ _⟩
    rw [if_neg hafter]
    obtain ⟨hsub, hiff⟩ := ih false 0 (k + 1)
    have hskip : good d k = false →
        (delivered d false 0 n (k + 1)).Sublist (goodBlocks d k (n + 1)) ∧
          (delivered d false 0 n (k + 1) = goodBlocks d k (n + 1) ↔
            AllReadFrom d start stale (n + 1) k) := by
      intro hno
      rw [goodBlocks_succ, if_neg (by simp [hno]),
        allReadFrom_skip hno hstart (fun h => absurd h hafter) (if_neg herror).symm]
      exact ⟨hsub, hiff⟩
    have hmiss : good d k = true → ¬ AllReadFrom d start stale (n + 1) k →
        (delivered d false 0 n (k + 1)).Sublist (goodBlocks d k (n + 1)) ∧
          (delivered d false 0 n (k + 1) = goodBlocks d k (n + 1) ↔
            AllReadFrom d start stale (n + 1) k) := by
      intro hyes hno
      refine ⟨?_, iff_of_false (missed hyes hsub) hno⟩
      rw [goodBlocks_succ, if_pos hyes]
      exact hsub.cons k
    by_cases hstale : stale + d.eccFailures k = 0
    swap
    · rw [if_pos hstale]
      cases hgood : good d k with
      | false => exact hskip hgood
      | true =>
        refine hmiss hgood fun hall => hstale ?_
        rw [(hall k le_rfl (by omega) hgood).2.1 fun i hi hlt => by omega,
          (good_iff.mp hgood).2.2]
    rw [if_neg (by simp [hstale])]
    by_cases hbad : memgetbadblock d k = 0
    swap
    · rw [if_pos hbad]
      cases hgood : good d k with
      | false => exact hskip hgood
      | true =>
        refine hmiss hgood fun hall => hbad ?_
        rw [memgetbadblock, (hall k le_rfl (by omega) hgood).1, (good_iff.mp hgood).1]
        rfl
    · obtain ⟨rfl, hecc⟩ : stale = 0 ∧ d.eccFailures k = 0 := by omega
      have hanswers : d.memgetbadblockFails k = false ∧ d.bad k = false := by
        unfold memgetbadblock at hbad
        split at hbad
        · cases hbad
        · split at hbad
          · cases hbad
          · simp_all
      have hgood : good d k = true := good_iff.mpr ⟨hanswers.2, by simpa using herror, hecc⟩
      obtain ⟨hsub', hiff'⟩ := ih true 0 (k + 1)
      rw [if_neg (by simp [hbad]), goodBlocks_succ, if_pos hgood, List.cons_inj_right,
        allReadFrom_read hgood hstart (by simpa using hafter) hanswers.1]
      exact ⟨hsub'.cons_cons k, hiff'⟩

theorem allReadFrom_zero : AllReadFrom d true 0 (blocks p) 0 ↔ AllRead d := by
  constructor
  · intro hall g hlt hgood
    obtain ⟨hmgbb, -, hecc, hcalls⟩ := hall g (Nat.zero_le _) (by omega) hgood
    refine ⟨hmgbb, fun j hjg => hecc j (Nat.zero_le _) hjg, fun j hjg => ?_⟩
    obtain ⟨hafter, hbefore⟩ := hcalls j (Nat.zero_le _) hjg
    refine ⟨hafter, fun hfails => ?_⟩
    obtain ⟨hfirst, hlater⟩ := hbefore hfails
    have hpos : 0 < j := Nat.pos_of_ne_zero fun hzero => by cases hfirst hzero
    exact ⟨hpos, hlater hpos⟩
  · intro hall g _ hlt hgood
    obtain ⟨hmgbb, hecc, hcalls⟩ := hall g (by omega) hgood
    refine ⟨hmgbb, fun _ => rfl, fun j _ hjg => hecc j hjg, fun j _ hjg => ?_⟩
    obtain ⟨hafter, hbefore⟩ := hcalls j hjg
    refine ⟨hafter, fun hfails => ⟨fun hzero => ?_, fun _ => (hbefore hfails).2⟩⟩
    have := (hbefore hfails).1
    omega

/-! ## The output -/

/-- The contents of blocks, one after the other. -/
def contents (d : Device p) (bs : List Nat) : Bytes := (bs.map d.content).flatten

theorem contents_length (bs : List Nat) : (contents d bs).length = bs.length * p.erase_size := by
  induction bs with
  | nil => rw [contents, List.map_nil, List.flatten_nil, List.length_nil, List.length_nil, Nat.zero_mul]
  | cons b bs ih =>
    rw [contents] at ih ⊢
    rw [List.map_cons, List.flatten_cons, List.length_append, ih, d.content_length,
      List.length_cons, Nat.succ_mul, Nat.add_comm]

/-- The loop writes the stream in pieces, and loses what is less than a piece at its end. -/
theorem backupLoop_spec (o : Output p) (fuel : Nat) :
    ∀ (i : Nat) {ctx : Stream.ReadContext ReadFd} {stream : Bytes} (out : Bytes),
      ctx.Holds (reader d) stream → stream.length < fuel →
      backupLoop d o fuel i ctx out =
        .done (some (out ++ stream.take (stream.length / 2048 * 2048))) ∨
      (backupLoop d o fuel i ctx out = .done none ∧ ∃ j, o.writes j = false) := by
  induction fuel with
  | zero => exact fun i ctx stream out _ hfuel => absurd hfuel (Nat.not_lt_zero _)
  | succ fuel ih =>
    intro i ctx stream out h hfuel
    unfold backupLoop
    rcases Stream.mtd_read_data_holds p.erase_pos (show BLOCK_SIZE < 2 ^ 31 by decide) h with
      ⟨hle, ctx', hread, hrest⟩ | ⟨hlt, hread⟩
    · have hle : 2048 ≤ stream.length := hle
      have hpiece : (stream.take BLOCK_SIZE).length = 2048 := by
        rw [List.length_take]
        exact Nat.min_eq_left hle
      have hdrop : (stream.drop BLOCK_SIZE).length = stream.length - 2048 := List.length_drop
      rw [hread, Outcome.done_bind]
      simp only
      rw [if_pos (by omega)]
      by_cases hwrite : o.writes i = true
      · rw [if_pos hwrite]
        rcases ih (i + 1) (out ++ stream.take BLOCK_SIZE) hrest (by omega) with hloop | hloop
        · refine .inl (hloop.trans ?_)
          have hcount : stream.length / 2048 * 2048 = 2048 + (stream.length - 2048) / 2048 * 2048 := by
            omega
          rw [hdrop, hcount, List.take_add, List.append_assoc]
          rfl
        · exact .inr hloop
      · rw [if_neg hwrite]
        exact .inr ⟨rfl, i, by simpa using hwrite⟩
    · have hlt : stream.length < 2048 := hlt
      rw [hread, Outcome.done_bind, Nat.div_eq_of_lt hlt, Nat.zero_mul, List.take_zero,
        List.append_nil]
      exact .inl rfl

/-- The pieces are the contents of the good blocks exactly when all these are read and make
whole pieces. -/
theorem pieces_eq_iff {read all : List Nat} (hsub : read.Sublist all) :
    (contents d read).take ((contents d read).length / 2048 * 2048) = contents d all ↔
      read = all ∧ 2048 ∣ all.length * p.erase_size := by
  have hle := Nat.div_mul_le_self (contents d read).length 2048
  constructor
  · intro heq
    have hlen := congrArg List.length heq
    rw [List.length_take, Nat.min_eq_left hle, contents_length, contents_length] at hlen
    rw [contents_length] at hle
    have hcount : read.length = all.length := by
      have hmul : all.length * p.erase_size ≤ read.length * p.erase_size := by omega
      exact le_antisymm hsub.length_le (Nat.le_of_mul_le_mul_right hmul p.erase_pos)
    exact ⟨hsub.eq_of_length hcount, ⟨_, by rw [← hlen, Nat.mul_comm]⟩⟩
  · rintro ⟨rfl, hdvd⟩
    rw [← contents_length (d := d)] at hdvd
    rw [Nat.div_mul_cancel hdvd, List.take_length]

/-- An output where nothing fails. -/
def Output.faultless (p : MtdPartition) : Output p where
  mtd_scan_partitions := true
  mtd_find_partition_by_name := true
  mtd_partition_info := true
  opens := true
  mtd_read_partition := true
  writes _ := true
  close := true
  buffer := ⟨List.replicate p.erase_size 0, List.length_replicate⟩

/-- What can be read from the start are the delivered blocks. -/
theorem start_holds (d : Device p) (o : Output p) (failed : Nat) :
    (Stream.mtd_read_partition p.erase_size o.buffer ⟨0, failed⟩).Holds (reader d)
      (contents d (delivered d true 0 (blocks p) 0)) := by
  have hdelivers := delivers_delivered (d := d) (blocks p) 0 failed (Nat.zero_add _)
  have hvalid : (Stream.mtd_read_partition p.erase_size o.buffer (ReadFd.mk 0 failed)).Valid
      p.erase_size := ⟨o.buffer.2, le_rfl⟩
  have hpending := hvalid.pending_nil rfl
  rw [Nat.zero_mul] at hdelivers
  refine ⟨hvalid, _, hdelivers, ?_⟩
  rw [hpending, List.nil_append, contents]

/-- What is returned: -1, or 0 with the pieces. -/
theorem backup_raw_partition_cases (d : Device p) (o : Output p) (failed : Nat) :
    (cmd_mtd_backup_raw_partition d o failed = .done (-1, none) ∧
      ((∃ j, o.writes j = false) ∨ ¬ (o.mtd_scan_partitions = true ∧
        o.mtd_find_partition_by_name = true ∧ o.mtd_partition_info = true ∧ o.opens = true ∧
        o.mtd_read_partition = true ∧ o.close = true))) ∨
    cmd_mtd_backup_raw_partition d o failed =
      .done (0, some ((contents d (delivered d true 0 (blocks p) 0)).take
        ((contents d (delivered d true 0 (blocks p) 0)).length / 2048 * 2048))) := by
  have hholds := start_holds d o failed
  have hshort : (contents d (delivered d true 0 (blocks p) 0)).length < p.size + 1 := by
    have hsub := (delivered_spec (d := d) (blocks p) true 0 0).1.length_le
    have hgood : (goodBlocks d 0 (blocks p)).length ≤ blocks p := by
      have hfilter := List.length_filter_le (good d) (List.range' 0 (blocks p))
      rwa [List.length_range'] at hfilter
    have hle := blocks_le p
    have hmul : (delivered d true 0 (blocks p) 0).length * p.erase_size ≤
        p.size / p.erase_size * p.erase_size := Nat.mul_le_mul_right _ (by omega)
    have hdiv := Nat.div_mul_le_self p.size p.erase_size
    rw [contents_length]
    omega
  unfold cmd_mtd_backup_raw_partition
  by_cases hready : o.mtd_scan_partitions = true ∧ o.mtd_find_partition_by_name = true ∧
      o.mtd_partition_info = true ∧ o.opens = true ∧ o.mtd_read_partition = true
  · obtain ⟨h₁, h₂, h₃, h₄, h₅⟩ := hready
    simp only [h₁, h₂, h₃, h₄, h₅, Bool.not_true, Bool.false_eq_true, if_false]
    rcases backupLoop_spec (d := d) o (p.size + 1) 0 [] hholds hshort with hloop | ⟨hloop, hfails⟩
    · rw [hloop, Outcome.done_bind, List.nil_append]
      cases hclose : o.close with
      | true =>
        simp only [Bool.not_true, Bool.false_eq_true, if_false]
        exact .inr trivial
      | false =>
        simp only [Bool.not_false, if_true]
        exact .inl ⟨trivial, .inr (by simp)⟩
    · rw [hloop]
      exact .inl ⟨rfl, .inl hfails⟩
  · refine .inl ⟨?_, .inr fun h => hready ⟨h.1, h.2.1, h.2.2.1, h.2.2.2.1, h.2.2.2.2.1⟩⟩
    split
    · rfl
    split
    · rfl
    split
    · rfl
    split
    · rfl
    split
    · rfl
    · simp_all

/-- The result 0 means that the output is the contents of the good blocks exactly on the
devices where all of them are read and are together a multiple of 2048 bytes. -/
theorem backup_raw_partition_iff (d : Device p) (failed : Nat) :
    (∀ o : Output p, ∃ r, cmd_mtd_backup_raw_partition d o failed = .done r ∧
      (r.1 = 0 → r.2 = some (contents d (goodBlocks d 0 (blocks p))))) ↔
      AllRead d ∧ 2048 ∣ (goodBlocks d 0 (blocks p)).length * p.erase_size := by
  obtain ⟨hsub, hall⟩ := delivered_spec (d := d) (blocks p) true 0 0
  rw [← allReadFrom_zero, ← hall, ← pieces_eq_iff hsub]
  constructor
  · intro h
    obtain ⟨r, hrun, hzero⟩ := h (.faultless p)
    rcases backup_raw_partition_cases d (.faultless p) failed with ⟨-, hfails⟩ | hdone
    · rcases hfails with ⟨j, hj⟩ | hno
      · cases hj
      · exact absurd ⟨rfl, rfl, rfl, rfl, rfl, rfl⟩ hno
    · rw [hdone] at hrun
      cases hrun
      exact Option.some.inj (hzero rfl)
  · intro h o
    rcases backup_raw_partition_cases d o failed with ⟨hrun, -⟩ | hrun
    · exact ⟨_, hrun, nofun⟩
    · exact ⟨_, hrun, fun _ => congrArg some h⟩

/-- A partition of two blocks. -/
def twoPieces : MtdPartition := ⟨4096, 2048, by decide, by decide⟩

/-- The `read` of the first block fails with an ECC failure; the second block is good. -/
def unreadableFirst : Device twoPieces where
  content _ := List.replicate 2048 7
  content_length _ := List.length_replicate
  bad _ := false
  readError b := b == 0
  eccFailures b := if b = 0 then 1 else 0
  memgetbadblockFails _ := false
  beforeFails _ := false
  afterFails _ := false

/-- The second block is left out, and the result is 0. -/
theorem backup_raw_partition_short :
    cmd_mtd_backup_raw_partition unreadableFirst (.faultless twoPieces) 0 = .done (0, some []) ∧
      goodBlocks unreadableFirst 0 (blocks twoPieces) = [1] ∧
      contents unreadableFirst [1] ≠ [] := by
  refine ⟨by decide +kernel, by decide +kernel, ?_⟩
  intro hnil
  have hlen := contents_length (d := unreadableFirst) [1]
  rw [hnil] at hlen
  cases hlen

end BootableRecovery.Mtdutils.Backup
