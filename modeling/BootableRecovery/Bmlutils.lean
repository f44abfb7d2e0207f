import BootableRecovery.Lib.Blocks

/-!
# `bmlutils/bmlutils.c`: restoring a partition

`restore_internal` copies a file, or the standard input, to a device in blocks of 4096
bytes and fills the last one with zeros. The environment says how much each `read` and
each `write` transfers, or that it fails; a device ends at its size. The count
`total_read`, which nothing reads, is left out.

Main results:
* `restore_internal_iff`: the restore leaves the whole content on the device, and
  touches nothing outside its buffer, exactly when no `read` fails and a short one
  leaves nothing but zeros of its block.
* `restore_internal_short`: a pipe that delivers 4 bytes and then more is cut, and 0 is
  returned.
-/

namespace BootableRecovery.Bmlutils

/-! ## The code -/

/-- What the system calls do. The `i`-th `read` transfers at most `reads i + 1` bytes and
the `i`-th `write` at most `writes i`; `none` is a failure. -/
structure System where
  stdin : Bytes
  files : Bytes → Option Bytes
  opensDevice : Bool
  unlocks : Bool
  reads : Nat → Option (Fin 4096)
  writes : Nat → Option Nat

/-- An open device: its content and the offset of the next `write`. -/
structure Device where
  content : Bytes
  offset : Nat
  deriving DecidableEq, Repr

/-- `memset(&buf[start], 0, n)`. -/
def memsetZero (buf : Bytes) (start : Int) (n : Nat) : Outcome Bytes :=
  if 0 ≤ start ∧ start + n ≤ buf.length then
    .done (overwrite buf start.toNat (List.replicate n 0))
  else .fault

/-- What the file `filename` holds, or the standard input without a name. -/
def System.source (s : System) : Option Bytes → Option Bytes
  | none => some s.stdin
  | some filename => s.files filename

/-- `read(srcfd, buf, 4096)`, the `i`-th one, at offset `pos` of the source: the result and
the buffer. -/
def System.read (s : System) (source : Bytes) (i pos : Nat) (buf : Bytes) : Int × Bytes :=
  match s.reads i with
  | none => (-1, buf)
  | some k =>
    let data := slice source pos (k.val + 1)
    (data.length, overwrite buf 0 data)

/-- `write(dstfd, buf, 4096)`, the `i`-th one. -/
def System.write (s : System) (i : Nat) (buf : Bytes) (dst : Device) : Int × Device :=
  match s.writes i with
  | none => (-1, dst)
  | some k =>
    let n := min (min k 4096) (dst.content.length - dst.offset)
    (n, ⟨overwrite dst.content dst.offset (buf.take n), dst.offset + n⟩)

/-- What is behind a short `read` in the buffer is cleared. -/
def clearRest (buf : Bytes) (bytes_read : Int) : Outcome Bytes :=
  if bytes_read < 4096 then memsetZero buf bytes_read (4096 - bytes_read).toNat else .done buf

/-- The loop of `restore_internal`, from the `i`-th iteration on. -/
def restoreLoop (s : System) (source : Bytes) :
    Nat → Nat → Nat → Bytes → Device → Outcome (Int × Device)
  | 0, _, _, _, _ => .spin
  | fuel + 1, i, pos, buf, dst => do
    let (bytes_read, buf) := s.read source i pos buf
    if bytes_read = 0 then .done (0, dst)
    else
      let buf ← clearRest buf bytes_read
      let (bytes_written, dst) := s.write i buf dst
      if bytes_written < 4096 then .done (5, dst)
      else if bytes_read = 4096 then
        restoreLoop s source fuel (i + 1) (pos + bytes_read.toNat) buf dst
      else .done (0, dst)

/-- The buffer on the stack, with what it happens to hold. -/
abbrev Buf := { buf : Bytes // buf.length = 4096 }

/-- `restore_internal` on a device that holds `content`. -/
def restore_internal (s : System) (buf : Buf) (filename : Option Bytes) (content : Bytes) :
    Outcome (Int × Device) :=
  match s.source filename with
  | none => .done (2, ⟨content, 0⟩)
  | some source =>
    if !s.opensDevice then .done (3, ⟨content, 0⟩)
    else if !s.unlocks then .done (4, ⟨content, 0⟩)
    else restoreLoop s source (source.length / 4096 + 1) 0 0 buf.1 ⟨content, 0⟩

/-! ## What is expected -/

/-- The zeros that fill the last block. -/
def padding (source : Bytes) : Bytes :=
  List.replicate ((4096 - source.length % 4096) % 4096) 0

/-- If 0 was returned, what was written to the device is the source and its padding, and
the rest of the device is as it was. -/
def Restores (source content : Bytes) (r : Int × Device) : Prop :=
  r.1 = 0 → r.2.content.take r.2.offset = source ++ padding source ∧
    r.2.content.drop r.2.offset = content.drop r.2.offset

section

variable (s : System) (source : Bytes) (size : Nat)

/-- The bytes that the `i`-th `read` delivers when all before it were full. -/
def readCount (i : Nat) : Option Nat :=
  (s.reads i).map fun k : Fin 4096 => min (k.val + 1) (source.length - 4096 * i)

/-- The `i`-th `write` stores a whole block on a device of `size` bytes. -/
def WritesBlock (i : Nat) : Prop := (∃ k, s.writes i = some k ∧ 4096 ≤ k) ∧ 4096 * (i + 1) ≤ size

/-- A whole block is read and written. -/
def Copies (i : Nat) : Prop := readCount s source i = some 4096 ∧ WritesBlock s size i

/-- The `i`-th `read` does not fail, and when it is short and its block is written, what
it leaves of the source are zeros of that block. -/
def Reads (i : Nat) : Prop :=
  ∃ n, readCount s source i = some n ∧ (0 < n → n < 4096 → WritesBlock s size i →
    source.length ≤ 4096 * (i + 1) ∧ ∀ b ∈ source.drop (4096 * i + n), b = 0)

/-- This holds of every `read` from the `i`-th on that is made. -/
def ReadsFrom (i : Nat) : Prop :=
  ∀ k, i ≤ k → (∀ j, i ≤ j → j < k → Copies s source size j) → Reads s source size k

variable {s source size}

theorem readsFrom_iff {i : Nat} : ReadsFrom s source size i ↔
    Reads s source size i ∧ (Copies s source size i → ReadsFrom s source size (i + 1)) := by
  constructor
  · intro h
    refine ⟨h i le_rfl fun j hle hlt => by omega, fun hcopy k hk hbefore => ?_⟩
    refine h k (by omega) fun j hle hlt => ?_
    rcases Nat.eq_or_lt_of_le hle with rfl | hgt
    · exact hcopy
    · exact hbefore j hgt hlt
  · rintro ⟨hfirst, hrest⟩ k hk hbefore
    rcases Nat.eq_or_lt_of_le hk with rfl | hgt
    · exact hfirst
    · exact hrest (hbefore i le_rfl hgt) k hgt fun j hle hlt => hbefore j (by omega) hlt

/-! ## One iteration -/

/-- The block that is written when `data` was read. -/
def block (data : Bytes) : Bytes := data ++ List.replicate (4096 - data.length) 0

theorem block_length {data : Bytes} (h : data.length ≤ 4096) : (block data).length = 4096 := by
  rw [block, List.length_append, List.length_replicate]
  omega

/-- Reading and filling up leaves a block in the buffer. -/
theorem clearRest_eq_block {buf : Bytes} (data : Bytes) (hbuf : buf.length = 4096)
    (hdata : data.length ≤ 4096) :
    clearRest (overwrite buf 0 data) data.length = .done (block data) := by
  have hover : overwrite buf 0 data = data ++ buf.drop data.length := by
    rw [overwrite, List.take_zero, List.nil_append, Nat.zero_add]
  have hlen : (overwrite buf 0 data).length = 4096 := by
    rw [overwrite_length (by omega), hbuf]
  unfold clearRest
  split
  · rw [memsetZero, if_pos (by omega), overwrite, hover, block]
    rw [List.length_replicate, Int.toNat_natCast, List.take_left]
    rw [List.drop_of_length_le (by rw [← hover, hlen]; omega), List.append_nil]
    congr 3
    omega
  · rw [hover, block, List.drop_of_length_le (by omega), show 4096 - data.length = 0 by omega,
      List.replicate_zero]

/-- A device after the `write` of a whole block. -/
def Device.append (dst : Device) (data : Bytes) : Device :=
  ⟨overwrite dst.content dst.offset (block data), dst.offset + 4096⟩

/-- A `write` that stores a whole block. -/
theorem write_whole {i : Nat} {dst : Device} (data : Bytes) (hdata : data.length ≤ 4096)
    (hoff : dst.offset = 4096 * i) (h : WritesBlock s dst.content.length i) :
    s.write i (block data) dst = (4096, dst.append data) := by
  obtain ⟨⟨k, hk, hle⟩, hfits⟩ := h
  have hn : min (min k 4096) (dst.content.length - dst.offset) = 4096 := by omega
  simp only [System.write, hk, hn, List.take_of_length_le (block_length hdata).le,
    Nat.cast_ofNat, Device.append]

/-- Any other `write` transfers less. -/
theorem write_short {i : Nat} {dst : Device} (buf : Bytes) (hoff : dst.offset = 4096 * i)
    (h : ¬ WritesBlock s dst.content.length i) : (s.write i buf dst).1 < 4096 := by
  unfold System.write
  split
  · simp
  · rename_i k hk
    have hsmall : ¬ (4096 ≤ k ∧ 4096 * (i + 1) ≤ dst.content.length) := fun hboth =>
      h ⟨⟨k, hk, hboth.1⟩, hboth.2⟩
    simp only
    omega

section

variable {i : Nat} {buf : Bytes} (fuel : Nat) (dst : Device)

theorem restoreLoop_fails (h : s.reads i = none) :
    restoreLoop s source (fuel + 1) i (4096 * i) buf dst = .fault := by
  simp [restoreLoop, System.read, h, clearRest, memsetZero]

/-- An iteration in which `n` bytes are read. -/
theorem restoreLoop_reads {n : Nat} (hbuf : buf.length = 4096)
    (hn : readCount s source i = some n) :
    restoreLoop s source (fuel + 1) i (4096 * i) buf dst =
      if n = 0 then .done (0, dst)
      else
        let (bytes_written, dst) := s.write i (block (slice source (4096 * i) n)) dst
        if bytes_written < 4096 then .done (5, dst)
        else if n = 4096 then
          restoreLoop s source fuel (i + 1) (4096 * (i + 1)) (block (slice source (4096 * i) n)) dst
        else .done (0, dst) := by
  obtain ⟨k, hk, hcount⟩ := Option.map_eq_some_iff.mp hn
  have hlt := k.2
  have hslice : slice source (4096 * i) (k.val + 1) = slice source (4096 * i) n := by
    rw [← hcount]
    exact List.take_eq_take_iff.mpr (by rw [List.length_drop]; omega)
  have hdata : (slice source (4096 * i) n).length = n := by
    rw [slice, List.length_take, List.length_drop]
    omega
  have hclear := clearRest_eq_block (slice source (4096 * i) n) hbuf (by omega)
  rw [hdata] at hclear
  by_cases hzero : n = 0
  · simp [restoreLoop, System.read, hk, hslice, hzero]
  · have hpos : ¬ ((n : Int) = 0) := by omega
    simp only [restoreLoop, System.read, hk, hslice, hdata, if_neg hpos, if_neg hzero, hclear,
      Outcome.done_bind, Int.toNat_natCast]
    by_cases hfull : n = 4096
    · subst hfull
      simp only [Nat.cast_ofNat, if_true, Nat.mul_succ]
    · have hne : ¬ ((n : Int) = 4096) := by omega
      simp only [if_neg hfull, if_neg hne]

end

/-- What is on the device when the first `i` blocks were copied. -/
structure Copied (source content : Bytes) (i : Nat) (dst : Device) : Prop where
  offset : dst.offset = 4096 * i
  length : dst.content.length = content.length
  inside : 4096 * i ≤ source.length
  written : dst.content.take (4096 * i) = source.take (4096 * i)
  rest : dst.content.drop (4096 * i) = content.drop (4096 * i)

/-- The device after one more block. -/
theorem Copied.append {content : Bytes} {i : Nat} {dst : Device}
    (h : Copied source content i dst) (data : Bytes) (hdata : data.length ≤ 4096)
    (hfits : 4096 * (i + 1) ≤ content.length) :
    (dst.append data).offset = 4096 * (i + 1) ∧
      (dst.append data).content.length = content.length ∧
      (dst.append data).content.take (4096 * (i + 1)) = source.take (4096 * i) ++ block data ∧
      (dst.append data).content.drop (4096 * (i + 1)) = content.drop (4096 * (i + 1)) := by
  have hblock := block_length hdata
  have hlen := h.length
  have htake : (dst.content.take dst.offset).length = 4096 * i := by
    rw [List.length_take, h.offset]
    omega
  have hboth : (dst.content.take dst.offset ++ block data).length = 4096 * (i + 1) := by
    rw [List.length_append, htake, hblock]
    omega
  have hsame : dst.content.drop (4096 * (i + 1)) = content.drop (4096 * (i + 1)) := by
    have hnext : ∀ b : Bytes, b.drop (4096 * (i + 1)) = (b.drop (4096 * i)).drop 4096 := fun b => by
      rw [List.drop_drop, Nat.mul_succ]
    rw [hnext, hnext, h.rest]
  refine ⟨?_, ?_, ?_, ?_⟩
  · rw [Device.append, h.offset, Nat.mul_succ]
  · rw [← hlen]
    refine overwrite_length ?_
    rw [hblock, h.offset]
    omega
  · rw [Device.append, overwrite, ← List.append_assoc, ← hboth, List.take_left, h.offset,
      h.written]
  · rw [Device.append, overwrite, ← List.append_assoc, ← hboth, List.drop_left, hboth, ← hsame,
      h.offset, hblock, Nat.mul_succ]

/-- A whole block was copied. -/
theorem Copied.next {content : Bytes} {i : Nat} {dst : Device} (h : Copied source content i dst)
    (hfull : 4096 * (i + 1) ≤ source.length) (hfits : 4096 * (i + 1) ≤ content.length) :
    Copied source content (i + 1) (dst.append (slice source (4096 * i) 4096)) := by
  have hdata : (slice source (4096 * i) 4096).length = 4096 := slice_length_of_le (by omega)
  obtain ⟨hoff, hlen, htake, hdrop⟩ := h.append (slice source (4096 * i) 4096) (by omega) hfits
  refine ⟨hoff, hlen, hfull, ?_, hdrop⟩
  rw [htake, block, hdata, Nat.sub_self, List.replicate_zero, List.append_nil, take_append_slice,
    Nat.mul_succ]

/-- A short block is the last one when what is left of the source are zeros of it. -/
theorem shortBlock_restores_iff {i n : Nat} (hin : 4096 * i + n ≤ source.length) (hpos : 0 < n)
    (hshort : n < 4096) :
    source.take (4096 * i) ++ block (slice source (4096 * i) n) = source ++ padding source ↔
      source.length ≤ 4096 * (i + 1) ∧ ∀ b ∈ source.drop (4096 * i + n), b = 0 := by
  have hdata : (slice source (4096 * i) n).length = n := slice_length_of_le hin
  have hsplit : source.take (4096 * i + n) ++ source.drop (4096 * i + n) = source :=
    List.take_append_drop _ _
  have hleft : source.take (4096 * i) ++ block (slice source (4096 * i) n) =
      source.take (4096 * i + n) ++ List.replicate (4096 - n) 0 := by
    rw [block, hdata, ← List.append_assoc, take_append_slice]
  have hright : source ++ padding source =
      source.take (4096 * i + n) ++ (source.drop (4096 * i + n) ++ padding source) := by
    rw [← List.append_assoc, hsplit]
  have hrest : (source.drop (4096 * i + n)).length = source.length - (4096 * i + n) :=
    List.length_drop
  rw [hleft, hright, List.append_right_inj]
  constructor
  · intro h
    have hlen := congrArg List.length h
    rw [List.length_append, List.length_replicate, hrest] at hlen
    refine ⟨by omega, fun b hb => ?_⟩
    have hmem : b ∈ List.replicate (4096 - n) 0 := by
      rw [h]
      exact List.mem_append_left _ hb
    exact List.eq_of_mem_replicate hmem
  · rintro ⟨hlast, hzero⟩
    rw [List.eq_replicate_of_mem hzero, hrest, padding, List.replicate_append_replicate]
    congr 1
    omega

/-- At the end of the source nothing is missing. -/
theorem Copied.restores_end {content : Bytes} {i : Nat} {dst : Device}
    (h : Copied source content i dst) (hend : source.length = 4096 * i) :
    Restores source content (0, dst) := by
  intro _
  rw [h.offset, h.written, h.rest, List.take_of_length_le hend.le, padding, hend,
    Nat.mul_mod_right]
  simp

/-- The loop ends after a short block. -/
theorem Copied.restores_short_iff {content : Bytes} {i n : Nat} {dst : Device}
    (h : Copied source content i dst) (hin : 4096 * i + n ≤ source.length) (hpos : 0 < n)
    (hshort : n < 4096) (hfits : 4096 * (i + 1) ≤ content.length) :
    Restores source content (0, dst.append (slice source (4096 * i) n)) ↔
      source.length ≤ 4096 * (i + 1) ∧ ∀ b ∈ source.drop (4096 * i + n), b = 0 := by
  obtain ⟨hoff, -, htake, hdrop⟩ := h.append (slice source (4096 * i) n)
    ((slice_length_le _ _ _).trans hshort.le) hfits
  rw [← shortBlock_restores_iff hin hpos hshort, Restores, hoff, htake, hdrop]
  simp

/-- The loop from the `i`-th iteration on. -/
theorem restoreLoop_iff {content : Bytes} {fuel : Nat} : ∀ {i : Nat} {buf : Bytes} {dst : Device},
    buf.length = 4096 → source.length < 4096 * (i + fuel) → Copied source content i dst →
    ((∃ r, restoreLoop s source fuel i (4096 * i) buf dst = .done r ∧ Restores source content r) ↔
      ReadsFrom s source content.length i) := by
  induction fuel with
  | zero =>
    intro i buf dst _ hfuel hcopied
    have hinside := hcopied.inside
    omega
  | succ fuel ih =>
    intro i buf dst hbuf hfuel hcopied
    have hinside := hcopied.inside
    rw [readsFrom_iff]
    cases hread : s.reads i with
    | none =>
      have hnot : ¬ Reads s source content.length i := by
        rintro ⟨n, hn, -⟩
        simp [readCount, hread] at hn
      rw [restoreLoop_fails fuel dst hread]
      simp [hnot]
    | some k =>
      have hk := k.2
      generalize hcount : min (k.val + 1) (source.length - 4096 * i) = n
      have hn : readCount s source i = some n := by
        rw [readCount, hread, Option.map_some, hcount]
      have hstep := restoreLoop_reads fuel dst hbuf hn
      by_cases hzero : n = 0
      · -- The end of the source.
        have hend : source.length = 4096 * i := by omega
        rw [if_pos hzero] at hstep
        refine iff_of_true ⟨_, hstep, hcopied.restores_end hend⟩
          ⟨⟨n, hn, fun hpos => by omega⟩, ?_⟩
        rintro ⟨hfull, -⟩
        rw [hn] at hfull
        cases hfull
        omega
      rw [if_neg hzero] at hstep
      have hdata : (slice source (4096 * i) n).length = n := slice_length_of_le (by omega)
      by_cases hwrites : WritesBlock s content.length i
      · rw [← hcopied.length] at hwrites
        have hwrite := write_whole (slice source (4096 * i) n) (by omega) hcopied.offset
          hwrites
        rw [hcopied.length] at hwrites
        simp only [hwrite, if_neg (lt_irrefl (4096 : Int))] at hstep
        by_cases hfull : n = 4096
        · subst hfull
          have hgoes : Copies s source content.length i := ⟨hn, hwrites⟩
          have hreads : Reads s source content.length i := ⟨4096, hn, fun _ hlt => by omega⟩
          rw [hstep, if_pos rfl, ih (block_length (by omega)) (by omega)
            (hcopied.next (by omega) hwrites.2)]
          exact ⟨fun h => ⟨hreads, fun _ => h⟩, fun h => h.2 hgoes⟩
        · have hmiss : ¬ Copies s source content.length i := by
            rintro ⟨hcount', -⟩
            rw [hn] at hcount'
            exact hfull (Option.some.inj hcount')
          have hrestores := hcopied.restores_short_iff (n := n) (by omega) (by omega) (by omega)
            hwrites.2
          rw [hstep, if_neg hfull]
          constructor
          · rintro ⟨r, hr, hgood⟩
            cases hr
            exact ⟨⟨n, hn, fun _ _ _ => hrestores.mp hgood⟩, fun hcopy => absurd hcopy hmiss⟩
          · rintro ⟨⟨n', hn', hgood⟩, -⟩
            obtain rfl : n = n' := Option.some.inj (hn.symm.trans hn')
            exact ⟨_, rfl, hrestores.mpr (hgood (by omega) (by omega) hwrites)⟩
      · -- The `write` fails, which is reported.
        have hshort := write_short (block (slice source (4096 * i) n)) hcopied.offset
          (by rwa [hcopied.length])
        simp only [if_pos hshort] at hstep
        refine iff_of_true ⟨_, hstep, nofun⟩ ⟨⟨n, hn, fun _ _ hw => absurd hw hwrites⟩, ?_⟩
        exact fun hcopy => absurd hcopy.2 hwrites

end

/-! ## The whole restore -/

/-- `restore_internal` keeps inside its buffer, and when it returns 0 the device holds the
whole source and its padding, exactly when no `read` that it makes fails and a short one
whose block is written leaves nothing but zeros of that block. -/
theorem restore_internal_iff (s : System) (buf : Buf) (filename : Option Bytes)
    (content : Bytes) :
    (∃ r, restore_internal s buf filename content = .done r ∧
        ∀ source, s.source filename = some source → Restores source content r) ↔
      ∀ source, s.source filename = some source → s.opensDevice = true → s.unlocks = true →
        ReadsFrom s source content.length 0 := by
  unfold restore_internal
  cases hsource : s.source filename with
  | none => simp
  | some source =>
    simp only [Option.some.injEq, forall_eq']
    cases hopen : s.opensDevice with
    | false => simp [Restores]
    | true =>
      cases hunlock : s.unlocks with
      | false => simp [Restores]
      | true =>
        have hfresh : Copied source content 0 ⟨content, 0⟩ := ⟨rfl, rfl, by omega, rfl, rfl⟩
        have hfuel : source.length < 4096 * (0 + (source.length / 4096 + 1)) := by omega
        simpa using restoreLoop_iff (s := s) buf.2 hfuel hfresh

/-- A pipe that has delivered 4 of 8 bytes when it is read. -/
def shortPipe : System where
  stdin := [1, 2, 3, 4, 5, 6, 7, 8]
  files := fun _ => none
  opensDevice := true
  unlocks := true
  reads := fun _ => some 3
  writes := fun _ => some 4096

/-- A source whose first `read` fails. -/
def badMedium : System := { shortPipe with reads := fun _ => none }

def zeroBuf : Buf := ⟨List.replicate 4096 0, List.length_replicate⟩

/-- What the device holds before. -/
def erased : Bytes := List.replicate 4096 0xff

theorem erased_length : erased.length = 4096 := List.length_replicate

/-- The first 4 bytes are restored and 0 is returned; where the `read` fails, the byte
before the buffer is cleared. -/
theorem restore_internal_short :
    (∃ dst, restore_internal shortPipe zeroBuf none erased = .done (0, dst) ∧
        slice dst.content 0 8 = [1, 2, 3, 4, 0, 0, 0, 0] ∧
        ¬ Restores shortPipe.stdin erased (0, dst)) ∧
      restore_internal badMedium zeroBuf none erased = .fault := by
  have hcopied : Copied shortPipe.stdin erased 0 ⟨erased, 0⟩ :=
    ⟨rfl, rfl, Nat.zero_le _, rfl, rfl⟩
  have hreads : readCount shortPipe shortPipe.stdin 0 = some 4 := rfl
  have hwrites : WritesBlock shortPipe erased.length 0 :=
    ⟨⟨4096, rfl, le_rfl⟩, by rw [erased_length]⟩
  have hrun : restore_internal shortPipe zeroBuf none erased =
      restoreLoop shortPipe shortPipe.stdin 1 0 (4096 * 0) zeroBuf.1 ⟨erased, 0⟩ := rfl
  have hfails : restore_internal badMedium zeroBuf none erased =
      restoreLoop badMedium badMedium.stdin 1 0 (4096 * 0) zeroBuf.1 ⟨erased, 0⟩ := rfl
  have hwrite := @write_whole shortPipe 0 ⟨erased, 0⟩ (slice shortPipe.stdin (4096 * 0) 4)
    (by decide) rfl hwrites
  rw [restoreLoop_reads 0 _ zeroBuf.2 hreads] at hrun
  simp only [hwrite] at hrun
  refine ⟨⟨_, hrun, ?_, ?_⟩, hfails.trans (restoreLoop_fails 0 _ rfl)⟩
  · rfl
  · intro h
    have hlast := (hcopied.restores_short_iff (n := 4) (by decide) (by decide) (by decide)
      (by rw [erased_length])).mp h
    exact absurd hlast.2 (by decide)

end BootableRecovery.Bmlutils
