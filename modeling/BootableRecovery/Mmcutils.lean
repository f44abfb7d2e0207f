import BootableRecovery.Lib.Stdio

/-!
# `mmcutils/mmcutils.c`: raw copies

`mmc_raw_copy` and `mmc_raw_dump_internal` copy a file to another one byte by byte, or in
blocks of 512 bytes when the size is a multiple of 512. The environment says which files
can be opened, which bytes cannot be read, and which writes of the output buffer fail.
`fsync` is given a `FILE` where it expects a descriptor and has no effect.

Main results:
* `raw_copies_iff`: when the result of the two functions tells whether the bytes that are
  asked for were copied.
* `raw_dump_short`: of a short input one loop reports a failure and the other does not, and
  a copy to a full disk reports none.
-/

namespace BootableRecovery.Mmcutils
open Stdio

/-! ## The code -/

/-- The files of a copy. `unreadable p` says that the byte at offset `p` cannot be read;
`seeks` that the input has an end to seek to, and `long` is the width of a `long`. -/
structure Files where
  opensIn : Bool
  opensOut : Bool
  seeks : Bool
  long : Nat
  unreadable : Nat → Bool
  out : Medium

/-- What was returned and what the output holds, if it was opened. -/
structure Result where
  ret : Int
  written : Option Bytes
  deriving DecidableEq, Repr

section

variable (e : Files)

/-- `ftell` at the end of the input; a position that a `long` does not hold is a failure. -/
def ftellEnd (content : Bytes) : Int :=
  if e.seeks = true ∧ content.length < 2 ^ (e.long - 1) then content.length else -1

/-- The loop that copies bytes, from offset `pos` on, up to the end of the input or until
the counter is `size`. -/
def byteLoop (size : Option Nat) : Bytes → Nat → Nat → FILE → FILE
  | [], _, _, out => out
  | ch :: rest, pos, counter, out =>
    if e.unreadable pos then out
    else
      let out := (fputc e.out ch out).2
      let counter := toU32 (counter + 1)
      if size = some counter then out else byteLoop size rest (pos + 1) counter out

/-- `fread(buf, 512, 1, in)`. -/
def freadBlock (rest : Bytes) (pos : Nat) : Option Bytes :=
  if 512 ≤ rest.length ∧ ∀ p < pos + 512, pos ≤ p → e.unreadable p = false then
    some (rest.take 512)
  else none

/-- The loop that copies `n` blocks; the result is whether it does not go to `ERROR1`. -/
def blockLoop : Nat → Bytes → Nat → FILE → Bool × FILE
  | 0, _, _, out => (true, out)
  | n + 1, rest, pos, out =>
    match freadBlock e rest pos with
    | none => (false, out)
    | some buf =>
      match fwrite e.out buf out with
      | (false, out) => (false, out)
      | (true, out) => blockLoop n (rest.drop 512) (pos + 512) out

/-- Copy with the size `sz`; `size` is where the loop over the bytes stops. -/
def rawCopy (sz : Nat) (size : Option Nat) (content : Bytes) : Result :=
  if sz % 512 ≠ 0 then ⟨0, some (fclose e.out (byteLoop e size content 0 0 fopen)).2.written⟩
  else
    let (ok, out) := blockLoop e (sz / 512) content 0 fopen
    ⟨if ok then 0 else -1, some (fclose e.out out).2.written⟩

def mmc_raw_copy (content : Bytes) : Result :=
  if !e.opensIn then ⟨-1, none⟩
  else if !e.opensOut then ⟨-1, none⟩
  else rawCopy e (toU32 (ftellEnd e content)) none content

/-- The size of a dump: the one that is given, or else the end of the input. -/
def dumpSize (size : UInt32) (content : Bytes) : Nat :=
  if size = 0 then toU32 (ftellEnd e content) else size.toNat

def mmc_raw_dump_internal (size : UInt32) (content : Bytes) : Result :=
  if !e.opensIn then ⟨-1, none⟩
  else if !e.opensOut then ⟨-1, none⟩
  else rawCopy e (dumpSize e size content) (some (dumpSize e size content)) content

/-! ## What is expected -/

/-- How many bytes are asked for: all of them, or the first `size`, if there are as many. -/
def required (size : UInt32) (content : Bytes) : Option Nat :=
  if size = 0 then some content.length
  else if size.toNat ≤ content.length then some size.toNat
  else none

/-- The result is 0 exactly when the output holds what is asked for. -/
def Tells (want : Option Nat) (content : Bytes) (r : Result) : Prop :=
  r.ret = 0 ↔ ∃ n, want = some n ∧ r.written = some (content.take n)

/-- The first `n` bytes can be read. -/
def Readable (n : Nat) : Prop := ∀ p < n, e.unreadable p = false

/-- When a copy tells what it did. The loop over the bytes tells nothing, so that nothing
may fail in it and the size has to be the one that is asked for. In the loop over the
blocks the size must not have been cut to 32 bits, and the last write must not fail when
the file is closed, unless a failure is reported before. -/
def CopyTells (sz : Nat) (limit want : Option Nat) (content : Bytes) : Prop :=
  if sz % 512 ≠ 0 then
    ∃ n, want = some n ∧ (∀ l, limit = some l → n ≤ l) ∧ Readable e n ∧ Flushes e.out n
  else
    sz ≤ content.length → Readable e sz → FullFlushes e.out sz →
      want = some sz ∧ Flushes e.out sz

variable {e}

/-! ## The loops -/

/-- The loop over the bytes puts the first bytes of the input, up to its end, a byte that
cannot be read or the size. -/
theorem byteLoop_spec {size : Option Nat} (hsize : ∀ l, size = some l → 0 < l ∧ l < 2 ^ 32)
    (content : Bytes) (pos : Nat) (out : FILE) (hbelow : ∀ l, size = some l → pos < l) :
    ∃ k, byteLoop e size content pos (toU32 pos) out = putAll e.out (content.take k) out ∧
      k ≤ content.length ∧ (∀ p < pos + k, pos ≤ p → e.unreadable p = false) ∧
      (∀ l, size = some l → pos + k ≤ l) ∧
      (k = content.length ∨ size = some (pos + k) ∨ e.unreadable (pos + k) = true) := by
  induction content generalizing pos out with
  | nil =>
    refine ⟨0, rfl, le_rfl, fun p hlt hle => by omega, fun l hl => (hbelow l hl).le, .inl rfl⟩
  | cons ch rest ih =>
    rw [byteLoop]
    by_cases hbad : e.unreadable pos = true
    · rw [if_pos hbad]
      exact ⟨0, rfl, Nat.zero_le _, fun p hlt hle => by omega, fun l hl => (hbelow l hl).le,
        .inr (.inr hbad)⟩
    · have hgood : e.unreadable pos = false := by simpa using hbad
      have hcounter : toU32 (toU32 pos + 1 : Nat) = toU32 (pos + 1 : Nat) := by
        unfold toU32
        omega
      simp only [if_neg hbad, ← Nat.cast_succ, Nat.succ_eq_add_one, hcounter]
      by_cases hstop : size = some (toU32 (pos + 1 : Nat))
      · have hnext := hbelow _ hstop
        have hsame : toU32 (pos + 1 : Nat) = pos + 1 := by
          unfold toU32 at hnext ⊢
          omega
        rw [if_pos hstop]
        rw [hsame] at hstop
        refine ⟨1, rfl, by simp, fun p hlt hle => ?_, fun l hl => ?_, .inr (.inl hstop)⟩
        · obtain rfl : p = pos := by omega
          exact hgood
        · rw [hstop] at hl
          exact (Option.some.inj hl).le
      · rw [if_neg hstop]
        have hbelow' : ∀ l, size = some l → pos + 1 < l := by
          intro l hl
          have hlt := hbelow l hl
          rcases Nat.eq_or_lt_of_le hlt with heq | hgt
          · rw [toU32_of_range (by rw [Nat.succ_eq_add_one] at heq; have := hsize l hl; omega)]
              at hstop
            exact absurd (by rw [hl, ← heq]) hstop
          · exact hgt
        obtain ⟨k, heq, hle, hreadable, hlimit, hend⟩ := ih (pos + 1) (fputc e.out ch out).2 hbelow'
        refine ⟨k + 1, heq, by simpa using hle, fun p hlt hge => ?_, fun l hl => ?_, ?_⟩
        · rcases Nat.eq_or_lt_of_le hge with rfl | hgt
          · exact hgood
          · exact hreadable p (by omega) hgt
        · have := hlimit l hl
          omega
        · rw [Nat.add_right_comm, Nat.add_assoc] at hend
          simpa [Nat.add_comm, Nat.add_left_comm] using hend

/-- The result of the loop over the bytes, when `n` bytes are asked for and the size is
no larger than that. -/
theorem byteLoop_written_iff {size : Option Nat} {content : Bytes} {n : Nat}
    (hsize : ∀ l, size = some l → 0 < l ∧ l < 2 ^ 32) (hn : n ≤ content.length)
    (hmost : ∀ k ≤ content.length, (∀ l, size = some l → k ≤ l) → k ≤ n) :
    (fclose e.out (byteLoop e size content 0 0 fopen)).2.written = content.take n ↔
      (∀ l, size = some l → n ≤ l) ∧ Readable e n ∧ Flushes e.out n := by
  have hzero : toU32 (0 : Nat) = 0 := toU32_of_range (by decide)
  obtain ⟨k, heq, hle, hreadable, hlimit, hend⟩ :=
    byteLoop_spec hsize content 0 fopen fun l hl => (hsize l hl).1
  rw [hzero] at heq
  simp only [Nat.zero_add] at hlimit hend hreadable
  obtain ⟨ok, hstream⟩ := stream_fopen.putAll (o := e.out) (content.take k)
  obtain ⟨hwritten, hshort⟩ := hstream.fclose_eq_iff
  rw [List.nil_append, List.length_take, Nat.min_eq_left hle] at hwritten hshort
  have hkn := hmost k hle hlimit
  rw [heq]
  have hwhole : k = n ↔ (∀ l, size = some l → n ≤ l) ∧ Readable e n := by
    constructor
    · rintro rfl
      exact ⟨hlimit, fun p hp => hreadable p hp (Nat.zero_le _)⟩
    · rintro ⟨hn', hread⟩
      rcases hend with hend | hend | hend
      · omega
      · have := hn' k hend
        omega
      · by_contra hne
        rw [hread k (by omega)] at hend
        cases hend
  rw [← and_assoc, ← hwhole]
  constructor
  · intro h
    have hlen := congrArg List.length h
    rw [List.length_take, Nat.min_eq_left hn] at hlen
    obtain rfl : k = n := by omega
    exact ⟨rfl, hwritten.mp h⟩
  · rintro ⟨rfl, hflushes⟩
    exact hwritten.mpr hflushes

/-! ### Blocks -/

/-- What the loop over the blocks needs for `n` bytes from offset `pos` on when `m` bytes
were put before. -/
def Transfers (e : Files) (rest : Bytes) (pos m n : Nat) : Prop :=
  n ≤ rest.length ∧ (∀ p < pos + n, pos ≤ p → e.unreadable p = false) ∧
    FullFlushes e.out (m + n)

/-- The loop over the blocks, when `bs` was put before: all blocks are put, or less than
that reaches the file. -/
theorem blockLoop_spec (n : Nat) : ∀ (bs rest : Bytes) (pos : Nat) (out : FILE),
    Stream e.out bs True out →
      if (blockLoop e n rest pos out).1 = true then
        Transfers e rest pos bs.length (512 * n) ∧
          Stream e.out (bs ++ rest.take (512 * n)) True (blockLoop e n rest pos out).2
      else
        ¬ Transfers e rest pos bs.length (512 * n) ∧
          (fclose e.out (blockLoop e n rest pos out).2).2.written.length <
            bs.length + 512 * n := by
  induction n with
  | zero =>
    intro bs rest pos out h
    have hfull := h.ok_iff_fullFlushes.mp trivial
    exact ⟨⟨Nat.zero_le _, fun p hlt hge => by omega, hfull⟩, by simpa [blockLoop] using h⟩
  | succ n ih =>
    intro bs rest pos out h
    rw [blockLoop]
    by_cases hread : 512 ≤ rest.length ∧ ∀ p < pos + 512, pos ≤ p → e.unreadable p = false
    · rw [freadBlock, if_pos hread]
      obtain ⟨hlong, hreadable⟩ := hread
      have hblock : (rest.take 512).length = 512 := by
        rw [List.length_take]
        omega
      have hwrite := h.fwrite trivial (rest.take 512)
      rcases hfw : fwrite e.out (rest.take 512) out with ⟨good, out'⟩
      rw [hfw] at hwrite
      simp only [hfw]
      cases good with
      | true =>
        simp only [if_true] at hwrite
        have hnext := ih _ (rest.drop 512) (pos + 512) out' hwrite
        have hiff : Transfers e (rest.drop 512) (pos + 512) (bs ++ rest.take 512).length (512 * n) ↔
            Transfers e rest pos bs.length (512 * (n + 1)) := by
          rw [List.length_append, hblock]
          unfold Transfers
          rw [List.length_drop, Nat.add_assoc, Nat.add_assoc, Nat.mul_succ, Nat.add_comm 512]
          refine and_congr (by omega) (and_congr_left fun _ => ⟨fun hrest p hlt hge => ?_, ?_⟩)
          · rcases Nat.lt_or_ge p (pos + 512) with hnear | hfar
            · exact hreadable p hnear hge
            · exact hrest p hlt hfar
          · exact fun hall p hlt hge => hall p hlt (by omega)
        rw [hiff, List.append_assoc, ← List.take_add] at hnext
        rw [List.length_append, hblock, Nat.add_assoc] at hnext
        have hmul : 512 * (n + 1) = 512 + 512 * n := by omega
        rw [hmul] at hnext ⊢
        exact hnext
      | false =>
        simp only [Bool.false_eq_true, if_false] at hwrite ⊢
        obtain ⟨m, hpos, hle, hstream⟩ := hwrite
        have hlen : (bs ++ (rest.take 512).take m).length = bs.length + m := by
          rw [List.length_append, List.length_take, Nat.min_eq_left hle]
        have hlost := hstream.fclose_lt not_false
        have hfull : ¬ FullFlushes e.out (bs.length + m) := by
          rw [← hlen]
          exact fun hflushes => hstream.ok_iff_fullFlushes.mpr hflushes
        rw [hlen] at hlost
        refine ⟨fun ⟨_, _, hflushes⟩ => hfull (hflushes.mono (by omega)), by omega⟩
    · rw [freadBlock, if_neg hread]
      simp only [Bool.false_eq_true, if_false]
      have hone : 512 ≤ 512 * (n + 1) := Nat.le_mul_of_pos_right 512 (Nat.succ_pos n)
      refine ⟨fun ⟨hlong, hreadable, _⟩ => hread ⟨hone.trans hlong, fun p hlt hge => ?_⟩, ?_⟩
      · exact hreadable p (hlt.trans_le (Nat.add_le_add_left hone pos)) hge
      · exact h.fclose_eq_iff.2.trans_lt (Nat.lt_add_of_pos_right (by positivity))

/-! ## The whole copy -/

section

variable {sz : Nat} {limit want : Option Nat} {content : Bytes}

theorem rawCopy_bytes_iff (hbytes : sz % 512 ≠ 0)
    (hlimit : ∀ l, limit = some l → 0 < l ∧ l < 2 ^ 32)
    (hwant : ∀ n, want = some n → n ≤ content.length ∧
      ∀ k ≤ content.length, (∀ l, limit = some l → k ≤ l) → k ≤ n) :
    Tells want content (rawCopy e sz limit content) ↔ CopyTells e sz limit want content := by
  rw [Tells, rawCopy, if_pos hbytes, CopyTells, if_pos hbytes]
  simp only [true_iff, Option.some.injEq]
  refine exists_congr fun n => and_congr_right fun hn => ?_
  exact byteLoop_written_iff hlimit (hwant n hn).1 (hwant n hn).2

theorem rawCopy_blocks_iff (hblocks : sz % 512 = 0)
    (hwant : ∀ n, want = some n → n ≤ content.length ∧ sz ≤ n) :
    Tells want content (rawCopy e sz limit content) ↔ CopyTells e sz limit want content := by
  have hsz : 512 * (sz / 512) = sz := by omega
  have hspec := blockLoop_spec (e := e) (sz / 512) [] content 0 fopen stream_fopen
  rw [hsz, List.length_nil] at hspec
  have htransfers : Transfers e content 0 0 sz ↔
      sz ≤ content.length ∧ Readable e sz ∧ FullFlushes e.out sz := by
    simp [Transfers, Readable]
  rw [htransfers] at hspec
  rw [Tells, rawCopy, if_neg (not_not.mpr hblocks), CopyTells, if_neg (not_not.mpr hblocks)]
  rcases hloop : blockLoop e (sz / 512) content 0 fopen with ⟨ok, out⟩
  rw [hloop] at hspec
  cases ok with
  | true =>
    simp only [if_true, List.nil_append] at hspec
    obtain ⟨⟨hlong, hread, hfull⟩, hstream⟩ := hspec
    obtain ⟨hwritten, hle⟩ := hstream.fclose_eq_iff
    rw [List.length_take, Nat.min_eq_left hlong] at hwritten hle
    simp only [if_true, true_iff, Option.some.injEq]
    constructor
    · rintro ⟨n, hn, heq⟩ - - -
      have hlen := congrArg List.length heq
      rw [List.length_take, Nat.min_eq_left (hwant n hn).1] at hlen
      obtain rfl : n = sz := by
        have := (hwant n hn).2
        omega
      exact ⟨hn, hwritten.mp heq⟩
    · intro h
      obtain ⟨hsome, hflushes⟩ := h hlong hread hfull
      exact ⟨sz, hsome, hwritten.mpr hflushes⟩
  | false =>
    simp only [Bool.false_eq_true, if_false, Nat.zero_add] at hspec
    obtain ⟨hnot, hshort⟩ := hspec
    refine iff_of_true ?_ fun hlong hread hfull => absurd ⟨hlong, hread, hfull⟩ hnot
    simp only [Bool.false_eq_true, if_false, Option.some.injEq]
    refine iff_of_false (by decide) ?_
    rintro ⟨n, hn, heq⟩
    have hlen := congrArg List.length heq
    rw [List.length_take, Nat.min_eq_left (hwant n hn).1] at hlen
    have := (hwant n hn).2
    omega

end

end

theorem required_le {size : UInt32} {content : Bytes} {n : Nat}
    (h : required size content = some n) : n ≤ content.length := by
  unfold required at h
  split at h
  · exact (Option.some.inj h).ge
  · split at h
    · rename_i hle
      exact (Option.some.inj h) ▸ hle
    · cases h

/-- A size that is a multiple of 512 is no larger than what it was taken from. -/
theorem toU32_ftellEnd_le (e : Files) {content : Bytes}
    (h : toU32 (ftellEnd e content) % 512 = 0) : toU32 (ftellEnd e content) ≤ content.length := by
  unfold ftellEnd at h ⊢
  split
  · unfold toU32
    omega
  · rename_i hno
    rw [if_neg hno] at h
    exact absurd h (by unfold toU32; decide)

/-- What the two copies need: both files are opened, and the copy tells what it did. -/
def CopyCondition (e : Files) (sz : Nat) (limit want : Option Nat) (content : Bytes) : Prop :=
  e.opensIn = true → e.opensOut = true → CopyTells e sz limit want content

/-- Without both files nothing is copied and a failure is returned. -/
theorem tells_of_unopened (want : Option Nat) (content : Bytes) : Tells want content ⟨-1, none⟩ := by
  refine iff_of_false (by decide) ?_
  rintro ⟨n, -, h⟩
  cases h

theorem mmc_raw_copy_iff (e : Files) (content : Bytes) :
    Tells (required 0 content) content (mmc_raw_copy e content) ↔
      CopyCondition e (toU32 (ftellEnd e content)) none (required 0 content) content := by
  unfold mmc_raw_copy CopyCondition
  cases hin : e.opensIn with
  | false => simp [tells_of_unopened]
  | true =>
    cases hout : e.opensOut with
    | false => simp [tells_of_unopened]
    | true =>
      simp only [Bool.not_true, Bool.false_eq_true, if_false, true_implies]
      have hwant : ∀ n, required 0 content = some n → n = content.length := fun n hn =>
        (Option.some.inj hn).symm
      by_cases hbytes : toU32 (ftellEnd e content) % 512 = 0
      · refine rawCopy_blocks_iff hbytes fun n hn => ?_
        rw [hwant n hn]
        exact ⟨le_rfl, toU32_ftellEnd_le e hbytes⟩
      · refine rawCopy_bytes_iff hbytes nofun fun n hn => ?_
        rw [hwant n hn]
        exact ⟨le_rfl, fun k hk _ => hk⟩

theorem mmc_raw_dump_internal_iff (e : Files) (size : UInt32) (content : Bytes) :
    Tells (required size content) content (mmc_raw_dump_internal e size content) ↔
      CopyCondition e (dumpSize e size content) (some (dumpSize e size content))
        (required size content) content := by
  unfold mmc_raw_dump_internal CopyCondition
  cases hin : e.opensIn with
  | false => simp [tells_of_unopened]
  | true =>
    cases hout : e.opensOut with
    | false => simp [tells_of_unopened]
    | true =>
      simp only [Bool.not_true, Bool.false_eq_true, if_false, true_implies]
      have hwant : ∀ n, required size content = some n → n ≤ content.length ∧
          (size = 0 ∧ n = content.length ∨ n = dumpSize e size content) := by
        intro n hn
        refine ⟨required_le hn, ?_⟩
        unfold required at hn
        split at hn
        · rename_i hzero
          exact .inl ⟨hzero, (Option.some.inj hn).symm⟩
        · rename_i hsize
          split at hn
          · rw [dumpSize, if_neg hsize]
            exact .inr (Option.some.inj hn).symm
          · cases hn
      by_cases hbytes : dumpSize e size content % 512 = 0
      · refine rawCopy_blocks_iff hbytes fun n hn => ⟨(hwant n hn).1, ?_⟩
        rcases (hwant n hn).2 with ⟨hzero, rfl⟩ | rfl
        · rw [dumpSize, if_pos hzero] at hbytes ⊢
          exact toU32_ftellEnd_le e hbytes
        · exact le_rfl
      · have hlt : dumpSize e size content < 2 ^ 32 := by
          unfold dumpSize
          split
          · exact toU32_lt _
          · exact size.toNat_lt
        refine rawCopy_bytes_iff hbytes ?_ fun n hn => ⟨(hwant n hn).1, fun k hk hkl => ?_⟩
        · rintro l ⟨⟩
          exact ⟨by omega, hlt⟩
        · rcases (hwant n hn).2 with ⟨-, rfl⟩ | rfl
          · exact hk
          · exact hkl _ rfl

/-- `mmc_raw_copy` and `mmc_raw_dump_internal` return 0 exactly when the required bytes were
copied, under these conditions and no others. -/
theorem raw_copies_iff (e : Files) (size : UInt32) (content : Bytes) :
    (Tells (required 0 content) content (mmc_raw_copy e content) ↔
      CopyCondition e (toU32 (ftellEnd e content)) none (required 0 content) content) ∧
    (Tells (required size content) content (mmc_raw_dump_internal e size content) ↔
      CopyCondition e (dumpSize e size content) (some (dumpSize e size content))
        (required size content) content) :=
  ⟨mmc_raw_copy_iff e content, mmc_raw_dump_internal_iff e size content⟩

/-- Nothing fails. -/
def goodFiles : Files where
  opensIn := true
  opensOut := true
  seeks := true
  long := 32
  unreadable := fun _ => false
  out := ⟨1023, fun _ => none⟩

/-- No write succeeds. -/
def fullDisk : Files := { goodFiles with out := ⟨1023, fun _ => some 0⟩ }

/-- Of an input of 2 bytes, of which 513 or 512 are asked for, one loop copies 2 and
reports no failure, and the other reports one. A copy to a full disk reports none. -/
theorem raw_dump_short :
    mmc_raw_dump_internal goodFiles 513 [1, 2] = ⟨0, some [1, 2]⟩ ∧
      mmc_raw_dump_internal goodFiles 512 [1, 2] = ⟨-1, some []⟩ ∧
      ¬ Tells (required 513 [1, 2]) [1, 2] (mmc_raw_dump_internal goodFiles 513 [1, 2]) ∧
      mmc_raw_copy fullDisk [1, 2] = ⟨0, some []⟩ ∧
      ¬ Tells (required 0 [1, 2]) [1, 2] (mmc_raw_copy fullDisk [1, 2]) := by
  have hdump : mmc_raw_dump_internal goodFiles 513 [1, 2] = ⟨0, some [1, 2]⟩ := by decide +kernel
  have hcopy : mmc_raw_copy fullDisk [1, 2] = ⟨0, some []⟩ := by decide +kernel
  refine ⟨hdump, by decide, fun h => ?_, hcopy, fun h => ?_⟩
  · rw [hdump] at h
    obtain ⟨n, hn, -⟩ := h.mp rfl
    cases hn
  · rw [hcopy] at h
    obtain ⟨n, hn, hwritten⟩ := h.mp rfl
    cases hn
    cases hwritten

end BootableRecovery.Mmcutils
