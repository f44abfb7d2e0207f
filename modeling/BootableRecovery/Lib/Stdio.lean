import BootableRecovery.Lib.Machine

/-!
# Output streams

A stream of the C library that is open for writing: bytes are collected in a buffer, the
buffer is written when it is full and when the stream is closed, and what a failed write
leaves is lost. The medium says which of these writes fail.

* `fputc`, `fwrite`, `fclose` and the sequence `putAll` of `fputc` whose results are ignored.
* `Stream`: what a stream holds after `bs` was put into it, and whether all is well so far.
* `Stream.fclose_eq_iff`: the file holds what was put into it exactly when no write of
  the buffer failed (`Flushes`), and else it is shorter.

Nothing in this module mentions the programs that are verified.
-/

namespace BootableRecovery.Stdio

/-- A file to write to through a buffer of `size + 1` bytes. The `i`-th write of the buffer
stores everything, or fails after the given number of bytes. -/
structure Medium where
  size : Nat
  flushes : Nat → Option Nat

/-- A stream: what the file holds, the buffer and the number of writes. -/
structure FILE where
  written : Bytes
  buffer : Bytes
  count : Nat
  deriving DecidableEq, Repr

/-- A stream that was just opened. -/
def fopen : FILE := ⟨[], [], 0⟩

variable (o : Medium)

/-- Write the buffer. A failure loses at least the last byte of it. -/
def flush (f : FILE) : Bool × FILE :=
  match o.flushes f.count with
  | none => (true, ⟨f.written ++ f.buffer, [], f.count + 1⟩)
  | some k => (false, ⟨f.written ++ f.buffer.take (min k (f.buffer.length - 1)), [], f.count + 1⟩)

/-- Put one byte; the result says whether it is not `EOF`. -/
def fputc (c : UInt8) (f : FILE) : Bool × FILE :=
  let f := { f with buffer := f.buffer ++ [c] }
  if f.buffer.length ≤ o.size then (true, f) else flush o f

/-- Put a block of bytes, up to the first failure; the result says whether it is 1. -/
def fwrite : Bytes → FILE → Bool × FILE
  | [], f => (true, f)
  | c :: data, f =>
    match fputc o c f with
    | (true, f) => fwrite data f
    | (false, f) => (false, f)

/-- Put bytes one after the other without looking at the results. -/
def putAll : Bytes → FILE → FILE
  | [], f => f
  | c :: data, f => putAll data (fputc o c f).2

/-- Write what is left in the buffer; the result says whether it is not `EOF`. -/
def fclose (f : FILE) : Bool × FILE :=
  if f.buffer = [] then (true, f) else flush o f

/-! ## What a stream holds -/

/-- The stream after the bytes `bs`; `ok` says that no write failed. -/
structure Stream (bs : Bytes) (ok : Prop) (f : FILE) : Prop where
  room : f.buffer.length ≤ o.size
  length : f.count * (o.size + 1) + f.buffer.length = bs.length
  ok_iff : ok ↔ ∀ i < f.count, o.flushes i = none
  holds : ok → f.written ++ f.buffer = bs
  lost : ¬ ok → f.written.length + f.buffer.length < bs.length

/-- Every write of a full buffer up to the byte `n` succeeds. -/
def FullFlushes (n : Nat) : Prop := ∀ i, (i + 1) * (o.size + 1) ≤ n → o.flushes i = none

/-- Every write of the buffer for `n` bytes succeeds, the last one included. -/
def Flushes (n : Nat) : Prop := ∀ i, i * (o.size + 1) < n → o.flushes i = none

variable {o} {bs data : Bytes} {ok : Prop} {f : FILE}

theorem Flushes.full {n : Nat} (h : Flushes o n) : FullFlushes o n := by
  intro i hi
  refine h i ?_
  rw [Nat.succ_mul] at hi
  omega

theorem FullFlushes.mono {m n : Nat} (h : FullFlushes o n) (hle : m ≤ n) : FullFlushes o m :=
  fun i hi => h i (hi.trans hle)

theorem stream_fopen : Stream o [] True fopen :=
  ⟨Nat.zero_le _, by simp [fopen], by simp [fopen], fun _ => rfl, fun h => absurd trivial h⟩

/-- Put one more byte. -/
theorem Stream.fputc (h : Stream o bs ok f) (c : UInt8) :
    Stream o (bs ++ [c]) (ok ∧ (fputc o c f).1 = true) (fputc o c f).2 := by
  obtain ⟨hroom, hlength, hok, hholds, hlost⟩ := h
  have hlen : (bs ++ [c]).length = bs.length + 1 := by simp
  have hbuf : (f.buffer ++ [c]).length = f.buffer.length + 1 := by simp
  unfold Stdio.fputc
  by_cases hfits : (f.buffer ++ [c]).length ≤ o.size
  · simp only [if_pos hfits, and_true]
    refine ⟨hfits, ?_, hok, fun hyes => ?_, fun hno => ?_⟩
    · simp only [hlen, hbuf]
      omega
    · rw [← List.append_assoc, hholds hyes]
    · have := hlost hno
      simp only [hlen, hbuf]
      omega
  · simp only [if_neg hfits, flush]
    have hcount : (f.count + 1) * (o.size + 1) = f.count * (o.size + 1) + (o.size + 1) :=
      Nat.succ_mul _ _
    cases hflush : o.flushes f.count with
    | none =>
      simp only [and_true]
      refine ⟨Nat.zero_le _, ?_, ?_, fun hyes => ?_, fun hno => ?_⟩
      · simp only [hlen, hcount, List.length_nil]
        omega
      · rw [hok]
        exact ⟨fun hall i hi => (Nat.lt_succ_iff_lt_or_eq.mp hi).elim (hall i) (· ▸ hflush),
          fun hall i hi => hall i (Nat.lt_succ_of_lt hi)⟩
      · rw [List.append_nil, ← List.append_assoc, hholds hyes]
      · have := hlost hno
        simp only [List.length_append, List.length_nil, List.length_singleton]
        omega
    | some k =>
      simp only [Bool.false_eq_true, and_false]
      refine ⟨Nat.zero_le _, ?_, ?_, False.elim, fun _ => ?_⟩
      · simp only [hlen, hcount, List.length_nil]
        omega
      · rw [false_iff]
        intro hall
        rw [hall f.count (Nat.lt_succ_self _)] at hflush
        cases hflush
      · have hbefore : f.written.length + f.buffer.length ≤ bs.length := by
          by_cases hyes : ok
          · rw [← List.length_append, hholds hyes]
          · exact (hlost hyes).le
        simp only [List.length_append, List.length_take, List.length_nil, List.length_singleton]
        omega

/-- All is well so far exactly when the full buffers were written. -/
theorem Stream.ok_iff_fullFlushes (h : Stream o bs ok f) : ok ↔ FullFlushes o bs.length := by
  have hlength := h.length
  have hroom := h.room
  have hindex : ∀ i, (i + 1) * (o.size + 1) ≤ bs.length ↔ i < f.count := by
    intro i
    constructor
    · intro hi
      by_contra hge
      have hmul : (f.count + 1) * (o.size + 1) ≤ (i + 1) * (o.size + 1) :=
        Nat.mul_le_mul_right _ (by omega)
      rw [Nat.succ_mul] at hmul
      omega
    · intro hi
      have hmul : (i + 1) * (o.size + 1) ≤ f.count * (o.size + 1) := Nat.mul_le_mul_right _ hi
      omega
  rw [h.ok_iff]
  simp only [FullFlushes, hindex]

/-- Nothing is put twice. -/
theorem Stream.length_le (h : Stream o bs ok f) :
    f.written.length + f.buffer.length ≤ bs.length := by
  by_cases hok : ok
  · rw [← List.length_append, h.holds hok]
  · exact (h.lost hok).le

theorem Stream.putAll (h : Stream o bs ok f) (data : Bytes) :
    ∃ ok', Stream o (bs ++ data) ok' (putAll o data f) := by
  induction data generalizing bs ok f with
  | nil => exact ⟨ok, by rwa [List.append_nil]⟩
  | cons c data ih =>
    obtain ⟨ok', hput⟩ := ih (h.fputc c)
    exact ⟨ok', by rwa [List.append_assoc] at hput⟩

/-- A block that was put as a whole, or a failure that lost some of it. -/
theorem Stream.fwrite (h : Stream o bs ok f) (hok : ok) (data : Bytes) :
    if (fwrite o data f).1 = true then Stream o (bs ++ data) True (fwrite o data f).2
    else ∃ n, 0 < n ∧ n ≤ data.length ∧
      Stream o (bs ++ data.take n) False (fwrite o data f).2 := by
  induction data generalizing bs ok f with
  | nil =>
    have htrue : ok ↔ True := iff_true_intro hok
    rw [propext htrue] at h
    simpa [Stdio.fwrite] using h
  | cons c data ih =>
    have hput := h.fputc c
    unfold Stdio.fwrite
    rcases hc : Stdio.fputc o c f with ⟨good, g⟩
    rw [hc] at hput
    cases good with
    | true =>
      have hnext := ih hput ⟨hok, rfl⟩
      rw [List.append_assoc] at hnext
      simp only
      split
      · rename_i hyes
        rwa [if_pos hyes] at hnext
      · rename_i hno
        rw [if_neg hno] at hnext
        obtain ⟨n, hpos, hle, hstream⟩ := hnext
        refine ⟨n + 1, by omega, by simpa using hle, ?_⟩
        rwa [List.append_assoc] at hstream
    | false =>
      simp only [Bool.false_eq_true, if_false]
      refine ⟨1, by omega, by simp, ?_⟩
      simpa using hput

/-- Closing the stream stores at most what is in the buffer. -/
theorem fclose_length_le (f : FILE) :
    (fclose o f).2.written.length ≤ f.written.length + f.buffer.length := by
  unfold fclose flush
  split
  · exact Nat.le_add_right _ _
  · split
    · rw [List.length_append]
    · rw [List.length_append, List.length_take]
      omega

theorem Stream.fclose_lt (h : Stream o bs ok f) (hno : ¬ ok) :
    (fclose o f).2.written.length < bs.length :=
  (fclose_length_le f).trans_lt (h.lost hno)

/-- When the stream is closed the file holds what was put into it exactly when no write
failed; else it is shorter. -/
theorem Stream.fclose_eq_iff (h : Stream o bs ok f) :
    ((fclose o f).2.written = bs ↔ Flushes o bs.length) ∧
      (fclose o f).2.written.length ≤ bs.length := by
  have hlength := h.length
  have hroom := h.room
  have hle := h.length_le
  have hbelow : ∀ i j, i * (o.size + 1) < j * (o.size + 1) ↔ i < j := fun i j =>
    Nat.mul_lt_mul_right (Nat.succ_pos _)
  by_cases hempty : f.buffer = []
  · -- The last byte filled the buffer, so that nothing is left to write.
    rw [hempty, List.length_nil, Nat.add_zero] at hlength hle
    have hflushes : Flushes o bs.length ↔ ok := by
      rw [h.ok_iff, ← hlength]
      simp only [Flushes, hbelow]
    rw [fclose, if_pos hempty, hflushes]
    refine ⟨⟨fun heq => ?_, fun hok => ?_⟩, hle⟩
    · by_contra hno
      have hlost := h.lost hno
      rw [heq] at hlost
      omega
    · have hholds := h.holds hok
      rwa [hempty, List.append_nil] at hholds
  · have hpos : 0 < f.buffer.length := List.length_pos_iff.mpr hempty
    have hindex : ∀ i, i * (o.size + 1) < bs.length ↔ i < f.count + 1 := by
      intro i
      have hsucc : (f.count + 1) * (o.size + 1) = f.count * (o.size + 1) + (o.size + 1) :=
        Nat.succ_mul _ _
      constructor
      · intro hi
        exact (hbelow i (f.count + 1)).mp (by omega)
      · intro hi
        have hmul : i * (o.size + 1) ≤ f.count * (o.size + 1) :=
          Nat.mul_le_mul_right _ (by omega)
        omega
    have hflushes : Flushes o bs.length ↔ ok ∧ o.flushes f.count = none := by
      rw [h.ok_iff]
      simp only [Flushes, hindex]
      exact ⟨fun hall => ⟨fun i hi => hall i (Nat.lt_succ_of_lt hi), hall _ (Nat.lt_succ_self _)⟩,
        fun hall i hi => (Nat.lt_succ_iff_lt_or_eq.mp hi).elim (hall.1 i) (· ▸ hall.2)⟩
    rw [fclose, if_neg hempty, hflushes, flush]
    cases hlast : o.flushes f.count with
    | none =>
      simp only [and_true, List.length_append]
      refine ⟨⟨fun heq => ?_, h.holds⟩, hle⟩
      by_contra hno
      have hlost := h.lost hno
      rw [← heq, List.length_append] at hlost
      omega
    | some k =>
      simp only [reduceCtorEq, and_false, iff_false, List.length_append, List.length_take]
      refine ⟨fun heq => ?_, by omega⟩
      have hshort := congrArg List.length heq
      rw [List.length_append, List.length_take] at hshort
      omega

end BootableRecovery.Stdio
