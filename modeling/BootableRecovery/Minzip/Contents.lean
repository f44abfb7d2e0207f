import BootableRecovery.Minzip.Zip

/-!
# `minzip/Zip.c`: the contents of an entry

`mzProcessZipEntryContents` hands the uncompressed contents of an entry to a
callback, chunk by chunk. Three functions are built on it: `mzReadZipEntry` and
`mzExtractZipEntryToBuffer` copy into memory, `mzExtractZipEntryToFile` writes to a
file.

The file of an archive has the bytes of its mapping. zlib is a parameter
(`Inflate`), and so is which calls of `read` fail.

* `mzProcessZipEntryContents_eq`: the function is the list of the chunks
  (`entryChunks`), fed to the callback until it refuses one.
* `extract_to_buffer_iff`: for which entries the buffer is not overrun.
* `extraction_paths_iff`: for which entries the three functions agree.
-/

namespace BootableRecovery.Minzip

/-! ## zlib and the file -/

def Z_OK : Int := 0
def Z_STREAM_END : Int := 1

/-- What one call of `inflate` does. -/
structure InflateCall (State : Type) where
  ret : Int
  consumed : Nat
  out : Bytes
  state : State

/-- What `Zip.c` uses of zlib. `inflate strm next_in avail_out` is one call, with the
input that is left. -/
structure Inflate where
  State : Type
  inflateInit2 : Int × State
  inflate : State → Bytes → Nat → InflateCall State
  out_le : ∀ strm next_in avail_out, (inflate strm next_in avail_out).out.length ≤ avail_out

/-- The size of `buf`, `readBuf` and `procBuf`. -/
def BUF_SIZE : Nat := 32 * 1024

def STORED : Nat := 0
def DEFLATED : Nat := 8

/-- The file descriptor of an archive: what the file has, where it stands, and which
calls of `read` fail. -/
structure Fd where
  file : Bytes
  oldOff : Nat
  io : Nat → Bool

/-- Call `k` of `read`. Fewer bytes than wanted are as good as none. -/
def Fd.read (fd : Fd) (k pos count : Nat) : Option Bytes :=
  if fd.io k ∧ (count = 0 ∨ pos + count ≤ fd.file.length) then some (slice fd.file pos count)
  else none

/-- The offset behind `lseek`, whose result is not looked at. -/
def Fd.seek (fd : Fd) (offset : Int) : Nat := if 0 ≤ offset then offset.toNat else fd.oldOff

/-! ## Callbacks -/

/-- A `ProcessZipEntryContentsFunction` with its cookie. -/
abbrev ProcessFunction (σ : Type) := σ → Bytes → Outcome (Bool × σ)

section Process

variable {σ : Type} (fd : Fd) (processFunction : ProcessFunction σ)

/-- The loop of `processStoredEntry`. -/
def storedLoop (k pos bytesLeft : Nat) (cookie : σ) : Outcome (Bool × σ) :=
  if bytesLeft = 0 then .done (true, cookie)
  else
    match fd.read k pos (min bytesLeft BUF_SIZE) with
    | none => .done (false, cookie)
    | some buf => do
      let r ← processFunction cookie buf
      if !r.1 then .done (false, r.2)
      else
        storedLoop (k + 1) (pos + min bytesLeft BUF_SIZE) (bytesLeft - min bytesLeft BUF_SIZE) r.2
termination_by bytesLeft
decreasing_by
  have hsize : 0 < BUF_SIZE := by decide
  omega

def processStoredEntry (e : ZipEntry) (cookie : σ) : Outcome (Bool × σ) :=
  storedLoop fd processFunction 0 (fd.seek e.offset) (toU32 e.compLen) cookie

end Process

/-- The variables of the loop of `processDeflatedEntry`. `procBuf` is the part of the buffer
that was written. -/
structure Inflating (z : Inflate) where
  zstream : z.State
  next_in : Bytes
  procBuf : Bytes
  compRemaining : Int
  pos : Nat
  reads : Nat
  total_out : Nat

/-- Read as much as we can when the input is used up. A negative size makes `read` return -1.
When that is the size, the call passes for a good one, and zlib gets an input that goes
beyond `readBuf`. -/
def refill {z : Inflate} (fd : Fd) (s : Inflating z) : Outcome (Option (Inflating z)) :=
  if s.next_in ≠ [] then .done (some s)
  else
    let getSize := min s.compRemaining BUF_SIZE
    if getSize = -1 then .fault
    else if getSize < 0 then .done none
    else
      match fd.read s.reads s.pos getSize.toNat with
      | none => .done none
      | some buf => .done (some { s with
          next_in := buf, compRemaining := s.compRemaining - getSize,
          pos := s.pos + getSize.toNat, reads := s.reads + 1 })

/-- One round of the loop: the return value of `inflate`, the data that is ready for the
callback, and the variables behind it. -/
structure Round (z : Inflate) where
  zerr : Int
  chunk : Option Bytes
  next : Inflating z

/-- Uncompress some data. It is handed on when the buffer is full, or at the end. -/
def inflateRound {z : Inflate} (s : Inflating z) : Option (Round z) :=
  let r := z.inflate s.zstream s.next_in (BUF_SIZE - s.procBuf.length)
  let procBuf := s.procBuf ++ r.out
  let next : Inflating z := { s with
    zstream := r.state, next_in := s.next_in.drop r.consumed, procBuf := procBuf
    total_out := s.total_out + r.out.length }
  if r.ret ≠ Z_OK ∧ r.ret ≠ Z_STREAM_END then none
  else if procBuf.length = BUF_SIZE ∨ r.ret = Z_STREAM_END ∧ procBuf ≠ [] then
    some ⟨r.ret, some procBuf, { next with procBuf := [] }⟩
  else some ⟨r.ret, none, next⟩

section Process

variable {σ : Type} (z : Inflate) (fd : Fd) (processFunction : ProcessFunction σ)

/-- Hand data to the callback. -/
def deliver (chunk : Option Bytes) (cookie : σ) : Outcome (Bool × σ) :=
  match chunk with
  | none => .done (true, cookie)
  | some data => processFunction cookie data

/-- The loop of `processDeflatedEntry`: `total_out`, or `none` when it bails out. -/
def deflatedLoop : Nat → Inflating z → σ → Outcome (Option Nat × σ)
  | 0, _, _ => .spin
  | fuel + 1, s, cookie => do
    let filled ← refill fd s
    match filled.bind inflateRound with
    | none => .done (none, cookie)
    | some r => do
      let ret ← deliver processFunction r.chunk cookie
      if !ret.1 then .done (none, ret.2)
      else if r.zerr = Z_OK then deflatedLoop fuel r.next ret.2
      else .done (some r.next.total_out, ret.2)

/-- The variables before the loop. -/
def startInflating (e : ZipEntry) : Inflating z :=
  ⟨z.inflateInit2.2, [], [], e.compLen, fd.seek e.offset, 0, 0⟩

/-- The return value: `result` starts as -1. -/
def inflateReturns (e : ZipEntry) (total_out : Option Nat) : Bool :=
  match total_out with
  | none => e.uncompLen = -1
  | some n => wrap32 n = e.uncompLen

def processDeflatedEntry (fuel : Nat) (e : ZipEntry) (cookie : σ) : Outcome (Bool × σ) :=
  if z.inflateInit2.1 ≠ Z_OK then .done (inflateReturns e none, cookie)
  else do
    let r ← deflatedLoop z fd processFunction fuel (startInflating z fd e) cookie
    .done (inflateReturns e r.1, r.2)

/-- `mzProcessZipEntryContents` -/
def mzProcessZipEntryContents (fuel : Nat) (e : ZipEntry) (cookie : σ) : Outcome (Bool × σ) :=
  if e.compression = STORED then processStoredEntry fd processFunction e cookie
  else if e.compression = DEFLATED then processDeflatedEntry z fd processFunction fuel e cookie
  else .done (false, cookie)

end Process

/-! ## The three functions -/

/-- `CopyProcessArgs`: what was copied, and the room that is left. -/
structure CopyProcessArgs where
  copied : Bytes
  bufLen : Int

def copyProcessFunction : ProcessFunction CopyProcessArgs := fun args data =>
  if (data.length : Int) ≤ args.bufLen then
    .done (true, ⟨args.copied ++ data, args.bufLen - data.length⟩)
  else .done (false, args)

/-- `BufferExtractCookie`: what was written, and the length that is left. -/
structure BufferExtractCookie where
  written : Bytes
  len : Int

/-- Nothing is checked before the `memmove` into a buffer of `size` bytes. -/
def bufferProcessFunction (size : Nat) : ProcessFunction BufferExtractCookie := fun bec data =>
  if bec.written.length + data.length ≤ size then
    .done (true, ⟨bec.written ++ data, wrap32 (bec.len - data.length)⟩)
  else .fault

/-- A call of `write`: how many bytes it takes (at least one), or what `errno` is. -/
inductive WriteResult where
  | wrote (n : Nat)
  | interrupted
  | failed
  deriving DecidableEq, Repr

/-- The file that is written, and the results of the calls of `write`. Behind them all calls
take all they are given. -/
structure OutFile where
  written : Bytes
  script : List WriteResult

/-- The loop of `writeProcessFunction`: whether all was written, what was written, and the
results to come. -/
def writeLoop : List WriteResult → Bytes → Bool × Bytes × List WriteResult
  | [], data => (true, data, [])
  | .interrupted :: script, data => writeLoop script data
  | .failed :: script, _ => (false, [], script)
  | .wrote n :: script, data =>
    if data.length ≤ n + 1 then (true, data, script)
    else
      let r := writeLoop script (data.drop (n + 1))
      (r.1, data.take (n + 1) ++ r.2.1, r.2.2)

/-- `writeProcessFunction`. Without data `write` returns 0, which is taken for an error. -/
def writeProcessFunction : ProcessFunction OutFile := fun f data =>
  if data = [] then .done (false, f)
  else
    let r := writeLoop f.script data
    .done (r.1, ⟨f.written ++ r.2.1, r.2.2⟩)

section Extract

variable (z : Inflate) (fd : Fd) (fuel : Nat) (e : ZipEntry)

/-- `mzReadZipEntry`: the return value and what was copied. -/
def mzReadZipEntry (bufLen : Int) : Outcome (Bool × Bytes) := do
  let r ← mzProcessZipEntryContents z fd copyProcessFunction fuel e ⟨[], bufLen⟩
  .done (r.1, r.2.copied)

/-- `mzExtractZipEntryToBuffer` with a buffer of `mzGetZipEntryUncompLen` bytes. -/
def mzExtractZipEntryToBuffer : Outcome (Bool × Bytes) := do
  let r ← mzProcessZipEntryContents z fd (bufferProcessFunction e.uncompLen.toNat) fuel e
    ⟨[], e.uncompLen⟩
  .done (r.1 && r.2.len == 0, r.2.written)

/-- `mzExtractZipEntryToFile` -/
def mzExtractZipEntryToFile (script : List WriteResult) : Outcome (Bool × Bytes) := do
  let r ← mzProcessZipEntryContents z fd writeProcessFunction fuel e ⟨[], script⟩
  .done (r.1, r.2.written)

end Extract

/-! ## The chunks of an entry -/

/-- What a decoder makes of an entry, whatever the callback: the chunks, and what it ends
with behind them. -/
structure Chunked (ρ : Type) where
  chunks : List Bytes
  ending : Outcome ρ

namespace Chunked

variable {ρ τ : Type}

def after (data : List Bytes) (c : Chunked ρ) : Chunked ρ := ⟨data ++ c.chunks, c.ending⟩

def map (f : ρ → τ) (c : Chunked ρ) : Chunked τ :=
  ⟨c.chunks, do
    let r ← c.ending
    .done (f r)⟩

/-- The bytes of all chunks. -/
def data (c : Chunked ρ) : Bytes := c.chunks.flatten

end Chunked

/-- Feed chunks to a callback. When it refuses one the value is `refused`, behind the last one
it is what the decoder ends with. -/
def feed {σ ρ : Type} (processFunction : ProcessFunction σ) (ending : Outcome ρ) (refused : ρ) :
    List Bytes → σ → Outcome (ρ × σ)
  | [], cookie => do
    let r ← ending
    .done (r, cookie)
  | data :: chunks, cookie => do
    let ret ← processFunction cookie data
    if !ret.1 then .done (refused, ret.2)
    else feed processFunction ending refused chunks ret.2

section Chunks

variable (z : Inflate) (fd : Fd)

/-- The chunks of `processStoredEntry`. -/
def storedChunks (k pos bytesLeft : Nat) : Chunked Bool :=
  if bytesLeft = 0 then ⟨[], .done true⟩
  else
    match fd.read k pos (min bytesLeft BUF_SIZE) with
    | none => ⟨[], .done false⟩
    | some buf =>
      (storedChunks (k + 1) (pos + min bytesLeft BUF_SIZE)
        (bytesLeft - min bytesLeft BUF_SIZE)).after [buf]
termination_by bytesLeft
decreasing_by
  have hsize : 0 < BUF_SIZE := by decide
  omega

/-- The chunks of `processDeflatedEntry`. -/
def deflatedChunks : Nat → Inflating z → Chunked (Option Nat)
  | 0, _ => ⟨[], .spin⟩
  | fuel + 1, s =>
    match refill fd s with
    | .fault => ⟨[], .fault⟩
    | .spin => ⟨[], .spin⟩
    | .done filled =>
      match filled.bind inflateRound with
      | none => ⟨[], .done none⟩
      | some r =>
        (if r.zerr = Z_OK then deflatedChunks fuel r.next
          else ⟨[], .done (some r.next.total_out)⟩).after r.chunk.toList

/-- The contents of an entry. -/
def entryContents (fuel : Nat) (e : ZipEntry) : Chunked Bool :=
  if e.compression = STORED then storedChunks fd 0 (fd.seek e.offset) (toU32 e.compLen)
  else if e.compression = DEFLATED then
    if z.inflateInit2.1 ≠ Z_OK then ⟨[], .done (inflateReturns e none)⟩
    else (deflatedChunks z fd fuel (startInflating z fd e)).map (inflateReturns e)
  else ⟨[], .done false⟩

/-- The return value when the callback refuses a chunk. -/
def refusedReturn (e : ZipEntry) : Bool := e.compression = DEFLATED ∧ e.uncompLen = -1

variable {z fd} {σ : Type} (processFunction : ProcessFunction σ)

theorem storedLoop_eq (k pos bytesLeft : Nat) (cookie : σ) :
    storedLoop fd processFunction k pos bytesLeft cookie =
      feed processFunction (storedChunks fd k pos bytesLeft).ending false
        (storedChunks fd k pos bytesLeft).chunks cookie := by
  induction bytesLeft using Nat.strongRecOn generalizing k pos cookie with
  | _ bytesLeft ih =>
    rw [storedLoop.eq_def, storedChunks.eq_def]
    rcases Nat.eq_zero_or_pos bytesLeft with rfl | hpos
    · rw [if_pos rfl, if_pos rfl]
      rfl
    have hsize : 0 < BUF_SIZE := by decide
    rw [if_neg (by omega), if_neg (by omega)]
    cases fd.read k pos (min bytesLeft BUF_SIZE) with
    | none => rfl
    | some buf =>
      simp only [Chunked.after, List.singleton_append, feed]
      congr 1
      funext ret
      rw [ih _ (by omega)]

theorem deflatedLoop_eq (fuel : Nat) (s : Inflating z) (cookie : σ) :
    deflatedLoop z fd processFunction fuel s cookie =
      feed processFunction (deflatedChunks z fd fuel s).ending none
        (deflatedChunks z fd fuel s).chunks cookie := by
  induction fuel generalizing s cookie with
  | zero => rfl
  | succ fuel ih =>
    rw [deflatedLoop, deflatedChunks]
    cases refill fd s with
    | fault => rfl
    | spin => rfl
    | done filled =>
      rw [Outcome.done_bind]
      dsimp only
      cases filled.bind inflateRound with
      | none => rfl
      | some r =>
        have hrest (cookie : σ) : (if r.zerr = Z_OK then
              deflatedLoop z fd processFunction fuel r.next cookie
              else .done (some r.next.total_out, cookie)) =
            feed processFunction (if r.zerr = Z_OK then deflatedChunks z fd fuel r.next
              else ⟨[], .done (some r.next.total_out)⟩).ending none
              (if r.zerr = Z_OK then deflatedChunks z fd fuel r.next
              else ⟨[], .done (some r.next.total_out)⟩).chunks cookie := by
          split
          · exact ih r.next cookie
          · rfl
        dsimp only
        cases r.chunk with
        | none => exact hrest cookie
        | some data =>
          simp only [deliver, Chunked.after, Option.toList, List.singleton_append, feed, hrest]

theorem feed_map {ρ τ : Type} (f : ρ → τ) (ending : Outcome ρ) (refused : ρ)
    (chunks : List Bytes) (cookie : σ) :
    (do
      let r ← feed processFunction ending refused chunks cookie
      .done (f r.1, r.2)) =
    feed processFunction (do
      let r ← ending
      .done (f r)) (f refused) chunks cookie := by
  induction chunks generalizing cookie with
  | nil => cases ending <;> rfl
  | cons data chunks ih =>
    rw [feed, feed]
    cases processFunction cookie data with
    | fault => rfl
    | spin => rfl
    | done ret =>
      rw [Outcome.done_bind, Outcome.done_bind]
      split
      · rfl
      · exact ih ret.2

/-- The contents, fed to the callback. -/
theorem mzProcessZipEntryContents_eq (fuel : Nat) (e : ZipEntry) (cookie : σ) :
    mzProcessZipEntryContents z fd processFunction fuel e cookie =
      feed processFunction (entryContents z fd fuel e).ending (refusedReturn e)
        (entryContents z fd fuel e).chunks cookie := by
  unfold mzProcessZipEntryContents entryContents
  split
  · rename_i hstored
    rw [processStoredEntry, storedLoop_eq, refusedReturn, hstored]
    rfl
  split
  · rename_i hdeflated
    unfold processDeflatedEntry
    split
    · rfl
    · rw [deflatedLoop_eq, feed_map, refusedReturn, hdeflated]
      simp only [inflateReturns, true_and]
      rfl
  · rfl

end Chunks

theorem storedChunks_ne_nil (fd : Fd) (k pos bytesLeft : Nat) :
    ∀ data ∈ (storedChunks fd k pos bytesLeft).chunks, data ≠ [] := by
  induction bytesLeft using Nat.strongRecOn generalizing k pos with
  | _ bytesLeft ih =>
    have hsize : 0 < BUF_SIZE := by decide
    rw [storedChunks.eq_def]
    split
    · simp
    rename_i hpos
    split
    · simp
    rename_i buf hread
    intro data hdata
    rcases List.mem_append.mp hdata with hhead | htail
    · rw [List.mem_singleton.mp hhead]
      unfold Fd.read at hread
      split at hread
      · rename_i hin
        obtain rfl := Option.some.inj hread
        have hroom : pos + min bytesLeft BUF_SIZE ≤ fd.file.length := by omega
        rw [← List.length_pos_iff, slice_length_of_le hroom]
        omega
      · cases hread
    · exact ih _ (by omega) _ _ data htail

theorem storedChunks_ne_fault (fd : Fd) (k pos bytesLeft : Nat) :
    (storedChunks fd k pos bytesLeft).ending ≠ .fault := by
  induction bytesLeft using Nat.strongRecOn generalizing k pos with
  | _ bytesLeft ih =>
    have hsize : 0 < BUF_SIZE := by decide
    rw [storedChunks.eq_def]
    split
    · simp
    split
    · simp
    · exact ih _ (by omega) _ _

theorem inflateRound_ne_nil {z : Inflate} {s : Inflating z} {r : Round z}
    (h : inflateRound s = some r) : ∀ data ∈ r.chunk.toList, data ≠ [] := by
  unfold inflateRound at h
  dsimp only at h
  split at h
  · cases h
  split at h
  · rename_i hready
    obtain rfl := Option.some.inj h
    intro data hdata
    rw [Option.mem_toList] at hdata
    obtain rfl := Option.some.inj hdata
    rcases hready with hfull | ⟨-, hne⟩
    · rw [← List.length_pos_iff, hfull]
      decide
    · exact hne
  · obtain rfl := Option.some.inj h
    simp

theorem deflatedChunks_ne_nil (z : Inflate) (fd : Fd) (fuel : Nat) (s : Inflating z) :
    ∀ data ∈ (deflatedChunks z fd fuel s).chunks, data ≠ [] := by
  induction fuel generalizing s with
  | zero => simp [deflatedChunks]
  | succ fuel ih =>
    rw [deflatedChunks]
    split
    · simp
    · simp
    rename_i filled hfill
    cases hround : filled.bind inflateRound with
    | none => simp
    | some r =>
      obtain ⟨s', -, hround⟩ := Option.bind_eq_some_iff.mp hround
      intro data hdata
      rcases List.mem_append.mp hdata with hhead | htail
      · exact inflateRound_ne_nil hround data hhead
      · split at htail
        · exact ih r.next data htail
        · cases htail

/-- No chunk is empty: `writeProcessFunction` is never called without data. -/
theorem entryContents_ne_nil (z : Inflate) (fd : Fd) (fuel : Nat) (e : ZipEntry) :
    ∀ data ∈ (entryContents z fd fuel e).chunks, data ≠ [] := by
  unfold entryContents
  split
  · exact storedChunks_ne_nil fd _ _ _
  split
  · split
    · simp
    · exact deflatedChunks_ne_nil z fd fuel _
  · simp

/-! ## The callbacks on a list of chunks -/

section Feed

variable {ρ : Type} (ending : Outcome ρ) (refused : ρ)

/-- What a callback that has taken all chunks leads to. -/
def taken {σ : Type} (cookie : σ) : Outcome (ρ × σ) := do
  let r ← ending
  .done (r, cookie)

/-- `copyProcessFunction` takes chunks that fit. -/
theorem feed_copy (chunks : List Bytes) (copied : Bytes) (bufLen : Int)
    (hne : ∀ data ∈ chunks, data ≠ []) (hle : chunks.flatten.length ≤ bufLen.toNat) :
    ∃ left, feed copyProcessFunction ending refused chunks ⟨copied, bufLen⟩ =
      taken ending ⟨copied ++ chunks.flatten, left⟩ := by
  induction chunks generalizing copied bufLen with
  | nil => exact ⟨bufLen, by rw [List.flatten_nil, List.append_nil]; rfl⟩
  | cons data chunks ih =>
    have hpos := List.length_pos_iff.mpr (hne data List.mem_cons_self)
    rw [List.flatten_cons, List.length_append] at hle
    have hfits : (data.length : Int) ≤ bufLen := by omega
    obtain ⟨left, hrest⟩ := ih (copied ++ data) (bufLen - data.length)
      (fun c hc => hne c (List.mem_cons_of_mem _ hc)) (by omega)
    refine ⟨left, ?_⟩
    rw [feed, copyProcessFunction, if_pos hfits, Outcome.done_bind]
    rw [List.flatten_cons, ← List.append_assoc]
    exact hrest

/-- `bufferProcessFunction` stays inside a buffer that holds all chunks. -/
theorem feed_buffer (size : Nat) (chunks : List Bytes) (written : Bytes) (len : Int)
    (hle : written.length + chunks.flatten.length ≤ size)
    (hlow : -2 ^ 31 ≤ len - chunks.flatten.length) (hhigh : len < 2 ^ 31) :
    feed (bufferProcessFunction size) ending refused chunks ⟨written, len⟩ =
      taken ending ⟨written ++ chunks.flatten, len - chunks.flatten.length⟩ := by
  induction chunks generalizing written len with
  | nil =>
    rw [List.flatten_nil, List.append_nil, List.length_nil, Nat.cast_zero, Int.sub_zero]
    rfl
  | cons data chunks ih =>
    rw [List.flatten_cons, List.length_append] at hle hlow
    have hwrap : wrap32 (len - data.length) = len - data.length :=
      wrap32_of_range (by omega) (by omega)
    have hrest := ih (written ++ data) (len - data.length)
      (by rw [List.length_append]; omega) (by omega) (by omega)
    rw [feed, bufferProcessFunction, if_pos (by dsimp only; omega), Outcome.done_bind]
    dsimp only
    rw [hwrap, List.flatten_cons, ← List.append_assoc, List.length_append]
    rw [show len - ((data.length + chunks.flatten.length : Nat) : Int) =
      len - data.length - chunks.flatten.length by omega]
    exact hrest

/-- It writes behind the end of a buffer that does not. -/
theorem feed_buffer_fault (size : Nat) (chunks : List Bytes) (written : Bytes) (len : Int)
    (hin : written.length ≤ size) (hlt : size < written.length + chunks.flatten.length) :
    feed (bufferProcessFunction size) ending refused chunks ⟨written, len⟩ = .fault := by
  induction chunks generalizing written len with
  | nil =>
    rw [List.flatten_nil, List.length_nil] at hlt
    omega
  | cons data chunks ih =>
    rw [feed, bufferProcessFunction]
    dsimp only
    split
    · rename_i hfits
      rw [List.flatten_cons, List.length_append] at hlt
      refine ih (written ++ data) _ ?_ ?_
      · rw [List.length_append]
        exact hfits
      · rw [List.length_append]
        omega
    · rfl

/-- Without a failing call `write` is called until all data is written. -/
theorem writeLoop_complete (script : List WriteResult) (data : Bytes)
    (hok : ∀ r ∈ script, r ≠ .failed) :
    ∃ script', writeLoop script data = (true, data, script') ∧ ∀ r ∈ script', r ≠ .failed := by
  induction script generalizing data with
  | nil => exact ⟨[], rfl, hok⟩
  | cons r script ih =>
    have hrest := fun r hr => hok r (List.mem_cons_of_mem _ hr)
    cases r with
    | failed => exact absurd rfl (hok .failed List.mem_cons_self)
    | interrupted => exact ih data hrest
    | wrote n =>
      rw [writeLoop]
      split
      · exact ⟨script, rfl, hrest⟩
      · obtain ⟨script', hloop, hok'⟩ := ih (data.drop (n + 1)) hrest
        refine ⟨script', ?_, hok'⟩
        rw [hloop]
        simp

/-- `writeProcessFunction` takes all chunks when no call of `write` fails. -/
theorem feed_write (chunks : List Bytes) (written : Bytes) (script : List WriteResult)
    (hne : ∀ data ∈ chunks, data ≠ []) (hok : ∀ r ∈ script, r ≠ .failed) :
    ∃ script', feed writeProcessFunction ending refused chunks ⟨written, script⟩ =
      taken ending ⟨written ++ chunks.flatten, script'⟩ := by
  induction chunks generalizing written script with
  | nil => exact ⟨script, by rw [List.flatten_nil, List.append_nil]; rfl⟩
  | cons data chunks ih =>
    obtain ⟨script₁, hloop, hok₁⟩ := writeLoop_complete script data hok
    obtain ⟨script₂, hrest⟩ := ih (written ++ data) script₁
      (fun c hc => hne c (List.mem_cons_of_mem _ hc)) hok₁
    refine ⟨script₂, ?_⟩
    rw [feed, writeProcessFunction, if_neg (hne data List.mem_cons_self)]
    dsimp only
    rw [hloop, Outcome.done_bind, List.flatten_cons, ← List.append_assoc]
    exact hrest

end Feed

/-! ## A size that `read` returns for an error -/

/-- After a read the size that is left is not negative. -/
theorem refill_compRemaining {z : Inflate} {fd : Fd} {s : Inflating z}
    (hs : s.compRemaining ≠ -1) : ∃ filled, refill fd s = .done filled ∧
      ∀ s', filled = some s' → s'.compRemaining ≠ -1 := by
  unfold refill
  split
  · exact ⟨some s, rfl, by rintro s' ⟨⟩; exact hs⟩
  dsimp only
  have hsize : (0 : Int) < BUF_SIZE := by decide
  rw [if_neg (by omega)]
  split
  · exact ⟨none, rfl, by rintro s' ⟨⟩⟩
  cases fd.read s.reads s.pos (min s.compRemaining BUF_SIZE).toNat with
  | none => exact ⟨none, rfl, by rintro s' ⟨⟩⟩
  | some buf =>
    refine ⟨_, rfl, ?_⟩
    rintro s' ⟨⟩
    dsimp only
    omega

theorem inflateRound_compRemaining {z : Inflate} {s : Inflating z} {r : Round z}
    (h : inflateRound s = some r) : r.next.compRemaining = s.compRemaining := by
  unfold inflateRound at h
  dsimp only at h
  split at h
  · cases h
  split at h
  · obtain rfl := Option.some.inj h
    rfl
  · obtain rfl := Option.some.inj h
    rfl

theorem deflatedChunks_ne_fault {z : Inflate} {fd : Fd} (fuel : Nat) (s : Inflating z)
    (hs : s.compRemaining ≠ -1) : (deflatedChunks z fd fuel s).ending ≠ .fault := by
  induction fuel generalizing s with
  | zero => simp [deflatedChunks]
  | succ fuel ih =>
    obtain ⟨filled, hfill, hleft⟩ := @refill_compRemaining z fd s hs
    rw [deflatedChunks, hfill]
    dsimp only
    cases hround : filled.bind inflateRound with
    | none => simp
    | some r =>
      obtain ⟨s', hs', hround⟩ := Option.bind_eq_some_iff.mp hround
      dsimp only [Chunked.after]
      split
      · exact ih r.next (by rw [inflateRound_compRemaining hround]; exact hleft s' hs')
      · simp

/-- The size of a compressed entry is not the value that `read` returns for an error. -/
def CompLenReadable (z : Inflate) (e : ZipEntry) : Prop :=
  e.compression = DEFLATED → z.inflateInit2.1 = Z_OK → e.compLen ≠ -1

theorem entryContents_ne_fault {z : Inflate} {fd : Fd} {e : ZipEntry} :
    (∀ fuel, (entryContents z fd fuel e).ending ≠ .fault) ↔ CompLenReadable z e := by
  constructor
  · intro hall hdeflated hinit hcomp
    refine hall 1 ?_
    have hrefill : refill fd (startInflating z fd e) = .fault := by
      simp [refill, startInflating, hcomp, BUF_SIZE]
    unfold entryContents
    rw [if_neg (by rw [hdeflated]; decide), if_pos hdeflated, if_neg (not_not.mpr hinit)]
    rw [deflatedChunks, hrefill]
    rfl
  · intro hcomp fuel
    unfold entryContents
    split
    · exact storedChunks_ne_fault fd _ _ _
    split
    · rename_i hdeflated
      split
      · simp
      · rename_i hinit
        have hend := @deflatedChunks_ne_fault z fd fuel (startInflating z fd e)
          (hcomp hdeflated (not_not.mp hinit))
        dsimp only [Chunked.map]
        cases hcase : (deflatedChunks z fd fuel (startInflating z fd e)).ending with
        | done r => simp
        | spin => simp
        | fault => exact absurd hcase hend
    · simp

/-! ## The buffer -/

/-- The condition on an entry: the directory announces enough room for the contents. -/
structure BufferFits (z : Inflate) (fd : Fd) (e : ZipEntry) : Prop where
  room : ∀ fuel, (entryContents z fd fuel e).data.length ≤ e.uncompLen.toNat
  compLen : CompLenReadable z e

/-- What is asked for: no byte is written past the buffer, and the return value is true only if
the buffer is filled. -/
def FillsBuffer (z : Inflate) (fd : Fd) (e : ZipEntry) : Prop :=
  ∀ fuel, mzExtractZipEntryToBuffer z fd fuel e ≠ .fault ∧
    ∀ written, mzExtractZipEntryToBuffer z fd fuel e = .done (true, written) →
      (written.length : Int) = e.uncompLen

/-- The run with a buffer that holds the contents. -/
theorem mzExtractZipEntryToBuffer_eq {z : Inflate} {fd : Fd} {fuel : Nat} {e : ZipEntry}
    (he : e.InRange) (hroom : (entryContents z fd fuel e).data.length ≤ e.uncompLen.toNat) :
    mzExtractZipEntryToBuffer z fd fuel e =
      (entryContents z fd fuel e).ending.bind fun r =>
        .done (r && e.uncompLen - (entryContents z fd fuel e).data.length == 0,
          (entryContents z fd fuel e).data) := by
  have hrange := he.uncompLen
  unfold Chunked.data at hroom
  unfold mzExtractZipEntryToBuffer
  rw [mzProcessZipEntryContents_eq, feed_buffer _ _ _ _ _ _
    (by rw [List.length_nil, Nat.zero_add]; exact hroom) (by omega) (by omega)]
  unfold taken Chunked.data
  cases (entryContents z fd fuel e).ending <;> rfl

theorem mzExtractZipEntryToBuffer_fault {z : Inflate} {fd : Fd} {fuel : Nat} {e : ZipEntry}
    (hroom : e.uncompLen.toNat < (entryContents z fd fuel e).data.length) :
    mzExtractZipEntryToBuffer z fd fuel e = .fault := by
  unfold Chunked.data at hroom
  unfold mzExtractZipEntryToBuffer
  rw [mzProcessZipEntryContents_eq, feed_buffer_fault _ _ _ _ _ _ (Nat.zero_le _)
    (by rw [List.length_nil, Nat.zero_add]; exact hroom)]
  rfl

/-- Extracting to a buffer of the announced size is safe exactly for the entries whose contents
fit. -/
theorem extract_to_buffer_iff {m : MemMapping} {a : ZipArchive}
    (h : parseZipArchive m = .done (some a)) {e : ZipEntry} (he : e ∈ a.pEntries) (z : Inflate)
    (oldOff : Nat) (io : Nat → Bool) :
    FillsBuffer z ⟨m.bytes, oldOff, io⟩ e ↔ BufferFits z ⟨m.bytes, oldOff, io⟩ e := by
  obtain ⟨rfl, records, hacc⟩ := parseZipArchive_spec h
  obtain ⟨ptr, next, hread⟩ := hacc.read he
  have hrange := readEntry_inRange hread
  constructor
  · intro hall
    have hroom : ∀ fuel, (entryContents z ⟨a.map.bytes, oldOff, io⟩ fuel e).data.length ≤
        e.uncompLen.toNat := by
      intro fuel
      by_contra hlt
      exact (hall fuel).1 (mzExtractZipEntryToBuffer_fault (Nat.lt_of_not_le hlt))
    refine ⟨hroom, (@entryContents_ne_fault z ⟨a.map.bytes, oldOff, io⟩ e).mp ?_⟩
    intro fuel hfault
    apply (hall fuel).1
    rw [mzExtractZipEntryToBuffer_eq hrange (hroom fuel), hfault]
    rfl
  · intro hfits fuel
    rw [mzExtractZipEntryToBuffer_eq hrange (hfits.room fuel)]
    have hend := (@entryContents_ne_fault z ⟨a.map.bytes, oldOff, io⟩ e).mpr hfits.compLen fuel
    cases hcase : (entryContents z ⟨a.map.bytes, oldOff, io⟩ fuel e).ending with
    | fault => exact absurd hcase hend
    | spin => simp [Outcome.bind]
    | done r =>
      refine ⟨by simp [Outcome.bind], ?_⟩
      intro written hrun
      have hpair := Outcome.done.inj hrun
      obtain ⟨hret, rfl⟩ := Prod.mk.inj hpair
      have hzero := beq_iff_eq.mp (Bool.and_eq_true_iff.mp hret).2
      omega

/-! ## A stored entry of one buffer -/

/-- A readable stored entry of at most one buffer is one chunk. -/
theorem storedChunks_one {file : Bytes} {oldOff k pos n : Nat} (hpos : 0 < n) (hsize : n ≤ BUF_SIZE)
    (hin : pos + n ≤ file.length) :
    storedChunks ⟨file, oldOff, fun _ => true⟩ k pos n = ⟨[slice file pos n], .done true⟩ := by
  have hread : Fd.read ⟨file, oldOff, fun _ => true⟩ k pos n = some (slice file pos n) :=
    if_pos ⟨rfl, .inr hin⟩
  rw [storedChunks.eq_def, if_neg (by omega), Nat.min_eq_left hsize, hread, Nat.sub_self]
  dsimp only
  rw [storedChunks.eq_def, if_pos rfl]
  rfl

/-- One byte is stored, none is announced. -/
def overrunMapping : MemMapping :=
  ⟨0x40000000, storedArchive [0x78] 0, sampleAddr_pos, by decide⟩

def overrunEntry : ZipEntry := ⟨1, 0x4000004e, 31, 1, 0, STORED, 0, 0, 0, 0⟩

/-- The contents of a stored entry of at most one buffer. -/
theorem entryContents_one {z : Inflate} {file : Bytes} {oldOff fuel n pos : Nat} {e : ZipEntry}
    (hstored : e.compression = STORED) (hlen : toU32 e.compLen = n) (hoffset : e.offset = pos)
    (hpos : 0 < n) (hsize : n ≤ BUF_SIZE) (hin : pos + n ≤ file.length) :
    entryContents z ⟨file, oldOff, fun _ => true⟩ fuel e = ⟨[slice file pos n], .done true⟩ := by
  have hseek : Fd.seek ⟨file, oldOff, fun _ => true⟩ e.offset = pos := by
    rw [hoffset, Fd.seek, if_pos (Int.natCast_nonneg pos), Int.toNat_natCast]
  rw [entryContents, if_pos hstored, hlen, hseek, storedChunks_one hpos hsize hin]

/-- The byte is written past the buffer. -/
theorem extract_to_buffer_overruns :
    ∃ a, parseZipArchive overrunMapping = .done (some a) ∧ overrunEntry ∈ a.pEntries ∧
      ∀ z, ¬ FillsBuffer z ⟨overrunMapping.bytes, 0, fun _ => true⟩ overrunEntry := by
  obtain ⟨a, hparse, hl⟩ :=
    @entries_of_value overrunMapping [overrunEntry] (by decide +kernel)
  refine ⟨a, hparse, by rw [hl]; exact List.mem_cons_self, ?_⟩
  intro z hall
  refine (hall 0).1 (mzExtractZipEntryToBuffer_fault ?_)
  rw [@entryContents_one z _ 0 0 1 31 overrunEntry rfl (by unfold toU32; rfl) rfl (by decide)
    (by decide) (by decide)]
  decide

/-- Two bytes are stored and announced. -/
def exactMapping : MemMapping :=
  ⟨0x40000000, storedArchive [0x78, 0x79] 2, sampleAddr_pos, by decide⟩

def exactEntry : ZipEntry := ⟨1, 0x4000004f, 31, 2, 2, STORED, 0, 0, 0, 0⟩

theorem extract_to_buffer_iff_exact :
    ∃ a, parseZipArchive exactMapping = .done (some a) ∧ exactEntry ∈ a.pEntries ∧
      ∀ z, FillsBuffer z ⟨exactMapping.bytes, 0, fun _ => true⟩ exactEntry ↔
        BufferFits z ⟨exactMapping.bytes, 0, fun _ => true⟩ exactEntry := by
  obtain ⟨a, hparse, hl⟩ := @entries_of_value exactMapping [exactEntry] (by decide +kernel)
  have hmem : exactEntry ∈ a.pEntries := by
    rw [hl]
    exact List.mem_cons_self
  exact ⟨a, hparse, hmem, fun z => extract_to_buffer_iff hparse hmem z 0 _⟩

/-! ## The three paths -/

/-- A run that is given enough steps returns `r`. -/
def Returns {α : Type} (run : Nat → Outcome α) (r : α) : Prop := ∃ fuel, run fuel = .done r

/-- What is asked for: the three functions all fail, or all succeed with the same bytes, that are
as many as the directory announces. -/
def PathsAgree (z : Inflate) (fd : Fd) (e : ZipEntry) (script : List WriteResult) : Prop :=
  (∃ copied written stored,
    Returns (fun fuel => mzReadZipEntry z fd fuel e e.uncompLen) (false, copied) ∧
    Returns (fun fuel => mzExtractZipEntryToBuffer z fd fuel e) (false, written) ∧
    Returns (fun fuel => mzExtractZipEntryToFile z fd fuel e script) (false, stored)) ∨
  ∃ data : Bytes, (data.length : Int) = e.uncompLen ∧
    Returns (fun fuel => mzReadZipEntry z fd fuel e e.uncompLen) (true, data) ∧
    Returns (fun fuel => mzExtractZipEntryToBuffer z fd fuel e) (true, data) ∧
    Returns (fun fuel => mzExtractZipEntryToFile z fd fuel e script) (true, data)

/-- The condition on an entry: its contents fit, and when the decoder is content with them they
are as long as the directory announces. -/
structure Consistent (e : ZipEntry) (contents : Chunked Bool) (ret : Bool) : Prop where
  ending : contents.ending = .done ret
  room : contents.data.length ≤ e.uncompLen.toNat
  exact : ret = true → (contents.data.length : Int) = e.uncompLen

theorem mzReadZipEntry_eq {z : Inflate} {fd : Fd} {fuel : Nat} {e : ZipEntry}
    (hroom : (entryContents z fd fuel e).data.length ≤ e.uncompLen.toNat) :
    mzReadZipEntry z fd fuel e e.uncompLen =
      (entryContents z fd fuel e).ending.bind fun r =>
        .done (r, (entryContents z fd fuel e).data) := by
  unfold Chunked.data at hroom
  obtain ⟨left, hfeed⟩ := feed_copy (entryContents z fd fuel e).ending (refusedReturn e)
    (entryContents z fd fuel e).chunks [] e.uncompLen (entryContents_ne_nil z fd fuel e) hroom
  unfold mzReadZipEntry
  rw [mzProcessZipEntryContents_eq, hfeed]
  unfold taken Chunked.data
  cases (entryContents z fd fuel e).ending <;> rfl

theorem mzExtractZipEntryToFile_eq {z : Inflate} {fd : Fd} {fuel : Nat} {e : ZipEntry}
    {script : List WriteResult} (hok : ∀ r ∈ script, r ≠ .failed) :
    mzExtractZipEntryToFile z fd fuel e script =
      (entryContents z fd fuel e).ending.bind fun r =>
        .done (r, (entryContents z fd fuel e).data) := by
  obtain ⟨script', hfeed⟩ := feed_write (entryContents z fd fuel e).ending (refusedReturn e)
    (entryContents z fd fuel e).chunks [] script (entryContents_ne_nil z fd fuel e) hok
  unfold mzExtractZipEntryToFile
  rw [mzProcessZipEntryContents_eq, hfeed]
  unfold taken Chunked.data
  cases (entryContents z fd fuel e).ending <;> rfl

theorem deflatedChunks_add {z : Inflate} {fd : Fd} (fuel k : Nat) (s : Inflating z)
    (h : (deflatedChunks z fd fuel s).ending ≠ .spin) :
    deflatedChunks z fd (fuel + k) s = deflatedChunks z fd fuel s := by
  induction fuel generalizing s with
  | zero => exact absurd rfl h
  | succ fuel ih =>
    rw [Nat.add_right_comm, deflatedChunks, deflatedChunks]
    rw [deflatedChunks] at h
    cases hfill : refill fd s with
    | fault => rfl
    | spin => rfl
    | done filled =>
      simp only [hfill] at h ⊢
      cases hround : filled.bind inflateRound with
      | none => rfl
      | some r =>
        simp only [hround, Chunked.after] at h ⊢
        split
        · rename_i hok
          rw [if_pos hok] at h
          rw [ih r.next h]
        · rfl

/-- Once the decoder has come to an end, more steps change nothing. -/
theorem entryContents_add {z : Inflate} {fd : Fd} {e : ZipEntry} (fuel k : Nat)
    (h : (entryContents z fd fuel e).ending ≠ .spin) :
    entryContents z fd (fuel + k) e = entryContents z fd fuel e := by
  unfold entryContents at h ⊢
  split
  · rfl
  split
  · rename_i hstored hdeflated
    split
    · rfl
    · rename_i hinit
      rw [if_neg hstored, if_pos hdeflated, if_neg hinit] at h
      rw [deflatedChunks_add fuel k _ ?_]
      intro hspin
      apply h
      rw [Chunked.map, hspin]
      rfl
  · rfl

theorem entryContents_unique {z : Inflate} {fd : Fd} {e : ZipEntry} {fuel fuel' : Nat}
    {r r' : Bool} (h : (entryContents z fd fuel e).ending = .done r)
    (h' : (entryContents z fd fuel' e).ending = .done r') :
    entryContents z fd fuel e = entryContents z fd fuel' e := by
  rcases Nat.le_total fuel fuel' with hle | hle
  · obtain ⟨k, rfl⟩ := Nat.exists_eq_add_of_le hle
    exact (entryContents_add fuel k (by rw [h]; exact nofun)).symm
  · obtain ⟨k, rfl⟩ := Nat.exists_eq_add_of_le hle
    exact entryContents_add fuel' k (by rw [h']; exact nofun)

/-- A return of `mzExtractZipEntryToBuffer` says that the contents fit. -/
theorem mzExtractZipEntryToBuffer_returns {z : Inflate} {fd : Fd} {fuel : Nat} {e : ZipEntry}
    {r : Bool × Bytes} (he : e.InRange) (h : mzExtractZipEntryToBuffer z fd fuel e = .done r) :
    (entryContents z fd fuel e).data.length ≤ e.uncompLen.toNat ∧
      ∃ ret, (entryContents z fd fuel e).ending = .done ret := by
  have hroom : (entryContents z fd fuel e).data.length ≤ e.uncompLen.toNat := by
    by_contra hlt
    rw [mzExtractZipEntryToBuffer_fault (Nat.lt_of_not_le hlt)] at h
    cases h
  rw [mzExtractZipEntryToBuffer_eq he hroom] at h
  obtain ⟨ret, hret, -⟩ := Outcome.bind_eq_done.mp h
  exact ⟨hroom, ret, hret⟩

/-- A return of `mzExtractZipEntryToFile` is that of the decoder. -/
theorem mzExtractZipEntryToFile_returns {z : Inflate} {fd : Fd} {fuel : Nat} {e : ZipEntry}
    {script : List WriteResult} {r : Bool × Bytes} (hok : ∀ r ∈ script, r ≠ .failed)
    (h : mzExtractZipEntryToFile z fd fuel e script = .done r) :
    (entryContents z fd fuel e).ending = .done r.1 ∧ r.2 = (entryContents z fd fuel e).data := by
  rw [mzExtractZipEntryToFile_eq hok] at h
  obtain ⟨ret, hret, hval⟩ := Outcome.bind_eq_done.mp h
  obtain rfl := Outcome.done.inj hval
  exact ⟨hret, rfl⟩

/-- Without failing reads and writes, the three functions agree exactly on the entries whose
directory record is consistent with the contents. -/
theorem extraction_paths_iff {m : MemMapping} {a : ZipArchive}
    (h : parseZipArchive m = .done (some a)) {e : ZipEntry} (he : e ∈ a.pEntries) (z : Inflate)
    (oldOff : Nat) (script : List WriteResult) (hok : ∀ r ∈ script, r ≠ .failed) :
    PathsAgree z ⟨m.bytes, oldOff, fun _ => true⟩ e script ↔
      ∃ fuel ret,
        Consistent e (entryContents z ⟨m.bytes, oldOff, fun _ => true⟩ fuel e) ret := by
  obtain ⟨rfl, records, hacc⟩ := parseZipArchive_spec h
  obtain ⟨ptr, next, hread⟩ := hacc.read he
  have hrange := readEntry_inRange hread
  constructor
  · rintro (⟨copied, written, stored, -, ⟨fuel, hbuffer⟩, fuel', hfile⟩ |
      ⟨data, hlen, -, ⟨fuel, hbuffer⟩, fuel', hfile⟩)
    · obtain ⟨hroom, ret, hend⟩ := mzExtractZipEntryToBuffer_returns hrange hbuffer
      obtain ⟨hend', -⟩ := mzExtractZipEntryToFile_returns hok hfile
      rw [entryContents_unique hend hend'] at hroom
      exact ⟨fuel', false, hend', hroom, nofun⟩
    · obtain ⟨hroom, ret, hend⟩ := mzExtractZipEntryToBuffer_returns hrange hbuffer
      obtain ⟨hend', hdata⟩ := mzExtractZipEntryToFile_returns hok hfile
      rw [entryContents_unique hend hend'] at hroom
      refine ⟨fuel', true, hend', hroom, fun _ => ?_⟩
      rw [← hdata]
      exact hlen
  · rintro ⟨fuel, ret, hend, hroom, hexact⟩
    have hcopy := mzReadZipEntry_eq hroom
    have hbuffer := mzExtractZipEntryToBuffer_eq hrange hroom
    have hfile := @mzExtractZipEntryToFile_eq z ⟨a.map.bytes, oldOff, fun _ => true⟩ fuel e _ hok
    rw [hend] at hcopy hbuffer hfile
    cases ret with
    | false => exact .inl ⟨_, _, _, ⟨fuel, hcopy⟩, ⟨fuel, hbuffer⟩, ⟨fuel, hfile⟩⟩
    | true =>
      have hlen := hexact rfl
      refine .inr ⟨_, hlen, ⟨fuel, hcopy⟩, ⟨fuel, hbuffer.trans ?_⟩, ⟨fuel, hfile⟩⟩
      rw [Outcome.bind, hlen, Int.sub_self]
      rfl

/-- One byte is stored, two are announced. -/
def shortMapping : MemMapping :=
  ⟨0x40000000, storedArchive [0x78] 2, sampleAddr_pos, by decide⟩

def shortEntry : ZipEntry := ⟨1, 0x4000004e, 31, 1, 2, STORED, 0, 0, 0, 0⟩

/-- `mzReadZipEntry` succeeds with one byte, and `mzExtractZipEntryToBuffer` fails. -/
theorem extraction_paths_disagree :
    ∃ a, parseZipArchive shortMapping = .done (some a) ∧ shortEntry ∈ a.pEntries ∧
      ∀ z, mzReadZipEntry z ⟨shortMapping.bytes, 0, fun _ => true⟩ 0 shortEntry 2 =
          .done (true, [0x78]) ∧
        mzExtractZipEntryToBuffer z ⟨shortMapping.bytes, 0, fun _ => true⟩ 0 shortEntry =
          .done (false, [0x78]) ∧
        ¬ PathsAgree z ⟨shortMapping.bytes, 0, fun _ => true⟩ shortEntry [] := by
  obtain ⟨a, hparse, hl⟩ := @entries_of_value shortMapping [shortEntry] (by decide +kernel)
  refine ⟨a, hparse, by rw [hl]; exact List.mem_cons_self, ?_⟩
  intro z
  have hslice : slice shortMapping.bytes 31 1 = [0x78] := by decide
  have hcontents (fuel : Nat) : entryContents z ⟨shortMapping.bytes, 0, fun _ => true⟩ fuel
      shortEntry = ⟨[[0x78]], .done true⟩ := by
    rw [@entryContents_one z _ 0 fuel 1 31 shortEntry rfl (by unfold toU32; rfl) rfl (by decide)
      (by decide) (by decide), hslice]
  have hrange : shortEntry.InRange := ⟨by decide, by decide, by decide⟩
  have hroom (fuel : Nat) : (entryContents z ⟨shortMapping.bytes, 0, fun _ => true⟩ fuel
      shortEntry).data.length ≤ shortEntry.uncompLen.toNat := by
    rw [hcontents]
    decide
  have hcopy (fuel : Nat) : mzReadZipEntry z ⟨shortMapping.bytes, 0, fun _ => true⟩ fuel shortEntry
      2 = .done (true, [0x78]) := by
    refine (mzReadZipEntry_eq (hroom fuel)).trans ?_
    rw [hcontents]
    rfl
  have hbuffer (fuel : Nat) : mzExtractZipEntryToBuffer z ⟨shortMapping.bytes, 0, fun _ => true⟩
      fuel shortEntry = .done (false, [0x78]) := by
    rw [mzExtractZipEntryToBuffer_eq hrange (hroom fuel), hcontents]
    rfl
  refine ⟨hcopy 0, hbuffer 0, ?_⟩
  rintro (⟨_, _, _, ⟨fuel, hread⟩, -⟩ | ⟨_, -, -, ⟨fuel, hwrite⟩, -⟩)
  · cases (hcopy fuel).symm.trans hread
  · cases (hbuffer fuel).symm.trans hwrite

theorem extraction_paths_iff_exact :
    ∃ a, parseZipArchive exactMapping = .done (some a) ∧ exactEntry ∈ a.pEntries ∧
      ∀ z, PathsAgree z ⟨exactMapping.bytes, 0, fun _ => true⟩ exactEntry [.interrupted] ↔
        ∃ fuel ret, Consistent exactEntry
          (entryContents z ⟨exactMapping.bytes, 0, fun _ => true⟩ fuel exactEntry) ret := by
  obtain ⟨a, hparse, hl⟩ := @entries_of_value exactMapping [exactEntry] (by decide +kernel)
  have hmem : exactEntry ∈ a.pEntries := by
    rw [hl]
    exact List.mem_cons_self
  exact ⟨a, hparse, hmem, fun z => extraction_paths_iff hparse hmem z 0 [.interrupted] (by decide)⟩

end BootableRecovery.Minzip
