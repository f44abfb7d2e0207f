import BootableRecovery.Lib.Blocks

/-!
# `mtdutils/mtdutils.c`: the buffers

`mtd_write_data` and `mtd_read_data` turn calls of any length into whole blocks. Here
they are written over any `write_block` and any `read_block`: what these do with a block
and when they fail is left open, and a failed call leaves its state behind. `fd` is the
state that the calls of `write_block` or `read_block` change, `size` the erase size.

Main results:
* `mtd_write_data_eq`, `writeAndClose_eq`: the blocks that are passed to `write_block` are
  those of the whole stream, up to the first that fails.
* `mtd_read_data_takes`: what is read is the next part of the stream of blocks.
* `readPieces_eq`: the pieces of a read are together the same bytes, however it is cut.
* `mtd_read_data_holds`: when there are enough blocks for a read, and when it fails.
-/

namespace BootableRecovery.Mtdutils.Stream

variable {σ : Type}

/-! ## Writing -/

/-- `MtdWriteContext`; `buffer` is its stored part. -/
structure WriteContext (σ : Type) where
  buffer : Bytes
  fd : σ

section Write

variable (size : Nat) (write_block : σ → Bytes → Outcome (Bool × σ))

/-- The inner loop of `mtd_write_data`: complete blocks are written from the user's
buffer. The result has the data that is left. -/
def writeWhole : Nat → WriteContext σ → Bytes → Outcome (Bool × WriteContext σ × Bytes)
  | fuel, ctx, rest =>
    if ctx.buffer.length = 0 ∧ size ≤ rest.length then
      match fuel with
      | 0 => .spin
      | fuel + 1 => do
        let (ok, fd) ← write_block ctx.fd (rest.take size)
        if ok then writeWhole fuel { ctx with fd := fd } (rest.drop size)
        else .done (false, { ctx with fd := fd }, rest)
    else .done (true, ctx, rest)

/-- Coalesce partial writes into complete blocks. -/
def coalesce (ctx : WriteContext σ) (rest : Bytes) : WriteContext σ × Bytes :=
  if 0 < ctx.buffer.length ∨ rest.length < size then
    let avail := size - ctx.buffer.length
    let copy := if rest.length < avail then rest.length else avail
    ({ ctx with buffer := ctx.buffer ++ rest.take copy }, rest.drop copy)
  else (ctx, rest)

/-- If a complete block was accumulated, write it. -/
def flushFull (ctx : WriteContext σ) : Outcome (Bool × WriteContext σ) :=
  if ctx.buffer.length = size then do
    let (ok, fd) ← write_block ctx.fd ctx.buffer
    .done (ok, ⟨if ok then [] else ctx.buffer, fd⟩)
  else .done (true, ctx)

/-- The loop of `mtd_write_data` over the data that is not written yet. -/
def writeDataLoop : Nat → WriteContext σ → Bytes → Outcome (Bool × WriteContext σ)
  | fuel, ctx, rest =>
    if 0 < rest.length then
      match fuel with
      | 0 => .spin
      | fuel + 1 => do
        let copied := coalesce size ctx rest
        let (ok, ctx) ← flushFull size write_block copied.1
        if !ok then .done (false, ctx)
        else
          let (ok, ctx, rest) ← writeWhole size write_block copied.2.length ctx copied.2
          if !ok then .done (false, ctx) else writeDataLoop fuel ctx rest
    else .done (true, ctx)

/-- `mtd_write_data`; `false` is the return value -1, else all the data was taken. -/
def mtd_write_data (ctx : WriteContext σ) (data : Bytes) : Outcome (Bool × WriteContext σ) :=
  writeDataLoop size write_block data.length ctx data

/-- The start of `mtd_erase_blocks`: zero-pad and write any pending data. -/
def flushPending (ctx : WriteContext σ) : Outcome (Bool × WriteContext σ) :=
  if 0 < ctx.buffer.length then do
    let (ok, fd) ← write_block ctx.fd
      (ctx.buffer ++ List.replicate (size - ctx.buffer.length) 0)
    .done (ok, ⟨if ok then [] else ctx.buffer, fd⟩)
  else .done (true, ctx)

/-- Calls of `mtd_write_data` with the pieces of the data, up to the first that fails. -/
def writePieces : List Bytes → WriteContext σ → Outcome (Bool × WriteContext σ)
  | [], ctx => .done (true, ctx)
  | piece :: pieces, ctx => do
    let (ok, ctx) ← mtd_write_data size write_block ctx piece
    if ok then writePieces pieces ctx else .done (false, ctx)

/-- `mtd_write_close`; `finish` is what it does after it has written what was pending. -/
def mtd_write_close (finish : σ → Bool × σ) (ctx : WriteContext σ) : Outcome (Bool × σ) := do
  let (ok, ctx) ← flushPending size write_block ctx
  if !ok then .done (false, ctx.fd) else .done (finish ctx.fd)

/-- Write the pieces and close. -/
def writeAndClose (finish : σ → Bool × σ) (pieces : List Bytes) (fd : σ) :
    Outcome (Bool × σ) := do
  let (ok, ctx) ← writePieces size write_block pieces ⟨[], fd⟩
  if !ok then .done (false, ctx.fd) else mtd_write_close size write_block finish ctx

/-! ## The blocks that are written -/

/-- Write blocks up to the first that fails. -/
def feed : List Bytes → σ → Outcome (Bool × σ)
  | [], fd => .done (true, fd)
  | d :: ds, fd => do
    let (ok, fd) ← write_block fd d
    if ok then feed ds fd else .done (false, fd)

/-- What a caller goes on with after a call: the context, or after a failure the
descriptor. -/
def settle : Bool × WriteContext σ → σ ⊕ WriteContext σ
  | (true, ctx) => .inr ctx
  | (false, ctx) => .inl ctx.fd

def settled (r : Outcome (Bool × WriteContext σ)) : Outcome (σ ⊕ WriteContext σ) := do
  let r ← r
  .done (settle r)

/-- Go on with the descriptor that was reached, if no block failed. -/
def andThen {α : Type} (r : Outcome (Bool × σ)) (f : σ → Outcome (σ ⊕ α)) : Outcome (σ ⊕ α) := do
  let (ok, fd) ← r
  if ok then f fd else .done (.inl fd)

/-- The effect of `mtd_write_data` on a stream, the pending data included: its whole blocks
are written, and the rest is kept in the buffer. -/
def writeStream (fd : σ) (stream : Bytes) : Outcome (σ ⊕ WriteContext σ) :=
  andThen (feed write_block (wholeBlocks size stream) fd) fun fd =>
    .done (.inr ⟨partialBlock size stream, fd⟩)

variable {size write_block}

theorem feed_append (ds ds' : List Bytes) (fd : σ) :
    feed write_block (ds ++ ds') fd = (do
      let (ok, fd) ← feed write_block ds fd
      if ok then feed write_block ds' fd else .done (false, fd)) := by
  induction ds generalizing fd with
  | nil => rfl
  | cons d ds ih =>
    rw [List.cons_append, feed, feed]
    cases write_block fd d with
    | done r =>
      obtain ⟨ok, fd'⟩ := r
      cases ok with
      | true => exact ih fd'
      | false => rfl
    | fault => rfl
    | spin => rfl

theorem writeStream_of_lt {stream : Bytes} (h : stream.length < size) (fd : σ) :
    writeStream size write_block fd stream = .done (.inr ⟨stream, fd⟩) := by
  rw [writeStream, wholeBlocks_of_lt h, partialBlock_of_lt h]
  rfl

/-- The first block of a stream. -/
theorem writeStream_cons (hsize : 0 < size) {d : Bytes} (hd : d.length = size) (rest : Bytes)
    (fd : σ) : writeStream size write_block fd (d ++ rest) =
      andThen (write_block fd d) fun fd => writeStream size write_block fd rest := by
  rw [writeStream, wholeBlocks_cons hsize hd, partialBlock_cons hsize hd, feed]
  cases write_block fd d with
  | done r =>
    obtain ⟨ok, fd'⟩ := r
    cases ok with
    | true => rfl
    | false => rfl
  | fault => rfl
  | spin => rfl

/-- The inner loop writes the whole blocks of the data and goes on with the rest. -/
theorem writeWhole_eq (hsize : 0 < size)
    (f : WriteContext σ → Bytes → Outcome (Bool × WriteContext σ)) (fuel : Nat) :
    ∀ (fd : σ) (rest : Bytes), rest.length ≤ fuel →
      settled (do
        let (ok, ctx, rest) ← writeWhole size write_block fuel ⟨[], fd⟩ rest
        if !ok then .done (false, ctx) else f ctx rest) =
      andThen (feed write_block (wholeBlocks size rest) fd) fun fd =>
        settled (f ⟨[], fd⟩ (partialBlock size rest)) := by
  induction fuel with
  | zero =>
    intro fd rest hfuel
    unfold writeWhole
    rw [if_neg (by omega), wholeBlocks_of_lt (by omega), partialBlock_of_lt (by omega)]
    rfl
  | succ fuel ih =>
    intro fd rest hfuel
    unfold writeWhole
    by_cases hle : size ≤ rest.length
    · have hrest : (rest.drop size).length ≤ fuel := by
        rw [List.length_drop]
        omega
      rw [if_pos ⟨rfl, hle⟩, wholeBlocks_of_le hsize hle, partialBlock_of_le hsize hle, feed]
      simp only
      cases write_block fd (rest.take size) with
      | done r =>
        obtain ⟨ok, fd'⟩ := r
        cases ok with
        | true => exact ih fd' _ hrest
        | false => rfl
      | fault => rfl
      | spin => rfl
    · rw [if_neg (by omega), wholeBlocks_of_lt (by omega), partialBlock_of_lt (by omega)]
      rfl

/-- With pending data in the buffer the inner loop does nothing. -/
theorem writeWhole_pending {fuel : Nat} {ctx : WriteContext σ} {rest : Bytes}
    (h : 0 < ctx.buffer.length) :
    writeWhole size write_block fuel ctx rest = .done (true, ctx, rest) := by
  unfold writeWhole
  rw [if_neg (by omega)]

theorem writeDataLoop_nil (fuel : Nat) (ctx : WriteContext σ) :
    writeDataLoop size write_block fuel ctx [] = .done (true, ctx) := by
  unfold writeDataLoop
  rw [if_neg (by simp)]

/-- The end of a turn that left the buffer empty: the inner loop writes the whole blocks,
and the following turns put the rest into the buffer. -/
theorem writeWhole_writeStream (hsize : 0 < size) {fuel : Nat} {rest : Bytes}
    (hlast : ∀ fd, settled
      (writeDataLoop size write_block fuel ⟨[], fd⟩ (partialBlock size rest)) =
        .done (.inr ⟨partialBlock size rest, fd⟩)) (fd : σ) :
    settled (do
      let (ok, ctx, rest) ← writeWhole size write_block rest.length ⟨[], fd⟩ rest
      if !ok then .done (false, ctx) else writeDataLoop size write_block fuel ctx rest) =
      writeStream size write_block fd rest := by
  rw [writeWhole_eq hsize _ _ fd rest le_rfl, writeStream]
  congr 1
  funext fd'
  exact hlast fd'

/-- The loop of `mtd_write_data`. -/
theorem writeDataLoop_eq (hsize : 0 < size) (fuel : Nat) :
    ∀ (ctx : WriteContext σ) (rest : Bytes), ctx.buffer.length < size → rest.length ≤ fuel →
      settled (writeDataLoop size write_block fuel ctx rest) =
        writeStream size write_block ctx.fd (ctx.buffer ++ rest) := by
  induction fuel with
  | zero =>
    intro ctx rest hbuf hfuel
    obtain rfl : rest = [] := List.eq_nil_of_length_eq_zero (by omega)
    rw [writeDataLoop_nil, List.append_nil, writeStream_of_lt hbuf]
    rfl
  | succ fuel ih =>
    intro ctx rest hbuf hfuel
    obtain ⟨buffer, fd⟩ := ctx
    simp only at hbuf ⊢
    rcases Nat.eq_zero_or_pos rest.length with hzero | hrest
    · obtain rfl : rest = [] := List.eq_nil_of_length_eq_zero hzero
      rw [writeDataLoop_nil, List.append_nil, writeStream_of_lt hbuf]
      rfl
    have hlast : ∀ rest' : Bytes, (partialBlock size rest').length ≤ fuel → ∀ fd,
        settled (writeDataLoop size write_block fuel ⟨[], fd⟩ (partialBlock size rest')) =
          .done (.inr ⟨partialBlock size rest', fd⟩) := by
      intro rest' hshort fd
      rw [ih ⟨[], fd⟩ _ hsize hshort]
      exact writeStream_of_lt (partialBlock_length_lt hsize) fd
    unfold writeDataLoop
    rw [if_pos hrest]
    simp only
    unfold coalesce
    by_cases hco : 0 < buffer.length ∨ rest.length < size
    · simp only [if_pos hco]
      by_cases hfit : rest.length < size - buffer.length
      · -- All of the data goes into the buffer.
        have hlen : (buffer ++ rest).length = buffer.length + rest.length := List.length_append
        have hflush : flushFull size write_block ⟨buffer ++ rest, fd⟩ =
            .done (true, ⟨buffer ++ rest, fd⟩) := by
          unfold flushFull
          rw [if_neg (by simp only; omega)]
        simp only [if_pos hfit, List.take_length, List.drop_length, hflush, Outcome.done_bind,
          Bool.not_true, Bool.false_eq_true, if_false]
        rw [writeWhole_pending (by simp only; omega), writeStream_of_lt (by omega)]
        simp only [Outcome.done_bind, Bool.not_true, Bool.false_eq_true, if_false,
          writeDataLoop_nil]
        rfl
      · -- The buffer becomes a whole block.
        have hcopy : (rest.take (size - buffer.length)).length = size - buffer.length := by
          rw [List.length_take]
          omega
        have hfull : (buffer ++ rest.take (size - buffer.length)).length = size := by
          rw [List.length_append, hcopy]
          omega
        have hall : buffer ++ rest = (buffer ++ rest.take (size - buffer.length)) ++
            rest.drop (size - buffer.length) := by
          rw [List.append_assoc, List.take_append_drop]
        have hshort : (partialBlock size (rest.drop (size - buffer.length))).length ≤ fuel := by
          rw [partialBlock, List.length_drop, List.length_drop]
          omega
        rw [hall, writeStream_cons hsize hfull]
        simp only [if_neg hfit]
        unfold flushFull
        rw [if_pos hfull]
        simp only
        cases write_block fd (buffer ++ rest.take (size - buffer.length)) with
        | done r =>
          obtain ⟨ok, fd'⟩ := r
          cases ok with
          | true => exact writeWhole_writeStream hsize (hlast _ hshort) fd'
          | false => rfl
        | fault => rfl
        | spin => rfl
    · obtain rfl : buffer = [] := List.eq_nil_of_length_eq_zero (by omega)
      have hflush : flushFull size write_block ⟨[], fd⟩ = .done (true, ⟨[], fd⟩) := by
        unfold flushFull
        rw [if_neg (by simp only [List.length_nil]; omega)]
      have hadd := partialBlock_length_add hsize (show size ≤ rest.length by omega)
      simp only [if_neg hco, hflush, Outcome.done_bind, List.nil_append, Bool.not_true,
        Bool.false_eq_true, if_false]
      exact writeWhole_writeStream hsize (hlast rest (by omega)) fd

/-- `mtd_write_data` writes the whole blocks of the stream that the pending data and the new
data make, and keeps the rest. -/
theorem mtd_write_data_eq (hsize : 0 < size) {ctx : WriteContext σ}
    (hbuf : ctx.buffer.length < size) (data : Bytes) :
    settled (mtd_write_data size write_block ctx data) =
      writeStream size write_block ctx.fd (ctx.buffer ++ data) :=
  writeDataLoop_eq hsize data.length ctx data hbuf le_rfl

theorem settled_eq_inr {r : Outcome (Bool × WriteContext σ)} {ctx : WriteContext σ}
    (h : settled r = .done (.inr ctx)) : r = .done (true, ctx) := by
  obtain ⟨⟨ok, ctx'⟩, rfl, h⟩ := Outcome.bind_eq_done.mp h
  cases ok with
  | true =>
    cases h
    rfl
  | false => cases h

theorem settled_eq_inl {r : Outcome (Bool × WriteContext σ)} {fd : σ}
    (h : settled r = .done (.inl fd)) : ∃ ctx, r = .done (false, ctx) ∧ ctx.fd = fd := by
  obtain ⟨⟨ok, ctx'⟩, rfl, h⟩ := Outcome.bind_eq_done.mp h
  cases ok with
  | true => cases h
  | false =>
    cases h
    exact ⟨ctx', rfl, rfl⟩

/-- After a call that was settled the next one goes on with its context. -/
theorem settled_bind_eq {r : Outcome (Bool × WriteContext σ)} {r' : Outcome (σ ⊕ WriteContext σ)}
    (h : settled r = r') (f : WriteContext σ → Outcome (Bool × WriteContext σ)) :
    settled (do
      let (ok, ctx) ← r
      if ok then f ctx else .done (false, ctx)) = (do
      let r ← r'
      match r with
      | .inl fd => .done (.inl fd)
      | .inr ctx => settled (f ctx)) := by
  subst h
  cases r with
  | done r =>
    obtain ⟨ok, ctx⟩ := r
    cases ok with
    | true => rfl
    | false => rfl
  | fault => rfl
  | spin => rfl

theorem bind_writeStream {α : Type} (fd : σ) (stream : Bytes)
    (g : WriteContext σ → Outcome (σ ⊕ α)) :
    (do
      let r ← writeStream size write_block fd stream
      match r with
      | .inl fd => .done (.inl fd)
      | .inr ctx => g ctx) =
      andThen (feed write_block (wholeBlocks size stream) fd) fun fd =>
        g ⟨partialBlock size stream, fd⟩ := by
  unfold writeStream
  cases feed write_block (wholeBlocks size stream) fd with
  | done r =>
    obtain ⟨ok, fd'⟩ := r
    cases ok with
    | true => rfl
    | false => rfl
  | fault => rfl
  | spin => rfl

theorem andThen_feed_append {α : Type} (ds ds' : List Bytes) (fd : σ) (f : σ → Outcome (σ ⊕ α)) :
    andThen (feed write_block (ds ++ ds') fd) f =
      andThen (feed write_block ds fd) fun fd => andThen (feed write_block ds' fd) f := by
  rw [feed_append]
  cases feed write_block ds fd with
  | done r =>
    obtain ⟨ok, fd'⟩ := r
    cases ok with
    | true => rfl
    | false => rfl
  | fault => rfl
  | spin => rfl

/-- However the data is cut into pieces, the blocks that are written are those of the whole
stream. -/
theorem writePieces_eq (hsize : 0 < size) (pieces : List Bytes) : ∀ ctx : WriteContext σ,
    ctx.buffer.length < size →
    settled (writePieces size write_block pieces ctx) =
      writeStream size write_block ctx.fd (ctx.buffer ++ pieces.flatten) := by
  induction pieces with
  | nil =>
    intro ctx hbuf
    rw [List.flatten_nil, List.append_nil, writeStream_of_lt hbuf]
    rfl
  | cons piece pieces ih =>
    intro ctx hbuf
    have hsplit : ctx.buffer ++ (piece :: pieces).flatten =
        (wholeBlocks size (ctx.buffer ++ piece)).flatten ++
          (partialBlock size (ctx.buffer ++ piece) ++ pieces.flatten) := by
      rw [← List.append_assoc, wholeBlocks_flatten, List.flatten_cons, List.append_assoc]
    have hwhole : ∀ d ∈ wholeBlocks size (ctx.buffer ++ piece), d.length = size :=
      fun d hd => wholeBlocks_length_eq hd
    rw [writePieces, settled_bind_eq (mtd_write_data_eq hsize hbuf piece), bind_writeStream,
      hsplit, writeStream, wholeBlocks_append hsize hwhole, partialBlock_append hsize hwhole,
      andThen_feed_append]
    congr 1
    funext fd
    exact ih ⟨_, fd⟩ (partialBlock_length_lt hsize)

/-- Closing looks only at what was settled. -/
theorem bind_settled (r : Outcome (Bool × WriteContext σ))
    (g : WriteContext σ → Outcome (Bool × σ)) :
    (do
      let (ok, ctx) ← r
      if !ok then .done (false, ctx.fd) else g ctx) = (do
      let r ← settled r
      match r with
      | .inl fd => .done (false, fd)
      | .inr ctx => g ctx) := by
  cases r with
  | done r =>
    obtain ⟨ok, ctx⟩ := r
    cases ok with
    | true => rfl
    | false => rfl
  | fault => rfl
  | spin => rfl

theorem bind_andThen (r : Outcome (Bool × σ)) (f : σ → WriteContext σ)
    (g : WriteContext σ → Outcome (Bool × σ)) :
    (do
      let r ← andThen r fun fd => .done (.inr (f fd))
      match r with
      | .inl fd => .done (false, fd)
      | .inr ctx => g ctx) = (do
      let (ok, fd) ← r
      if ok then g (f fd) else .done (false, fd)) := by
  cases r with
  | done r =>
    obtain ⟨ok, fd⟩ := r
    cases ok with
    | true => rfl
    | false => rfl
  | fault => rfl
  | spin => rfl

/-- The pending data is the last of the padded blocks. -/
theorem flushPending_eq (stream : Bytes) (fd : σ) :
    settled (flushPending size write_block ⟨partialBlock size stream, fd⟩) =
      andThen (feed write_block (if partialBlock size stream = [] then [] else
        [partialBlock size stream ++
          List.replicate (size - (partialBlock size stream).length) 0]) fd)
        fun fd => .done (.inr ⟨[], fd⟩) := by
  unfold flushPending
  by_cases hpart : partialBlock size stream = []
  · simp only [hpart]
    rfl
  · simp only [if_pos (List.length_pos_iff.mpr hpart), if_neg hpart, feed]
    cases write_block fd (partialBlock size stream ++
      List.replicate (size - (partialBlock size stream).length) 0) with
    | done r =>
      obtain ⟨ok, fd'⟩ := r
      cases ok with
      | true => rfl
      | false => rfl
    | fault => rfl
    | spin => rfl

/-- Writing pieces and closing passes the padded blocks of the data to `write_block`, up to
the first that fails. -/
theorem writeAndClose_eq (hsize : 0 < size) (finish : σ → Bool × σ) (pieces : List Bytes)
    (fd : σ) :
    writeAndClose size write_block finish pieces fd = (do
      let (ok, fd) ← feed write_block (paddedBlocks size 0 pieces.flatten) fd
      if ok then .done (finish fd) else .done (false, fd)) := by
  have hclose : ∀ ctx : WriteContext σ, mtd_write_close size write_block finish ctx = (do
      let r ← settled (flushPending size write_block ctx)
      match r with
      | .inl fd => .done (false, fd)
      | .inr ctx => .done (finish ctx.fd)) := fun ctx =>
    bind_settled _ fun ctx => .done (finish ctx.fd)
  unfold writeAndClose
  rw [bind_settled _ (mtd_write_close size write_block finish), writePieces_eq hsize pieces
    ⟨[], fd⟩ hsize, List.nil_append, writeStream, bind_andThen, paddedBlocks, feed_append]
  cases feed write_block (wholeBlocks size pieces.flatten) fd with
  | done r =>
    obtain ⟨ok, fd'⟩ := r
    cases ok with
    | true =>
      simp only [Outcome.done_bind, if_true]
      rw [hclose, flushPending_eq]
      exact bind_andThen _ (fun fd => ⟨[], fd⟩) fun ctx => .done (finish ctx.fd)
    | false => rfl
  | fault => rfl
  | spin => rfl

end Write

/-! ## What is passed to `write_block` -/

section Log

variable {size : Nat} (write_block : σ → Bytes → Bool × σ)

/-- `write_block` with a record of the blocks that were passed to it. -/
def logged (s : σ × List Bytes) (data : Bytes) : Outcome (Bool × (σ × List Bytes)) :=
  let (ok, fd) := write_block s.1 data
  .done (ok, fd, s.2 ++ [data])

/-- The record is kept when the file is closed. -/
def loggedFinish (finish : σ → Bool × σ) (s : σ × List Bytes) : Bool × (σ × List Bytes) :=
  let (ok, fd) := finish s.1
  (ok, fd, s.2)

/-- The blocks are passed in order, all of them or up to one that fails. -/
theorem feed_logged (ds : List Bytes) : ∀ (fd : σ) (log : List Bytes),
    ∃ ok fd' passed, feed (logged write_block) ds (fd, log) = .done (ok, fd', log ++ passed) ∧
      passed <+: ds ∧ (ok = true → passed = ds) ∧
      (ok = false → ∃ s d, (write_block s d).1 = false) := by
  induction ds with
  | nil =>
    intro fd log
    exact ⟨true, fd, [], by rw [List.append_nil]; rfl, List.prefix_refl _, fun _ => rfl, nofun⟩
  | cons d ds ih =>
    intro fd log
    rw [feed]
    unfold logged
    rcases hw : write_block fd d with ⟨ok, fd'⟩
    cases ok with
    | true =>
      obtain ⟨ok, fd'', passed, heq, hprefix, hall, hfail⟩ := ih fd' (log ++ [d])
      refine ⟨ok, fd'', d :: passed, ?_, (List.prefix_cons_inj d).mpr hprefix, ?_, hfail⟩
      · simp only [Outcome.done_bind, if_true]
        exact heq.trans (by rw [List.append_assoc]; rfl)
      · exact fun hok => by rw [hall hok]
    | false =>
      refine ⟨false, fd', [d], ?_, ?_, nofun, fun _ => ⟨fd, d, by rw [hw]⟩⟩
      · simp only [Outcome.done_bind, Bool.false_eq_true, if_false]
      · exact (List.prefix_cons_inj d).mpr List.nil_prefix

end Log

/-! ## Reading -/

/-- A `read_block` for blocks of `size` bytes; `none` is the return value -1. -/
structure BlockReader (σ : Type) (size : Nat) where
  read_block : σ → Outcome (Option (Bytes × σ))
  length_eq : ∀ {fd fd' : σ} {block : Bytes},
    read_block fd = .done (some (block, fd')) → block.length = size

/-- `MtdReadContext`. -/
structure ReadContext (σ : Type) where
  buffer : Bytes
  consumed : Nat
  fd : σ

section Read

variable {size : Nat} (R : BlockReader σ size)

/-- Read complete blocks directly into the user's buffer, which holds `data` and has room
for `len` bytes. -/
def readWhole (len : Nat) : Nat → ReadContext σ → Bytes → Outcome (Option (ReadContext σ × Bytes))
  | fuel, ctx, data =>
    if ctx.consumed = size ∧ size ≤ len - data.length then
      match fuel with
      | 0 => .spin
      | fuel + 1 => do
        let some (block, fd) ← R.read_block ctx.fd | .done none
        readWhole len fuel { ctx with fd := fd } (data ++ block)
    else .done (some (ctx, data))

/-- Take what is wanted and still in the buffer. -/
def copyBuffered (size len : Nat) (ctx : ReadContext σ) (data : Bytes) : ReadContext σ × Bytes :=
  if ctx.consumed < size then
    let avail := size - ctx.consumed
    let copy := if len - data.length < avail then len - data.length else avail
    ({ ctx with consumed := ctx.consumed + copy }, data ++ slice ctx.buffer ctx.consumed copy)
  else (ctx, data)

/-- The loop of `mtd_read_data`; `data` is what was read so far. -/
def readDataLoop (len : Nat) : Nat → ReadContext σ → Bytes →
    Outcome (Option (Bytes × ReadContext σ))
  | fuel, ctx, data =>
    if (data.length : Int) < wrap32 len then
      match fuel with
      | 0 => .spin
      | fuel + 1 => do
        let copied := copyBuffered size len ctx data
        let some (ctx, data) ← readWhole R len len copied.1 copied.2 | .done none
        if (data.length : Int) ≥ wrap32 len then .done (some (data, ctx))
        else if ctx.consumed = size ∧ (data.length : Int) < wrap32 len then
          let some (block, fd) ← R.read_block ctx.fd | .done none
          readDataLoop len fuel ⟨block, 0, fd⟩ data
        else readDataLoop len fuel ctx data
    else .done (some (data, ctx))

/-- `mtd_read_data`: the bytes that are read, or `none` when -1 is returned. -/
def mtd_read_data (ctx : ReadContext σ) (len : Nat) : Outcome (Option (Bytes × ReadContext σ)) :=
  readDataLoop R len (len + 1) ctx []

/-- `mtd_read_partition`, with what the buffer happens to hold. -/
def mtd_read_partition (size : Nat) (buffer : { b : Bytes // b.length = size }) (fd : σ) :
    ReadContext σ := ⟨buffer.1, size, fd⟩

/-- Calls of `mtd_read_data` that all return what is asked for: the pieces one after the
other, or `none` when a call does not. -/
def readPieces : List Nat → ReadContext σ → Outcome (Option (Bytes × ReadContext σ))
  | [], ctx => .done (some ([], ctx))
  | len :: lens, ctx => do
    let some (data, ctx) ← mtd_read_data R ctx len | .done none
    if data.length ≠ len then .done none
    else
      let some (rest, ctx) ← readPieces lens ctx | .done none
      .done (some (data ++ rest, ctx))

/-! ## The stream that is read -/

/-- Reading blocks from `fd` on gives `bs` and leads to `fd'`. -/
inductive Reads : σ → Bytes → σ → Prop where
  | nil {fd : σ} : Reads fd [] fd
  | cons {fd fd' fd'' : σ} {block bs : Bytes} :
      R.read_block fd = .done (some (block, fd')) → Reads fd' bs fd'' → Reads fd (block ++ bs) fd''

/-- What is in the buffer and not read yet. -/
def ReadContext.pending (ctx : ReadContext σ) : Bytes := ctx.buffer.drop ctx.consumed

/-- The buffer is a whole block. -/
structure ReadContext.Valid (size : Nat) (ctx : ReadContext σ) : Prop where
  length : ctx.buffer.length = size
  consumed_le : ctx.consumed ≤ size

/-- A call on `ctx` takes `data` from the stream and leaves `ctx'`. -/
def Takes (ctx : ReadContext σ) (data : Bytes) (ctx' : ReadContext σ) : Prop :=
  ctx'.Valid size ∧ ∃ bs, Reads R ctx.fd bs ctx'.fd ∧ ctx.pending ++ bs = data ++ ctx'.pending

variable {R}

theorem Reads.append {fd fd' fd'' : σ} {bs bs' : Bytes} (h : Reads R fd bs fd')
    (h' : Reads R fd' bs' fd'') : Reads R fd (bs ++ bs') fd'' := by
  induction h with
  | nil => exact h'
  | cons hread _ ih =>
    rw [List.append_assoc]
    exact .cons hread (ih h')

theorem Reads.single {fd fd' : σ} {block : Bytes}
    (h : R.read_block fd = .done (some (block, fd'))) : Reads R fd block fd' := by
  have hone := Reads.cons h .nil
  rwa [List.append_nil] at hone

/-- Of two readings from the same place one goes on where the other ends. -/
theorem Reads.prefix_or {fd fd₁ fd₂ : σ} {bs₁ bs₂ : Bytes} (h₁ : Reads R fd bs₁ fd₁)
    (h₂ : Reads R fd bs₂ fd₂) : bs₁ <+: bs₂ ∨ bs₂ <+: bs₁ := by
  induction h₁ generalizing bs₂ with
  | nil => exact .inl (List.nil_prefix)
  | cons hread _ ih =>
    cases h₂ with
    | nil => exact .inr (List.nil_prefix)
    | cons hread' hrest =>
      rw [hread] at hread'
      cases hread'
      exact (ih hrest).imp (List.prefix_append_right_inj _).mpr
        (List.prefix_append_right_inj _).mpr

theorem Takes.refl {ctx : ReadContext σ} (h : ctx.Valid size) : Takes R ctx [] ctx :=
  ⟨h, [], .nil, List.append_nil _⟩

theorem Takes.trans {ctx ctx' ctx'' : ReadContext σ} {data data' : Bytes}
    (h : Takes R ctx data ctx') (h' : Takes R ctx' data' ctx'') :
    Takes R ctx (data ++ data') ctx'' := by
  obtain ⟨-, bs, hreads, heq⟩ := h
  obtain ⟨hvalid, bs', hreads', heq'⟩ := h'
  refine ⟨hvalid, bs ++ bs', hreads.append hreads', ?_⟩
  rw [← List.append_assoc, heq, List.append_assoc, heq', List.append_assoc]

theorem copyBuffered_takes {ctx : ReadContext σ} (h : ctx.Valid size) (len : Nat) (data : Bytes) :
    ∃ d, (copyBuffered size len ctx data).2 = data ++ d ∧
      Takes R ctx d (copyBuffered size len ctx data).1 := by
  unfold copyBuffered
  split
  · rename_i hlt
    refine ⟨_, rfl, ⟨h.length, ?_⟩, [], .nil, ?_⟩
    · simp only
      split
      · omega
      · omega
    · rw [List.append_nil, ReadContext.pending, ReadContext.pending, slice, ← List.drop_drop]
      exact (List.take_append_drop _ _).symm
  · exact ⟨[], (List.append_nil _).symm, .refl h⟩

/-- With nothing pending a block is taken as it is. -/
theorem block_takes {ctx : ReadContext σ} (h : ctx.Valid size) (hempty : ctx.consumed = size)
    {block : Bytes} {fd : σ} (hread : R.read_block ctx.fd = .done (some (block, fd))) :
    Takes R ctx block { ctx with fd := fd } := by
  have hpending : ctx.buffer.drop ctx.consumed = [] :=
    List.drop_of_length_le (by rw [h.length, hempty])
  refine ⟨⟨h.length, h.consumed_le⟩, block, .single hread, ?_⟩
  rw [ReadContext.pending, ReadContext.pending, hpending, List.append_nil, List.nil_append]

/-- The next block is put into the buffer. -/
theorem refill_takes {ctx : ReadContext σ} (h : ctx.Valid size) (hempty : ctx.consumed = size)
    {block : Bytes} {fd : σ} (hread : R.read_block ctx.fd = .done (some (block, fd))) :
    Takes R ctx [] ⟨block, 0, fd⟩ := by
  have hpending : ctx.buffer.drop ctx.consumed = [] :=
    List.drop_of_length_le (by rw [h.length, hempty])
  refine ⟨⟨R.length_eq hread, Nat.zero_le _⟩, block, .single hread, ?_⟩
  rw [ReadContext.pending, ReadContext.pending, hpending, List.drop_zero]

theorem readWhole_takes {len : Nat} (fuel : Nat) : ∀ {ctx ctx' : ReadContext σ} {data data' : Bytes},
    ctx.Valid size → readWhole R len fuel ctx data = .done (some (ctx', data')) →
      ∃ d, data' = data ++ d ∧ Takes R ctx d ctx' := by
  induction fuel with
  | zero =>
    intro ctx ctx' data data' hvalid h
    unfold readWhole at h
    split at h
    · cases h
    · cases h
      exact ⟨[], (List.append_nil _).symm, .refl hvalid⟩
  | succ fuel ih =>
    intro ctx ctx' data data' hvalid h
    unfold readWhole at h
    split at h
    · rename_i hwhole
      obtain ⟨r, hread, h⟩ := Outcome.bind_eq_done.mp h
      cases r with
      | none => cases h
      | some r =>
        obtain ⟨block, fd⟩ := r
        have hblock := block_takes hvalid hwhole.1 hread
        obtain ⟨d, rfl, htakes⟩ := ih hblock.1 h
        exact ⟨block ++ d, List.append_assoc _ _ _, hblock.trans htakes⟩
    · cases h
      exact ⟨[], (List.append_nil _).symm, .refl hvalid⟩

theorem readDataLoop_takes {len : Nat} (fuel : Nat) :
    ∀ {ctx ctx' : ReadContext σ} {data data' : Bytes}, ctx.Valid size →
      readDataLoop R len fuel ctx data = .done (some (data', ctx')) →
      ∃ d, data' = data ++ d ∧ Takes R ctx d ctx' := by
  induction fuel with
  | zero =>
    intro ctx ctx' data data' hvalid h
    unfold readDataLoop at h
    split at h
    · cases h
    · cases h
      exact ⟨[], (List.append_nil _).symm, .refl hvalid⟩
  | succ fuel ih =>
    intro ctx ctx' data data' hvalid h
    unfold readDataLoop at h
    split at h
    · obtain ⟨d₁, hd₁, htakes₁⟩ := copyBuffered_takes (R := R) hvalid len data
      obtain ⟨r, hwhole, h⟩ := Outcome.bind_eq_done.mp h
      cases r with
      | none => cases h
      | some r =>
        obtain ⟨ctx₂, data₂⟩ := r
        obtain ⟨d₂, rfl, htakes₂⟩ := readWhole_takes len htakes₁.1 hwhole
        have hboth := htakes₁.trans htakes₂
        rw [hd₁, List.append_assoc] at h
        simp only at h
        split at h
        · cases h
          exact ⟨d₁ ++ d₂, rfl, hboth⟩
        · split at h
          · rename_i hempty
            obtain ⟨r, hread, h⟩ := Outcome.bind_eq_done.mp h
            cases r with
            | none => cases h
            | some r =>
              obtain ⟨block, fd⟩ := r
              have hfill := refill_takes htakes₂.1 hempty.1 hread
              obtain ⟨d₃, rfl, htakes₃⟩ := ih hfill.1 h
              refine ⟨d₁ ++ d₂ ++ d₃, by simp only [List.append_assoc], ?_⟩
              exact hboth.trans (hfill.trans htakes₃)
          · obtain ⟨d₃, rfl, htakes₃⟩ := ih htakes₂.1 h
            exact ⟨d₁ ++ d₂ ++ d₃, by simp only [List.append_assoc], hboth.trans htakes₃⟩
    · cases h
      exact ⟨[], (List.append_nil _).symm, .refl hvalid⟩

/-- A call of `mtd_read_data` takes the next part of the stream. -/
theorem mtd_read_data_takes {ctx ctx' : ReadContext σ} {len : Nat} {data : Bytes}
    (hvalid : ctx.Valid size) (h : mtd_read_data R ctx len = .done (some (data, ctx'))) :
    Takes R ctx data ctx' := by
  obtain ⟨d, rfl, htakes⟩ := readDataLoop_takes _ hvalid h
  exact htakes

theorem readPieces_takes {lens : List Nat} : ∀ {ctx ctx' : ReadContext σ} {data : Bytes},
    ctx.Valid size → readPieces R lens ctx = .done (some (data, ctx')) →
      data.length = lens.sum ∧ Takes R ctx data ctx' := by
  induction lens with
  | nil =>
    intro ctx ctx' data hvalid h
    cases h
    exact ⟨rfl, .refl hvalid⟩
  | cons len lens ih =>
    intro ctx ctx' data hvalid h
    obtain ⟨r, hfirst, h⟩ := Outcome.bind_eq_done.mp h
    cases r with
    | none => cases h
    | some r =>
      obtain ⟨first, ctx₁⟩ := r
      simp only at h
      split at h
      · cases h
      rename_i hlen
      obtain ⟨r, hrest, h⟩ := Outcome.bind_eq_done.mp h
      cases r with
      | none => cases h
      | some r =>
        obtain ⟨rest, ctx₂⟩ := r
        cases h
        have htakes := mtd_read_data_takes hvalid hfirst
        obtain ⟨hsum, hrest⟩ := ih htakes.1 hrest
        refine ⟨?_, htakes.trans hrest⟩
        rw [List.length_append, hsum, not_not.mp hlen, List.sum_cons]

/-- The pieces of a read are together the same bytes, however it is cut into calls. -/
theorem readPieces_eq {lens₁ lens₂ : List Nat} {ctx ctx₁ ctx₂ : ReadContext σ}
    {data₁ data₂ : Bytes} (hvalid : ctx.Valid size) (hsum : lens₁.sum = lens₂.sum)
    (h₁ : readPieces R lens₁ ctx = .done (some (data₁, ctx₁)))
    (h₂ : readPieces R lens₂ ctx = .done (some (data₂, ctx₂))) : data₁ = data₂ := by
  obtain ⟨hlen₁, -, bs₁, hreads₁, heq₁⟩ := readPieces_takes hvalid h₁
  obtain ⟨hlen₂, -, bs₂, hreads₂, heq₂⟩ := readPieces_takes hvalid h₂
  have hlen : data₁.length = data₂.length := by rw [hlen₁, hlen₂, hsum]
  rcases hreads₁.prefix_or hreads₂ with ⟨more, rfl⟩ | ⟨more, rfl⟩
  · rw [← List.append_assoc, heq₁, List.append_assoc] at heq₂
    exact (List.append_inj heq₂ hlen).1
  · rw [← List.append_assoc, heq₂, List.append_assoc] at heq₁
    exact (List.append_inj heq₁ hlen.symm).1.symm

end Read

/-! ## Reading to the end -/

section Exhaust

variable {size : Nat}

/-- From `fd` on these blocks are read, and then -1 is returned. -/
inductive Delivers (R : BlockReader σ size) : σ → List Bytes → Prop where
  | stop {fd : σ} : R.read_block fd = .done none → Delivers R fd []
  | block {fd fd' : σ} {block : Bytes} {bs : List Bytes} :
      R.read_block fd = .done (some (block, fd')) → Delivers R fd' bs → Delivers R fd (block :: bs)

/-- What can still be read is `stream`. -/
def ReadContext.Holds (R : BlockReader σ size) (ctx : ReadContext σ) (stream : Bytes) : Prop :=
  ctx.Valid size ∧ ∃ bs, Delivers R ctx.fd bs ∧ stream = ctx.pending ++ bs.flatten

variable {R : BlockReader σ size} {ctx : ReadContext σ} {stream data : Bytes} {len : Nat}

theorem ReadContext.Valid.pending_length (h : ctx.Valid size) :
    ctx.pending.length = size - ctx.consumed := by
  rw [pending, List.length_drop, h.length]

theorem ReadContext.Valid.pending_nil (h : ctx.Valid size) (hempty : ctx.consumed = size) :
    ctx.pending = [] :=
  List.eq_nil_of_length_eq_zero (by rw [h.pending_length, hempty, Nat.sub_self])

/-- A part of the stream was put behind the data, which has room for `len` bytes. -/
structure Took (R : BlockReader σ size) (len : Nat) (data stream : Bytes) (n : Nat)
    (ctx' : ReadContext σ) (data' : Bytes) : Prop where
  le : n ≤ stream.length
  room : data.length + n ≤ len
  data : data' = data ++ stream.take n
  holds : ctx'.Holds R (stream.drop n)

theorem Took.length {n : Nat} {ctx' : ReadContext σ} {data' : Bytes}
    (h : Took R len data stream n ctx' data') : data'.length = data.length + n := by
  rw [h.data, List.length_append, List.length_take, Nat.min_eq_left h.le]

theorem Took.trans {n m : Nat} {ctx₁ ctx₂ : ReadContext σ} {data₁ data₂ : Bytes}
    (h : Took R len data stream n ctx₁ data₁) (h' : Took R len data₁ (stream.drop n) m ctx₂ data₂) :
    Took R len data stream (n + m) ctx₂ data₂ := by
  have hle := h'.le
  have hroom := h'.room
  rw [List.length_drop] at hle
  rw [h.length] at hroom
  refine ⟨by have := h.le; omega, by omega, ?_, ?_⟩
  · rw [h'.data, h.data, List.append_assoc, ← List.take_add]
  · rw [← List.drop_drop]
    exact h'.holds

/-- Taking from the buffer leaves it empty or there is no more room. -/
theorem copyBuffered_took (h : ctx.Holds R stream) (hroom : data.length ≤ len) :
    ∃ n, Took R len data stream n (copyBuffered size len ctx data).1
        (copyBuffered size len ctx data).2 ∧
      ((copyBuffered size len ctx data).1.consumed = size ∨ data.length + n = len) ∧
      (ctx.consumed < size → data.length < len → 0 < n) := by
  obtain ⟨hvalid, bs, hbs, rfl⟩ := h
  have hpending := hvalid.pending_length
  have hle := hvalid.consumed_le
  unfold copyBuffered
  by_cases hlt : ctx.consumed < size
  · rw [if_pos hlt]
    simp only
    generalize hn : (if len - data.length < size - ctx.consumed then len - data.length
      else size - ctx.consumed) = n
    have hsmall : n ≤ size - ctx.consumed ∧ n ≤ len - data.length ∧
        (n = len - data.length ∨ n = size - ctx.consumed) := by
      rw [← hn]
      split
      · omega
      · omega
    obtain ⟨hbuf, hwant, hor⟩ := hsmall
    refine ⟨n, ⟨?_, by omega, ?_, ⟨hvalid.length, by simp only; omega⟩, bs, hbs, ?_⟩, ?_, ?_⟩
    · rw [List.length_append, hpending]
      omega
    · rw [List.take_append_of_le_length (by rw [hpending]; exact hbuf)]
      rfl
    · rw [List.drop_append_of_le_length (by rw [hpending]; exact hbuf), ReadContext.pending,
        ReadContext.pending, List.drop_drop]
    · rcases hor with hor | hor
      · exact .inr (by omega)
      · exact .inl (by omega)
    · omega
  · rw [if_neg hlt]
    refine ⟨0, ⟨Nat.zero_le _, by omega, ?_, hvalid, bs, hbs, rfl⟩, .inl ?_, fun h => absurd h hlt⟩
    · rw [List.take_zero, List.append_nil]
    · simp only
      omega

/-- Whole blocks are read while there is room for them, or the stream ends before. -/
theorem readWhole_took (hsize : 0 < size) (fuel : Nat) :
    ∀ {ctx : ReadContext σ} {stream data : Bytes}, ctx.Holds R stream →
      (ctx.consumed = size ∨ data.length = len) → data.length ≤ len → len - data.length ≤ fuel →
      (∃ n ctx' data', readWhole R len fuel ctx data = .done (some (ctx', data')) ∧
        Took R len data stream n ctx' data' ∧ (ctx'.consumed = size ∨ data'.length = len)) ∨
      (readWhole R len fuel ctx data = .done none ∧ data.length + stream.length < len) := by
  induction fuel with
  | zero =>
    intro ctx stream data h hempty hroom hfuel
    refine .inl ⟨0, ctx, data, ?_, ⟨Nat.zero_le _, by omega, ?_, h⟩, hempty⟩
    · unfold readWhole
      exact if_neg (by omega)
    · rw [List.take_zero, List.append_nil]
  | succ fuel ih =>
    intro ctx stream data h hempty hroom hfuel
    unfold readWhole
    by_cases hwhole : ctx.consumed = size ∧ size ≤ len - data.length
    · rw [if_pos hwhole]
      obtain ⟨hvalid, bs, hbs, rfl⟩ := h
      have hnil := hvalid.pending_nil hwhole.1
      cases hbs with
      | stop hread =>
        refine .inr ⟨by rw [hread]; rfl, ?_⟩
        rw [hnil, List.flatten_nil, List.append_nil, List.length_nil]
        omega
      | @block _ fd' block bs hread hrest =>
        have hblock := R.length_eq hread
        have hnil' : ReadContext.pending { ctx with fd := fd' } = [] := hnil
        have htook : Took R len data (ctx.pending ++ (block :: bs).flatten) size
            { ctx with fd := fd' } (data ++ block) := by
          refine ⟨?_, by omega, ?_, ⟨hvalid.length, hvalid.consumed_le⟩, bs, hrest, ?_⟩
          · rw [hnil, List.nil_append, List.flatten_cons, List.length_append]
            omega
          · rw [hnil, List.nil_append, List.flatten_cons, ← hblock, List.take_left]
          · rw [hnil, hnil', List.nil_append, List.flatten_cons, ← hblock, List.drop_left]
            rfl
        have hlen := htook.length
        rw [hread]
        have hnext := @ih { ctx with fd := fd' } _ (data ++ block) htook.holds (.inl hwhole.1)
          (by omega) (by omega)
        rcases hnext with ⟨n, ctx', data', hloop, htook', hend⟩ | ⟨hloop, hshort⟩
        · exact .inl ⟨size + n, ctx', data', hloop, htook.trans htook', hend⟩
        · refine .inr ⟨hloop, ?_⟩
          have hle := htook.le
          rw [List.length_drop] at hshort
          omega
    · rw [if_neg hwhole]
      refine .inl ⟨0, ctx, data, rfl, ⟨Nat.zero_le _, by omega, ?_, h⟩, hempty⟩
      rw [List.take_zero, List.append_nil]

theorem readDataLoop_took (hsize : 0 < size) (hlen : len < 2 ^ 31) (fuel : Nat) :
    ∀ {ctx : ReadContext σ} {stream data : Bytes}, ctx.Holds R stream → data.length ≤ len →
      (data.length < len → len - data.length + (if ctx.consumed < size then 0 else 1) ≤ fuel) →
      (∃ n ctx' data', readDataLoop R len fuel ctx data = .done (some (data', ctx')) ∧
        Took R len data stream n ctx' data' ∧ data.length + n = len) ∨
      (readDataLoop R len fuel ctx data = .done none ∧ data.length + stream.length < len) := by
  have hwrap : wrap32 len = len := wrap32_of_range (by omega) (by exact_mod_cast hlen)
  have hfull : ∀ (fuel : Nat) {ctx : ReadContext σ} {stream data : Bytes}, ctx.Holds R stream →
      data.length = len →
      ∃ n ctx' data', readDataLoop R len fuel ctx data = .done (some (data', ctx')) ∧
        Took R len data stream n ctx' data' ∧ data.length + n = len := by
    intro fuel ctx stream data h heq
    refine ⟨0, ctx, data, ?_, ⟨Nat.zero_le _, by omega, ?_, h⟩, heq⟩
    · unfold readDataLoop
      exact if_neg (by rw [hwrap]; omega)
    · rw [List.take_zero, List.append_nil]
  induction fuel with
  | zero =>
    intro ctx stream data h hroom hfuel
    exact .inl (hfull 0 h (by by_contra hne; have := hfuel (by omega); omega))
  | succ fuel ih =>
    intro ctx stream data h hroom hfuel
    by_cases hmore : data.length < len
    swap
    · exact .inl (hfull (fuel + 1) h (by omega))
    have hcond : ((data.length : Nat) : Int) < wrap32 len := by
      rw [hwrap]
      exact_mod_cast hmore
    unfold readDataLoop
    rw [if_pos hcond]
    obtain ⟨n₁, htook₁, hend₁, hprogress⟩ := copyBuffered_took h hroom
    simp only
    generalize copyBuffered size len ctx data = copied at *
    obtain ⟨ctx₁, data₁⟩ := copied
    simp only at htook₁ hend₁ ⊢
    have hlen₁ := htook₁.length
    rw [← hlen₁] at hend₁
    rcases readWhole_took hsize len htook₁.holds hend₁ (by have := htook₁.room; omega) (by omega) with
      ⟨n₂, ctx₂, data₂, hwhole, htook₂, hend₂⟩ | ⟨hwhole, hshort⟩
    swap
    · refine .inr ⟨by rw [hwhole]; rfl, ?_⟩
      have hle := htook₁.le
      rw [List.length_drop] at hshort
      omega
    have htook := htook₁.trans htook₂
    have hlen₂ := htook.length
    have hroom₂ := htook.room
    rw [hwhole, Outcome.done_bind]
    simp only [hwrap]
    by_cases hdone : data₂.length = len
    · rw [if_pos (by omega)]
      exact .inl ⟨_, ctx₂, data₂, rfl, htook, by omega⟩
    have hempty : ctx₂.consumed = size := hend₂.resolve_right hdone
    rw [if_neg (by omega), if_pos ⟨hempty, by omega⟩]
    obtain ⟨hvalid₂, bs, hbs, hstream⟩ := htook.holds
    have hnil := hvalid₂.pending_nil hempty
    have hrest := congrArg List.length hstream
    rw [List.length_drop, hnil, List.nil_append] at hrest
    cases hbs with
    | stop hread =>
      refine .inr ⟨by rw [hread]; rfl, ?_⟩
      have hle := htook.le
      rw [List.flatten_nil, List.length_nil] at hrest
      omega
    | @block _ fd' block bs hread hdelivers =>
      rw [hread, Outcome.done_bind]
      have hholds : ReadContext.Holds R ⟨block, 0, fd'⟩ (stream.drop (n₁ + n₂)) := by
        refine ⟨⟨R.length_eq hread, Nat.zero_le _⟩, bs, hdelivers, ?_⟩
        rw [hstream, hnil, List.nil_append]
        rfl
      have hbudget : len - data₂.length + (if 0 < size then 0 else 1) ≤ fuel := by
        have hbefore := hfuel hmore
        rw [if_pos hsize]
        split at hbefore
        · have := hprogress (by assumption) hmore
          omega
        · omega
      rcases ih hholds (by omega : data₂.length ≤ len) fun _ => hbudget with
        ⟨n, ctx', data', hloop, htook', hall⟩ | ⟨hloop, hshort⟩
      · exact .inl ⟨_, ctx', data', hloop, htook.trans htook', by omega⟩
      · refine .inr ⟨hloop, ?_⟩
        have hle := htook.le
        rw [List.length_drop] at hshort
        omega

/-- A call of `mtd_read_data` returns the next part of the stream, or -1 if the stream is
shorter. -/
theorem mtd_read_data_holds (hsize : 0 < size) (hlen : len < 2 ^ 31) (h : ctx.Holds R stream) :
    (len ≤ stream.length ∧ ∃ ctx', mtd_read_data R ctx len = .done (some (stream.take len, ctx')) ∧
      ctx'.Holds R (stream.drop len)) ∨
    (stream.length < len ∧ mtd_read_data R ctx len = .done none) := by
  have hcall := @readDataLoop_took _ _ R len hsize hlen (len + 1) ctx stream [] h (Nat.zero_le _)
    (fun _ => ?_)
  rcases hcall with
    ⟨n, ctx', data', hloop, htook, hall⟩ | ⟨hloop, hshort⟩
  · rw [List.length_nil, Nat.zero_add] at hall
    subst hall
    refine .inl ⟨htook.le, ctx', ?_, htook.holds⟩
    rw [mtd_read_data, hloop, htook.data, List.nil_append]
  · rw [List.length_nil, Nat.zero_add] at hshort
    exact .inr ⟨hshort, hloop⟩
  · rw [List.length_nil]
    split
    · omega
    · omega

end Exhaust

end BootableRecovery.Mtdutils.Stream
