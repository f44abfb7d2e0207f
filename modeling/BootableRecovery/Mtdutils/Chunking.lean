import BootableRecovery.Mtdutils

/-!
# `mtdutils/mtdutils.c`: the calls do not matter

A stream that is written to a partition, or read from one, may be cut into calls anywhere.

Main results:
* `mtd_read_data_stream`: reading from a device is `Stream.mtd_read_data` over its
  `read_block`.
* `chunking_independent`: for any two ways to cut the data into calls, the same blocks are
  passed to `write_block`, and for any two ways to cut a read the same bytes come back.
-/

namespace BootableRecovery.Mtdutils.Stream

variable {σ τ : Type}

/-! ## The calls of a device -/

section Device

variable {p : MtdPartition} (env : ReadEnv)

/-- A block that is read is one of the device. -/
theorem readLoop_content (fuel : Nat) : ∀ {pos before : Nat} {fd fd' : ReadFd} {block : Bytes},
    readLoop p env fuel pos before fd = .done (some (block, fd')) →
      ∃ b, block = env.content b := by
  induction fuel with
  | zero =>
    intro pos before fd fd' block h
    unfold readLoop at h
    split at h
    · cases h
    · cases h
  | succ fuel ih =>
    intro pos before fd fd' block h
    unfold readLoop at h
    split at h
    · simp only at h
      split at h
      · exact ih h
      split at h
      · cases h
      split at h
      · exact ih h
      cases hbad : env.memgetbadblock with
      | none =>
        simp only [hbad] at h
        exact ih h
      | some f =>
        simp only [hbad] at h
        split at h
        · exact ih h
        · cases h
          exact ⟨_, rfl⟩
    · cases h

/-- `read_block` of a device whose blocks have the erase size. -/
def deviceReader (hlen : ∀ b, (env.content b).length = p.erase_size) :
    BlockReader ReadFd p.erase_size where
  read_block := read_block p env
  length_eq := by
    intro fd fd' block h
    unfold read_block at h
    split at h
    · cases h
    · obtain ⟨b, rfl⟩ := readLoop_content env _ h
      exact hlen b

def MtdReadContext.stream (ctx : MtdReadContext) : ReadContext ReadFd :=
  ⟨ctx.buffer, ctx.consumed, ctx.fd⟩

/-- The other way round. -/
def ofStream (ctx : ReadContext ReadFd) : MtdReadContext := ⟨ctx.buffer, ctx.consumed, ctx.fd⟩

variable (hlen : ∀ b, (env.content b).length = p.erase_size)

theorem copyBuffered_stream (len : Nat) (ctx : MtdReadContext) (data : Bytes) :
    copyBuffered p.erase_size len (MtdReadContext.stream ctx) data =
      (MtdReadContext.stream (Mtdutils.copyBuffered p len ctx data).1,
        (Mtdutils.copyBuffered p len ctx data).2) := by
  unfold copyBuffered Mtdutils.copyBuffered MtdReadContext.stream
  split
  · rfl
  · rfl

theorem readWhole_stream (len fuel : Nat) : ∀ (ctx : MtdReadContext) (data : Bytes),
    Mtdutils.readWhole p env len fuel ctx data = (do
      let r ← readWhole (deviceReader env hlen) len fuel (MtdReadContext.stream ctx) data
      .done (r.map fun r => (ofStream r.1, r.2))) := by
  induction fuel with
  | zero =>
    intro ctx data
    unfold readWhole Mtdutils.readWhole MtdReadContext.stream
    split
    · rfl
    · rfl
  | succ fuel ih =>
    intro ctx data
    unfold readWhole Mtdutils.readWhole MtdReadContext.stream deviceReader
    split
    · simp only
      cases read_block p env ctx.fd with
      | done o =>
        cases o with
        | none => rfl
        | some r => exact ih { ctx with fd := r.2 } (data ++ r.1)
      | fault => rfl
      | spin => rfl
    · rfl

/-- `mtd_read_data` of a device is the one over its `read_block`. -/
theorem mtd_read_data_stream (ctx : MtdReadContext) (len : Nat) :
    Mtdutils.mtd_read_data p env ctx len = (do
      let r ← mtd_read_data (deviceReader env hlen) (MtdReadContext.stream ctx) len
      .done (r.map fun r => (r.1, ofStream r.2))) := by
  have hloop : ∀ (fuel : Nat) (ctx : MtdReadContext) (data : Bytes),
      Mtdutils.readDataLoop p env len fuel ctx data = (do
        let r ← readDataLoop (deviceReader env hlen) len fuel (MtdReadContext.stream ctx) data
        .done (r.map fun r => (r.1, ofStream r.2))) := by
    intro fuel
    induction fuel with
    | zero =>
      intro ctx data
      unfold readDataLoop Mtdutils.readDataLoop
      split
      · rfl
      · rfl
    | succ fuel ih =>
      intro ctx data
      unfold readDataLoop Mtdutils.readDataLoop
      split
      · simp only [copyBuffered_stream]
        rw [readWhole_stream env hlen]
        generalize readWhole (deviceReader env hlen) len len
            (MtdReadContext.stream (Mtdutils.copyBuffered p len ctx data).1)
            (Mtdutils.copyBuffered p len ctx data).2 = r
        cases r with
        | done o =>
          cases o with
          | none => rfl
          | some r =>
            obtain ⟨ctx₁, data₁⟩ := r
            rw [Outcome.done_bind, Outcome.done_bind, Outcome.done_bind, Option.map_some]
            simp only
            by_cases hdone : (data₁.length : Int) ≥ wrap32 len
            · rw [if_pos hdone, if_pos hdone]
              rfl
            rw [if_neg hdone, if_neg hdone]
            by_cases hempty : ctx₁.consumed = p.erase_size ∧ (data₁.length : Int) < wrap32 len
            · rw [if_pos (by exact hempty), if_pos hempty]
              simp only [deviceReader, ofStream]
              cases read_block p env ctx₁.fd with
              | done o =>
                cases o with
                | none => rfl
                | some r => exact ih ⟨r.1, 0, r.2⟩ data₁
              | fault => rfl
              | spin => rfl
            · rw [if_neg (by exact hempty), if_neg hempty]
              exact ih _ _
        | fault => rfl
        | spin => rfl
      · rfl
  exact hloop (len + 1) ctx []

end Device

/-- The padded blocks of `Mtdutils`, whose padding is zeros. -/
theorem paddedBlocks_eq (p : MtdPartition) (data : Bytes) :
    Mtdutils.paddedBlocks p data = BootableRecovery.paddedBlocks p.erase_size 0 data := by
  unfold Mtdutils.paddedBlocks BootableRecovery.paddedBlocks
  congr 1
  by_cases hpart : partialBlock p.erase_size data = []
  · simp [hpart]
  · rw [if_pos (List.length_pos_iff.mpr hpart), if_neg hpart]

/-- Two ways to cut the data into calls of `mtd_write_data` pass the same blocks to
`write_block`, which are those of the data with the last one zero-padded, or the first of
them up to one that fails. Two ways to cut a read into calls of `mtd_read_data` that all
return what they were asked for give the same bytes. -/
theorem chunking_independent (p : MtdPartition) (write_block : σ → Bytes → Bool × σ)
    (finish : σ → Bool × σ) (fd : σ) (R : BlockReader τ p.erase_size) {ctx : ReadContext τ}
    (hvalid : ctx.Valid p.erase_size) {pieces₁ pieces₂ : List Bytes}
    (hpieces : pieces₁.flatten = pieces₂.flatten) {lens₁ lens₂ : List Nat}
    (hlens : lens₁.sum = lens₂.sum) :
    (∃ ok fd' passed,
      writeAndClose p.erase_size (logged write_block) (loggedFinish finish) pieces₁ (fd, []) =
        .done (ok, fd', passed) ∧
      writeAndClose p.erase_size (logged write_block) (loggedFinish finish) pieces₂ (fd, []) =
        .done (ok, fd', passed) ∧
      passed <+: paddedBlocks p pieces₁.flatten ∧
      ((ok = true ∨ ∀ s d, (write_block s d).1 = true) →
        passed = paddedBlocks p pieces₁.flatten)) ∧
    ∀ data₁ ctx₁ data₂ ctx₂, readPieces R lens₁ ctx = .done (some (data₁, ctx₁)) →
      readPieces R lens₂ ctx = .done (some (data₂, ctx₂)) → data₁ = data₂ := by
  refine ⟨?_, fun data₁ ctx₁ data₂ ctx₂ h₁ h₂ => readPieces_eq hvalid hlens h₁ h₂⟩
  rw [writeAndClose_eq p.erase_pos, writeAndClose_eq p.erase_pos, ← hpieces, paddedBlocks_eq]
  obtain ⟨ok, fd', passed, heq, hprefix, hall, hfail⟩ :=
    feed_logged write_block (BootableRecovery.paddedBlocks p.erase_size 0 pieces₁.flatten) fd []
  rw [heq, List.nil_append]
  cases ok with
  | true =>
    obtain rfl := hall rfl
    exact ⟨_, _, _, rfl, rfl, List.prefix_refl _, fun _ => rfl⟩
  | false =>
    obtain ⟨s, d, hno⟩ := hfail rfl
    refine ⟨false, fd', passed, rfl, rfl, hprefix, ?_⟩
    rintro (h | h)
    · cases h
    · rw [h s d] at hno
      cases hno

/-- Blocks of 2 bytes, each holding its number twice. -/
def countingReader : BlockReader Nat 2 where
  read_block n := .done (some ([UInt8.ofNat n, UInt8.ofNat n], n + 1))
  length_eq h := by
    cases h
    rfl

def fourPages : MtdPartition := ⟨8, 2, Nat.two_pos, by decide⟩

/-- A `write_block` that never fails. -/
def takesAll (_ : Unit) (_ : Bytes) : Bool × Unit := (true, ())

def closes (_ : Unit) : Bool × Unit := (true, ())

/-- Three bytes in one call, and with an empty one in between. -/
theorem chunking_independent_pieces :
    (∃ ok fd' passed,
      writeAndClose 2 (logged takesAll) (loggedFinish closes) [[1, 2, 3]] ((), []) =
        .done (ok, fd', passed) ∧
      writeAndClose 2 (logged takesAll) (loggedFinish closes) [[1], [], [2, 3]] ((), []) =
        .done (ok, fd', passed) ∧
      passed <+: paddedBlocks fourPages [1, 2, 3] ∧
      ((ok = true ∨ ∀ s d, (takesAll s d).1 = true) → passed = paddedBlocks fourPages [1, 2, 3])) ∧
    ∀ data₁ ctx₁ data₂ ctx₂,
      readPieces countingReader [3, 1] ⟨[0, 0], 2, 7⟩ = .done (some (data₁, ctx₁)) →
      readPieces countingReader [1, 0, 3] ⟨[0, 0], 2, 7⟩ = .done (some (data₂, ctx₂)) →
        data₁ = data₂ :=
  chunking_independent fourPages takesAll closes () countingReader ⟨rfl, le_rfl⟩ rfl rfl

end BootableRecovery.Mtdutils.Stream
