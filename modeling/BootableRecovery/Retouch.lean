import BootableRecovery.Lib.CString
import BootableRecovery.Lib.Slots

/-!
# Retouched libraries

Prelinked libraries are moved by a random shift after installation. The end of
such a file has a list of its relocated words in a delta code.
`retouch_mask_data` goes through the list. It either writes every word for a
given shift, or infers the shift that is there.

* `decode_in_memory` models one record of the list, `retouch_mask_data` the call.
* `Decodes` says which entries a list has, independent of the words.
* `retouch_mask_data_apply`: writing a shift fills the slots of the entries.
* `retouch_mask_data_infer`: the shift of filled slots is inferred.
* `retouch_laws`: the last shift is left, it is inferred, and a masked library
  does not depend on the shift it had.

A binary has at most 2 GiB, the range of the parameter `binary_size`.
-/

namespace BootableRecovery.Retouch

/-! ## Words in memory -/

/-- The byte at an address, as C promotes it. The list is followed by 20 bytes
of the two info structures, and a record has at most 8 bytes, so no address that
is read lies behind the buffer. -/
def byte (binary_object : Bytes) (addr : Nat) : BitVec 32 :=
  BitVec.ofNat 32 (binary_object.getD addr 0).toNat

/-- The `uint32_t` at an address. -/
def readWord (binary_object : Bytes) (addr : Nat) : BitVec 32 :=
  BitVec.ofNat 32 (leNat (slice binary_object addr 4))

/-- The bytes of a `uint32_t`. -/
def wordBytes (v : BitVec 32) : Bytes := leBytes 4 v.toNat

@[simp] theorem wordBytes_length (v : BitVec 32) : (wordBytes v).length = 4 :=
  leBytes_length 4 v.toNat

theorem readWord_of_slice {binary_object : Bytes} {addr : Nat} {v : BitVec 32}
    (h : slice binary_object addr 4 = wordBytes v) : readWord binary_object addr = v := by
  rw [readWord, h, wordBytes, leNat_leBytes_of_lt v.isLt, BitVec.ofNat_toNat, BitVec.setWidth_eq]

theorem readWord_overwrite {binary_object : Bytes} {addr : Nat} (v : BitVec 32)
    (h : addr + 4 ≤ binary_object.length) :
    readWord (overwrite binary_object addr (wordBytes v)) addr = v :=
  readWord_of_slice (@slice_overwrite binary_object (wordBytes v) addr h)

/-! ## The list of relocations -/

/-- A decoded record: the place of a word as an `int32_t` and its contents
without a shift. The decoder state (`offs_prev`, `cont_prev`) is the entry that
was decoded last. -/
structure Entry where
  offset : BitVec 32
  contents : BitVec 32
  deriving DecidableEq, Repr

def init_compression_state : Entry := ⟨0, 0⟩

/-- A delta whose original was negative is padded with ones. -/
def pad (sign ones tmp : BitVec 32) : BitVec 32 := if tmp &&& sign ≠ 0 then ones ||| tmp else tmp

/-- The record of `encoded_size` bytes that follows the entry `prev`. -/
def decode_bytes (prev : Entry) (encoded_bytes : Nat → BitVec 32) (encoded_size : Nat) : Entry :=
  if encoded_size = 2 then
    { offset := prev.offset + (((encoded_bytes 0 &&& 0x60) >>> 5) + 1) * 4
      contents := prev.contents +
        pad 0x1000 0xffffe000 (((encoded_bytes 0 &&& 0x1f) <<< 8) ||| encoded_bytes 1) }
  else if encoded_size = 3 then
    { offset := prev.offset + (((encoded_bytes 0 &&& 0x30) >>> 4) + 1) * 4
      contents := prev.contents +
        pad 0x80000 0xfff00000 (((encoded_bytes 0 &&& 0xf) <<< 16) |||
          (encoded_bytes 1 <<< 8) ||| encoded_bytes 2) }
  else
    let dst_offset := (encoded_bytes 0 <<< 24) ||| (encoded_bytes 1 <<< 16) |||
      (encoded_bytes 2 <<< 8) ||| encoded_bytes 3
    { offset := if dst_offset = 0x3fffffff then -1 else dst_offset
      contents := (encoded_bytes 4 <<< 24) ||| (encoded_bytes 5 <<< 16) |||
        (encoded_bytes 6 <<< 8) ||| encoded_bytes 7 }

/-- The length of the record with the given first byte. -/
def input_size (first : BitVec 32) : Nat :=
  if first &&& 0x80 ≠ 0 then 2 else if first &&& 0x40 ≠ 0 then 3 else 8

/-- Decode the record at `b_ptr`; the result is the place behind it and the entry. -/
def decode_in_memory (binary_object : Bytes) (prev : Entry) (b_ptr : Nat) : Nat × Entry :=
  let input := fun k => byte binary_object (b_ptr + k)
  (b_ptr + input_size (input 0), decode_bytes prev input (input_size (input 0)))

theorem input_size_pos (first : BitVec 32) : 0 < input_size first := by
  unfold input_size
  split_ifs <;> decide

theorem input_size_cases (first : BitVec 32) :
    input_size first = 2 ∨ input_size first = 3 ∨ input_size first = 8 := by
  unfold input_size
  split_ifs <;> simp

theorem decode_in_memory_lt (binary_object : Bytes) (prev : Entry) (b_ptr : Nat) :
    b_ptr < (decode_in_memory binary_object prev b_ptr).1 :=
  Nat.lt_add_of_pos_right (input_size_pos _)

/-- A record depends on its own bytes only. -/
theorem decode_bytes_congr (prev : Entry) {input input' : Nat → BitVec 32} {size : Nat}
    (hsize : size = 2 ∨ size = 3 ∨ size = 8) (h : ∀ k < size, input' k = input k) :
    decode_bytes prev input' size = decode_bytes prev input size := by
  unfold decode_bytes
  rcases hsize with rfl | rfl | rfl
  · simp only [↓reduceIte, h 0 (by decide), h 1 (by decide)]
  · simp only [↓reduceIte, h 0 (by decide), h 1 (by decide), h 2 (by decide)]
  · simp only [h 0 (by decide), h 1 (by decide), h 2 (by decide), h 3 (by decide),
      h 4 (by decide), h 5 (by decide), h 6 (by decide), h 7 (by decide)]

theorem decode_in_memory_congr {binary_object binary_object' : Bytes} {prev : Entry} {b_ptr : Nat}
    (h : ∀ j, b_ptr ≤ j → j < (decode_in_memory binary_object prev b_ptr).1 →
      binary_object'[j]? = binary_object[j]?) :
    decode_in_memory binary_object' prev b_ptr = decode_in_memory binary_object prev b_ptr := by
  have hbyte : ∀ k < input_size (byte binary_object b_ptr),
      byte binary_object' (b_ptr + k) = byte binary_object (b_ptr + k) := by
    intro k hk
    rw [byte, byte, List.getD_eq_getElem?_getD, List.getD_eq_getElem?_getD,
      h (b_ptr + k) (Nat.le_add_right _ _) (Nat.add_lt_add_left hk b_ptr)]
  have hfirst : byte binary_object' b_ptr = byte binary_object b_ptr :=
    hbyte 0 (input_size_pos _)
  simp only [decode_in_memory, Nat.add_zero, hfirst]
  rw [decode_bytes_congr prev (input_size_cases _) hbyte]

/-- `Decodes data stop b_ptr prev es`: the records from `b_ptr` on are the
entries `es`, and the last of them ends at `stop`. -/
inductive Decodes (data : Bytes) (stop : Nat) : Nat → Entry → List Entry → Prop
  | nil {prev : Entry} : Decodes data stop stop prev []
  | cons {b_ptr next : Nat} {prev e : Entry} {es : List Entry} :
      decode_in_memory data prev b_ptr = (next, e) →
      Decodes data stop next e es → Decodes data stop b_ptr prev (e :: es)

theorem Decodes.le {data : Bytes} {stop b_ptr : Nat} {prev : Entry} {es : List Entry}
    (h : Decodes data stop b_ptr prev es) : b_ptr ≤ stop := by
  induction h with
  | nil => exact le_rfl
  | @cons b_ptr next prev e es hdec _ ih =>
    have hlt := decode_in_memory_lt data prev b_ptr
    rw [hdec] at hlt
    exact hlt.le.trans ih

/-- The first record of a list that is not empty. -/
theorem Decodes.uncons {data : Bytes} {stop b_ptr : Nat} {prev e : Entry} {es : List Entry}
    (h : Decodes data stop b_ptr prev (e :: es)) :
    ∃ next, decode_in_memory data prev b_ptr = (next, e) ∧ b_ptr < next ∧ b_ptr < stop ∧
      Decodes data stop next e es := by
  cases h with
  | @cons _ next _ _ _ hdec hrest =>
    have hlt := decode_in_memory_lt data prev b_ptr
    rw [hdec] at hlt
    exact ⟨next, hdec, hlt, hlt.trans_le hrest.le, hrest⟩

theorem Decodes.eq_stop {data : Bytes} {stop b_ptr : Nat} {prev : Entry}
    (h : Decodes data stop b_ptr prev []) : b_ptr = stop := by
  cases h
  rfl

/-- Only the bytes of the list matter. -/
theorem Decodes.congr {data data' : Bytes} {stop b_ptr : Nat} {prev : Entry} {es : List Entry}
    (h : Decodes data stop b_ptr prev es)
    (hagree : ∀ j, b_ptr ≤ j → j < stop → data'[j]? = data[j]?) :
    Decodes data' stop b_ptr prev es := by
  induction h with
  | nil => exact .nil
  | @cons b_ptr next prev e es hdec hrest ih =>
    have hlt := decode_in_memory_lt data prev b_ptr
    rw [hdec] at hlt
    refine .cons ?_ (ih fun j hj hstop => hagree j (hlt.le.trans hj) hstop)
    rw [decode_in_memory_congr, hdec]
    intro j hj hnext
    rw [hdec] at hnext
    exact hagree j hj (hnext.trans_le hrest.le)

/-! ## The call -/

/-- The return codes `RETOUCH_DATA_*`. -/
inductive RetouchData
  | error
  | matched
  | mismatched
  | notapplicable
  deriving DecidableEq, Repr

/-- The variables of the loop over the records. -/
structure RetouchLoop where
  binary_object : Bytes
  b_ptr : Nat
  prev : Entry
  offset_candidate : BitVec 32
  offset_set : Bool
  offset_mismatch : Bool

/-- Where the word of an entry is; `none` for an offset outside the binary. -/
def retouch_entry (b_offs : Int) (p_offs : Nat) (retouch_entry_offset : BitVec 32) : Option Nat :=
  if retouch_entry_offset.toInt < -1 ∨ b_offs ≤ retouch_entry_offset.toInt then none
  -- -1 is the value in `prelink_info_t`, which is randomized as well
  else if retouch_entry_offset.toInt = -1 then some p_offs
  else some retouch_entry_offset.toInt.toNat

/-- Compare the shift of an entry with the shift inferred before. -/
def RetouchLoop.infer (s : RetouchLoop) (offset_of_this_entry : BitVec 32) : RetouchLoop :=
  if s.offset_set = false then
    { s with offset_candidate := offset_of_this_entry, offset_set := true }
  else if s.offset_candidate ≠ offset_of_this_entry then { s with offset_mismatch := true }
  else s

/-- The decoded entry `e` with its word at `addr`: write the word when a shift is
given, then read it back for the shift. -/
def RetouchLoop.visit (s : RetouchLoop) (desired_offset : Option (BitVec 32)) (addr next : Nat)
    (e : Entry) : RetouchLoop :=
  let binary_object := match desired_offset with
    | some target_offset =>
      overwrite s.binary_object addr (wordBytes (e.contents + target_offset))
    | none => s.binary_object
  { s with binary_object := binary_object, b_ptr := next, prev := e }.infer
    (readWord binary_object addr - e.contents)

/-- One round of the loop; `none` is the return for a bad entry. -/
def retouch_round (b_offs : Int) (p_offs : Nat) (desired_offset : Option (BitVec 32))
    (s : RetouchLoop) : Option RetouchLoop :=
  let r := decode_in_memory s.binary_object s.prev s.b_ptr
  match retouch_entry b_offs p_offs r.2.offset with
  | none => none
  | some addr => some (s.visit desired_offset addr r.1 r.2)

section

variable {s s' : RetouchLoop} {d : BitVec 32}

@[simp] theorem infer_binary_object : (s.infer d).binary_object = s.binary_object := by
  unfold RetouchLoop.infer
  split_ifs <;> rfl

@[simp] theorem infer_b_ptr : (s.infer d).b_ptr = s.b_ptr := by
  unfold RetouchLoop.infer
  split_ifs <;> rfl

@[simp] theorem infer_prev : (s.infer d).prev = s.prev := by
  unfold RetouchLoop.infer
  split_ifs <;> rfl

@[simp] theorem visit_b_ptr {desired_offset : Option (BitVec 32)} {addr next : Nat} {e : Entry} :
    (s.visit desired_offset addr next e).b_ptr = next := infer_b_ptr

@[simp] theorem visit_prev {desired_offset : Option (BitVec 32)} {addr next : Nat} {e : Entry} :
    (s.visit desired_offset addr next e).prev = e := infer_prev

@[simp] theorem visit_some_binary_object {addr next : Nat} {e : Entry} :
    (s.visit (some d) addr next e).binary_object =
      overwrite s.binary_object addr (wordBytes (e.contents + d)) := infer_binary_object

@[simp] theorem visit_none_binary_object {addr next : Nat} {e : Entry} :
    (s.visit none addr next e).binary_object = s.binary_object := infer_binary_object

theorem retouch_round_b_ptr {b_offs : Int} {p_offs : Nat} {desired_offset : Option (BitVec 32)}
    (h : retouch_round b_offs p_offs desired_offset s = some s') : s.b_ptr < s'.b_ptr := by
  simp only [retouch_round] at h
  have hlt := decode_in_memory_lt s.binary_object s.prev s.b_ptr
  generalize decode_in_memory s.binary_object s.prev s.b_ptr = r at h hlt
  cases haddr : retouch_entry b_offs p_offs r.2.offset with
  | none =>
    rw [haddr] at h
    cases h
  | some addr =>
    rw [haddr] at h
    obtain rfl := Option.some.inj h
    rwa [visit_b_ptr]

end

/-- The loop over the records. `error` is the return for a bad entry, with the
bytes as they are then. -/
def retouch_loop (b_offs : Int) (r_offs p_offs : Nat) (desired_offset : Option (BitVec 32))
    (s : RetouchLoop) : Except Bytes RetouchLoop :=
  if s.b_ptr < r_offs then
    match _h : retouch_round b_offs p_offs desired_offset s with
    | none => .error s.binary_object
    | some s' => retouch_loop b_offs r_offs p_offs desired_offset s'
  else .ok s
termination_by r_offs - s.b_ptr
decreasing_by
  have hlt := retouch_round_b_ptr _h
  omega

/-- What a call returns, the bytes it leaves and the value of `*retouch_offset`
when that pointer is given. -/
structure Retouched where
  code : RetouchData
  binary_object : Bytes
  retouch_offset : BitVec 32
  deriving DecidableEq, Repr

/-- The offset of `prelink_info_t`. -/
def pOffs (binary_object : Bytes) : Int := binary_object.length - 8

/-- The offset of `retouch_info_t`. -/
def rOffs (binary_object : Bytes) : Int := pOffs binary_object - 12

/-- The field `blob_size` of `retouch_info_t`. -/
def blobSize (binary_object : Bytes) : Nat :=
  leNat (slice binary_object ((rOffs binary_object).toNat + 8) 4)

/-- The offset of the list. -/
def bOffs (binary_object : Bytes) : Int := wrap32 (rOffs binary_object - blobSize binary_object)

/-- Both info structures have their tags. -/
def tagged (binary_object : Bytes) : Bool :=
  slice binary_object ((pOffs binary_object).toNat + 4) 4 == ascii "PRE " &&
    slice binary_object (rOffs binary_object).toNat 8 == ascii "RETOUCH "

/-- What is returned after the loop. -/
def retouch_result (r_offs : Nat) (target_offset : BitVec 32) :
    Except Bytes RetouchLoop → Retouched
  | .error binary_object => ⟨.error, binary_object, target_offset⟩
  | .ok s =>
    if r_offs < s.b_ptr then ⟨.error, s.binary_object, target_offset⟩
    else if s.offset_mismatch then ⟨.mismatched, s.binary_object, target_offset⟩
    else ⟨.matched, s.binary_object, s.offset_candidate⟩

def retouch_mask_data (binary_object : Bytes) (desired_offset : Option (BitVec 32)) : Retouched :=
  let target_offset := desired_offset.getD 0
  -- a binary that is not retouched
  if rOffs binary_object < 0 ∨ tagged binary_object = false then
    ⟨if desired_offset = none then .notapplicable else .matched, binary_object, target_offset⟩
  else if bOffs binary_object < 0 then ⟨.error, binary_object, target_offset⟩
  else
    retouch_result (rOffs binary_object).toNat target_offset
      (retouch_loop (bOffs binary_object) (rOffs binary_object).toNat (pOffs binary_object).toNat
        desired_offset ⟨binary_object, (bOffs binary_object).toNat, init_compression_state,
          target_offset, false, false⟩)

/-- `LoadFileContents` on a regular file with the given bytes: with
`RETOUCH_DO_MASK` they are masked before the hash is taken. -/
def LoadFileContents {δ : Type} (sha : Bytes → δ) (data : Bytes) (retouch_flag : Bool) :
    Option (Bytes × δ) :=
  if retouch_flag then
    let masked := retouch_mask_data data (some 0)
    if masked.code ≠ .matched then none
    else some (masked.binary_object, sha masked.binary_object)
  else some (data, sha data)

/-- The hash is that of the contents that are kept. -/
theorem loadFileContents_sha {δ : Type} {sha : Bytes → δ} {data masked : Bytes}
    {retouch_flag : Bool} {sha1 : δ}
    (h : LoadFileContents sha data retouch_flag = some (masked, sha1)) : sha1 = sha masked := by
  unfold LoadFileContents at h
  dsimp only at h
  split_ifs at h
  · cases h
    rfl
  · cases h
    rfl

/-- A file without retouch data is kept as it is. -/
theorem loadFileContents_plain {δ : Type} {sha : Bytes → δ} {data : Bytes}
    (h : tagged data = false) : LoadFileContents sha data true = some (data, sha data) := by
  have hmask : retouch_mask_data data (some 0) = ⟨.matched, data, 0⟩ := by
    unfold retouch_mask_data
    rw [if_pos (.inr h)]
    rfl
  rw [LoadFileContents, hmask]
  rfl

/-! ## Well-formed binaries -/

/-- The entry names the word in `prelink_info_t` or a word before the list. -/
def Placed (b_offs : Nat) (e : Entry) : Prop :=
  e.offset.toInt = -1 ∨ 0 ≤ e.offset.toInt ∧ e.offset.toInt + 4 ≤ b_offs

instance (b_offs : Nat) (e : Entry) : Decidable (Placed b_offs e) :=
  inferInstanceAs (Decidable (_ ∨ _))

/-- Where the word of an entry is. -/
def slot (p_offs : Nat) (e : Entry) : Nat :=
  if e.offset.toInt = -1 then p_offs else e.offset.toInt.toNat

/-- `es` are the entries of a retouched binary with a well-formed list. -/
structure WellFormed (data : Bytes) (es : List Entry) : Prop where
  /-- The size fits into `binary_size`, and the two info structures are there. -/
  size_lt : data.length < 2 ^ 31
  size_ge : 20 ≤ data.length
  tags : tagged data = true
  /-- The list lies in the binary, and its last record ends where it does. -/
  blob_le : blobSize data ≤ data.length - 20
  decodes : Decodes data (data.length - 20) (data.length - 20 - blobSize data)
    init_compression_state es
  placed : ∀ e ∈ es, Placed (data.length - 20 - blobSize data) e
  /-- At most one entry is for `prelink_info_t`. -/
  one_prelink : es.Pairwise fun e f => ¬(e.offset.toInt = -1 ∧ f.offset.toInt = -1)
  apart : es.Pairwise fun e f => 0 ≤ e.offset.toInt → 0 ≤ f.offset.toInt →
    e.offset.toInt + 4 ≤ f.offset.toInt ∨ f.offset.toInt + 4 ≤ e.offset.toInt

/-- The binary with every word moved by the shift `d`. -/
def shifted (es : List Entry) (d : BitVec 32) (data : Bytes) : Bytes :=
  fill (slot (data.length - 8)) (fun e => wordBytes (e.contents + d)) es data

section

variable {b_offs r_offs p_offs : Nat} {e : Entry}

theorem retouch_entry_placed (h : Placed b_offs e) :
    retouch_entry b_offs p_offs e.offset = some (slot p_offs e) := by
  unfold retouch_entry slot
  rcases h with h | ⟨hlow, hhigh⟩
  · rw [if_neg (by omega), if_pos h, if_pos h]
  · rw [if_neg (by omega), if_neg (by omega), if_neg (by omega)]

/-- No word of an entry lies in the list or in `retouch_info_t`. -/
theorem slot_disjoint (h : Placed b_offs e) {q n : Nat} (hlow : b_offs ≤ q)
    (hhigh : q + n ≤ p_offs) : q + n ≤ slot p_offs e ∨ slot p_offs e + 4 ≤ q := by
  unfold slot
  rcases h with h | ⟨hpos, hend⟩
  · rw [if_pos h]
    exact .inl hhigh
  · rw [if_neg (by omega)]
    omega

theorem slot_le (h : Placed b_offs e) (hb : b_offs ≤ p_offs) : slot p_offs e ≤ p_offs := by
  unfold slot
  rcases h with h | ⟨hpos, hend⟩
  · rw [if_pos h]
  · rw [if_neg (by omega)]
    omega

end

/-! ## Runs of the loop -/

/-- Nothing speaks against the shift `d`. -/
def Ready (d : BitVec 32) (s : RetouchLoop) : Prop :=
  s.offset_mismatch = false ∧ (s.offset_set = true → s.offset_candidate = d)

/-- The shift `d` is the candidate. -/
def Settled (d : BitVec 32) (s : RetouchLoop) : Prop :=
  s.offset_mismatch = false ∧ s.offset_candidate = d

section

variable {b_offs r_offs p_offs : Nat} {d : BitVec 32} {s : RetouchLoop}

theorem Settled.ready (h : Settled d s) : Ready d s := ⟨h.1, fun _ => h.2⟩

/-- An entry that has the shift makes it the candidate. -/
theorem Ready.infer (h : Ready d s) : Settled d (s.infer d) := by
  unfold RetouchLoop.infer
  by_cases hset : s.offset_set = false
  · rw [if_pos hset]
    exact ⟨h.1, rfl⟩
  · have hcand := h.2 (Bool.eq_true_of_not_eq_false hset)
    rw [if_neg hset, if_neg (not_not_intro hcand)]
    exact ⟨h.1, hcand⟩

/-- Writing the word of an entry for the shift `d`. -/
theorem Ready.visit_some (h : Ready d s) {addr : Nat} (hfit : addr + 4 ≤ s.binary_object.length)
    (next : Nat) (e : Entry) : Settled d (s.visit (some d) addr next e) := by
  simp only [RetouchLoop.visit]
  rw [readWord_overwrite _ hfit, add_sub_cancel_left]
  exact Ready.infer h

/-- Reading the word of an entry that has the shift `d`. -/
theorem Ready.visit_none (h : Ready d s) {addr : Nat} {e : Entry}
    (hword : readWord s.binary_object addr = e.contents + d) (next : Nat) :
    Settled d (s.visit none addr next e) := by
  simp only [RetouchLoop.visit]
  rw [hword, add_sub_cancel_left]
  exact Ready.infer h

/-- One round of the loop, on an entry of a well-formed list. -/
theorem retouch_loop_cons {desired_offset : Option (BitVec 32)} {next : Nat} {e : Entry}
    (hlt : s.b_ptr < r_offs)
    (hdec : decode_in_memory s.binary_object s.prev s.b_ptr = (next, e))
    (hplaced : Placed b_offs e) :
    retouch_loop b_offs r_offs p_offs desired_offset s =
      retouch_loop b_offs r_offs p_offs desired_offset
        (s.visit desired_offset (slot p_offs e) next e) := by
  have hround : retouch_round b_offs p_offs desired_offset s =
      some (s.visit desired_offset (slot p_offs e) next e) := by
    simp only [retouch_round, hdec, retouch_entry_placed hplaced]
  rw [retouch_loop.eq_def, if_pos hlt]
  split
  · next heq =>
    rw [hround] at heq
    cases heq
  · next s' heq =>
    rw [hround] at heq
    rw [Option.some.inj heq]

theorem retouch_loop_nil {desired_offset : Option (BitVec 32)} (h : s.b_ptr = r_offs) :
    retouch_loop b_offs r_offs p_offs desired_offset s = .ok s := by
  rw [retouch_loop.eq_def, if_neg (by omega)]

/-- The bytes of the list survive a write to the word of an entry. -/
theorem Decodes.overwrite {data : Bytes} {b_ptr : Nat} {prev e : Entry} {es : List Entry}
    (h : Decodes data r_offs b_ptr prev es) (hplaced : Placed b_offs e)
    (hfit : slot p_offs e + 4 ≤ data.length) (hb : b_offs ≤ b_ptr) (hr : r_offs ≤ p_offs)
    (v : BitVec 32) :
    Decodes (overwrite data (slot p_offs e) (wordBytes v)) r_offs b_ptr prev es := by
  refine h.congr fun j hlow hhigh => ?_
  rw [overwrite_getElem? (by rwa [wordBytes_length]), wordBytes_length, if_neg]
  have hout := @slot_disjoint b_offs p_offs e hplaced j 1 (hb.trans hlow) (by omega)
  omega

/-- A run that writes: every word gets the shift. -/
theorem retouch_loop_apply (hr : r_offs ≤ p_offs) {es : List Entry}
    (hdec : Decodes s.binary_object r_offs s.b_ptr s.prev es)
    (hplaced : ∀ e ∈ es, Placed b_offs e) (hb : b_offs ≤ s.b_ptr)
    (hin : Inside (slot p_offs) 4 s.binary_object.length es) (hsettled : Settled d s) :
    ∃ s', retouch_loop b_offs r_offs p_offs (some d) s = .ok s' ∧ s'.b_ptr = r_offs ∧
      s'.binary_object =
        fill (slot p_offs) (fun e => wordBytes (e.contents + d)) es s.binary_object ∧
      Settled d s' := by
  induction es generalizing s with
  | nil => exact ⟨s, retouch_loop_nil hdec.eq_stop, hdec.eq_stop, rfl, hsettled⟩
  | cons e es ih =>
    obtain ⟨next, hrec, hnext, hlt, hrest⟩ := hdec.uncons
    have hhead := hplaced e List.mem_cons_self
    have hval : ∀ e : Entry, (wordBytes (e.contents + d)).length = 4 := fun e =>
      wordBytes_length _
    rw [retouch_loop_cons hlt hrec hhead]
    have hrest' := hrest.overwrite hhead hin.head (hb.trans hnext.le) hr (e.contents + d)
    have hin' := hin.next hval
    obtain ⟨s', hrun, hend, hbytes, hsettled'⟩ :=
      ih (s := s.visit (some d) (slot p_offs e) next e) (by simpa using hrest')
        (fun f hf => hplaced f (List.mem_cons_of_mem e hf)) (by simpa using hb.trans hnext.le)
        (by simpa using hin') (hsettled.ready.visit_some hin.head next e)
    rw [visit_some_binary_object] at hbytes
    exact ⟨s', hrun, hend, hbytes, hsettled'⟩

/-- A run that infers: every word has the shift. -/
theorem retouch_loop_infer {es : List Entry}
    (hdec : Decodes s.binary_object r_offs s.b_ptr s.prev es)
    (hplaced : ∀ e ∈ es, Placed b_offs e)
    (hword : ∀ e ∈ es, readWord s.binary_object (slot p_offs e) = e.contents + d)
    (hready : Ready d s) (hsome : es ≠ [] ∨ Settled d s) :
    ∃ s', retouch_loop b_offs r_offs p_offs none s = .ok s' ∧ s'.b_ptr = r_offs ∧
      s'.binary_object = s.binary_object ∧ Settled d s' := by
  induction es generalizing s with
  | nil =>
    have hsettled := hsome.resolve_left (not_not_intro rfl)
    exact ⟨s, retouch_loop_nil hdec.eq_stop, hdec.eq_stop, rfl, hsettled⟩
  | cons e es ih =>
    obtain ⟨next, hrec, hnext, hlt, hrest⟩ := hdec.uncons
    rw [retouch_loop_cons hlt hrec (hplaced e List.mem_cons_self)]
    have hsettled := hready.visit_none (hword e List.mem_cons_self) next
    obtain ⟨s', hrun, hend, hbytes, hsettled'⟩ :=
      ih (s := s.visit none (slot p_offs e) next e) (by simpa using hrest)
        (fun f hf => hplaced f (List.mem_cons_of_mem e hf))
        (fun f hf => by simpa using hword f (List.mem_cons_of_mem e hf)) hsettled.ready
        (.inr hsettled)
    rw [visit_none_binary_object] at hbytes
    exact ⟨s', hrun, hend, hbytes, hsettled'⟩

end

/-! ## Laws -/

section

variable {data : Bytes} {es : List Entry} (d : BitVec 32)

/-- A word and the shift it is written for. -/
theorem shiftedWord_length (e : Entry) : (wordBytes (e.contents + d)).length = 4 :=
  wordBytes_length _

namespace WellFormed

theorem rOffs_eq (wf : WellFormed data es) : rOffs data = (data.length - 20 : Nat) := by
  have hge := wf.size_ge
  unfold rOffs pOffs
  omega

theorem pOffs_eq (wf : WellFormed data es) : pOffs data = (data.length - 8 : Nat) := by
  have hge := wf.size_ge
  unfold pOffs
  omega

theorem bOffs_eq (wf : WellFormed data es) :
    bOffs data = (data.length - 20 - blobSize data : Nat) := by
  have hlt := wf.size_lt
  have hle := wf.blob_le
  rw [bOffs, wf.rOffs_eq, wrap32_of_range (by omega) (by omega)]
  omega

theorem inside (wf : WellFormed data es) : Inside (slot (data.length - 8)) 4 data.length es := by
  intro e he
  have hge := wf.size_ge
  have hle := @slot_le _ (data.length - 8) e (wf.placed e he) (by omega)
  omega

/-- The words of the entries do not overlap. -/
theorem slots_apart (wf : WellFormed data es) : Apart (slot (data.length - 8)) 4 es := by
  refine (wf.one_prelink.and wf.apart).imp_of_mem ?_
  intro e f he hf hef
  obtain ⟨hone, hapart⟩ := hef
  have hge := wf.size_ge
  unfold slot
  rcases wf.placed e he with hpre | ⟨hpos, hend⟩
  · rcases wf.placed f hf with hpre' | ⟨hpos', hend'⟩
    · exact absurd ⟨hpre, hpre'⟩ hone
    · rw [if_pos hpre, if_neg (by omega)]
      omega
  · rw [if_neg (by omega)]
    rcases wf.placed f hf with hpre' | ⟨hpos', hend'⟩
    · rw [if_pos hpre']
      omega
    · have hsep := hapart hpos hpos'
      rw [if_neg (by omega)]
      omega

theorem shifted_length (wf : WellFormed data es) : (shifted es d data).length = data.length :=
  fill_length (shiftedWord_length d) wf.inside

/-- Nothing between the start of the list and `prelink_info_t` is written. -/
theorem slice_shifted (wf : WellFormed data es) {q n : Nat}
    (hlow : data.length - 20 - blobSize data ≤ q) (hhigh : q + n ≤ data.length - 8) :
    slice (shifted es d data) q n = slice data q n :=
  slice_fill_of_disjoint (shiftedWord_length d) wf.inside fun e he =>
    slot_disjoint (wf.placed e he) hlow hhigh

theorem tagged_shifted (wf : WellFormed data es) : tagged (shifted es d data) = true := by
  have hge := wf.size_ge
  have hpre : slice (shifted es d data) (data.length - 8 + 4) 4 =
      slice data (data.length - 8 + 4) 4 := by
    refine slice_fill_of_disjoint (shiftedWord_length d) wf.inside fun e he => .inr ?_
    have hle := @slot_le _ (data.length - 8) e (wf.placed e he) (by omega)
    omega
  have hret := wf.slice_shifted d (q := data.length - 20) (n := 8) (Nat.sub_le _ _) (by omega)
  have htags := wf.tags
  have hlen := wf.shifted_length d
  rw [tagged, wf.pOffs_eq, wf.rOffs_eq] at htags
  rw [tagged, rOffs, pOffs, hlen, ← pOffs, ← rOffs, wf.pOffs_eq, wf.rOffs_eq]
  simp only [Int.toNat_natCast] at htags ⊢
  rw [hpre, hret, htags]

theorem blobSize_shifted (wf : WellFormed data es) :
    blobSize (shifted es d data) = blobSize data := by
  have hge := wf.size_ge
  have hfield := wf.slice_shifted d (q := data.length - 20 + 8) (n := 4) (by omega) (by omega)
  rw [blobSize, rOffs, pOffs, wf.shifted_length d, ← pOffs, ← rOffs, blobSize, wf.rOffs_eq,
    Int.toNat_natCast, hfield]

/-- A shifted binary has the same list. -/
theorem shifted_wf (wf : WellFormed data es) : WellFormed (shifted es d data) es := by
  have hge := wf.size_ge
  have hlen := wf.shifted_length d
  have hblob := wf.blobSize_shifted d
  refine ⟨?_, ?_, wf.tagged_shifted d, ?_, ?_, ?_, wf.one_prelink, wf.apart⟩
  · rw [hlen]
    exact wf.size_lt
  · rwa [hlen]
  · rw [hlen, hblob]
    exact wf.blob_le
  · rw [hlen, hblob]
    refine wf.decodes.congr fun j hlow hhigh => ?_
    refine fill_getElem?_of_disjoint (shiftedWord_length d) wf.inside fun e he => ?_
    have hout := @slot_disjoint _ (data.length - 8) e (wf.placed e he) j 1 hlow (by omega)
    omega
  · rw [hlen, hblob]
    exact wf.placed

/-- In a shifted binary every word has the shift. -/
theorem readWord_shifted (wf : WellFormed data es) {e : Entry} (he : e ∈ es) :
    readWord (shifted es d data) (slot (data.length - 8) e) = e.contents + d :=
  readWord_of_slice (slice_fill (shiftedWord_length d) wf.inside wf.slots_apart he)

theorem shifted_shifted (wf : WellFormed data es) (d' : BitVec 32) :
    shifted es d' (shifted es d data) = shifted es d' data := by
  rw [shifted, wf.shifted_length d]
  exact fill_fill (shiftedWord_length d) (shiftedWord_length d') wf.inside

/-- The call goes through the list. -/
theorem call_eq (wf : WellFormed data es) (desired_offset : Option (BitVec 32)) :
    retouch_mask_data data desired_offset =
      retouch_result (data.length - 20) (desired_offset.getD 0)
        (retouch_loop (data.length - 20 - blobSize data : Nat) (data.length - 20)
          (data.length - 8) desired_offset
          ⟨data, data.length - 20 - blobSize data, init_compression_state,
            desired_offset.getD 0, false, false⟩) := by
  have htags := wf.tags
  rw [retouch_mask_data, wf.rOffs_eq, wf.bOffs_eq, wf.pOffs_eq, if_neg (by simp [htags]),
    if_neg (by omega)]
  simp only [Int.toNat_natCast]

end WellFormed

/-- The result of a run that ended at the info structures with the shift `d`. -/
theorem retouch_result_settled {d : BitVec 32} {r_offs : Nat} {target_offset : BitVec 32}
    {s : RetouchLoop} (hend : s.b_ptr = r_offs) (hsettled : Settled d s) :
    retouch_result r_offs target_offset (.ok s) = ⟨.matched, s.binary_object, d⟩ := by
  obtain ⟨hmis, hcand⟩ := hsettled
  rw [retouch_result, if_neg (by omega), hmis, hcand]
  rfl

/-- Writing a shift moves every word. -/
theorem retouch_mask_data_apply (wf : WellFormed data es) :
    retouch_mask_data data (some d) = ⟨.matched, shifted es d data, d⟩ := by
  obtain ⟨s', hrun, hend, hbytes, hsettled⟩ := retouch_loop_apply (d := d)
    (s := ⟨data, data.length - 20 - blobSize data, init_compression_state, d, false, false⟩)
    (by omega) wf.decodes wf.placed le_rfl wf.inside ⟨rfl, rfl⟩
  rw [wf.call_eq, Option.getD_some, hrun, retouch_result_settled hend hsettled, hbytes]
  rfl

/-- The shift that every word has is inferred, and no byte is written. -/
theorem retouch_mask_data_infer {d : BitVec 32} (wf : WellFormed data es) (hne : es ≠ [])
    (hword : ∀ e ∈ es, readWord data (slot (data.length - 8) e) = e.contents + d) :
    retouch_mask_data data none = ⟨.matched, data, d⟩ := by
  obtain ⟨s', hrun, hend, hbytes, hsettled⟩ := retouch_loop_infer (d := d)
    (s := ⟨data, data.length - 20 - blobSize data, init_compression_state, 0, false, false⟩)
    wf.decodes wf.placed hword ⟨rfl, fun h => by cases h⟩ (.inl hne)
  rw [wf.call_eq, Option.getD_none, hrun, retouch_result_settled hend hsettled, hbytes]

/-- A retouched file is loaded as it was before it was moved. -/
theorem loadFileContents_masked {δ : Type} (sha : Bytes → δ) (wf : WellFormed data es) :
    LoadFileContents sha data true = some (shifted es 0 data, sha (shifted es 0 data)) := by
  rw [LoadFileContents, if_pos rfl, retouch_mask_data_apply 0 wf]
  rfl

/-- The shift of the last call is the one that is left. It can be inferred when
there is an entry. Masked bytes and their hash do not depend on a shift before. -/
theorem retouch_laws {δ : Type} (sha : Bytes → δ) (wf : WellFormed data es) (d d2 : BitVec 32) :
    retouch_mask_data (retouch_mask_data data (some d)).binary_object (some d2) =
        retouch_mask_data data (some d2) ∧
      (es ≠ [] → retouch_mask_data (retouch_mask_data data (some d)).binary_object none =
        ⟨.matched, (retouch_mask_data data (some d)).binary_object, d⟩) ∧
      retouch_mask_data (retouch_mask_data data (some d)).binary_object (some 0) =
        retouch_mask_data data (some 0) ∧
      LoadFileContents sha (retouch_mask_data data (some d)).binary_object true =
        LoadFileContents sha data true ∧
      LoadFileContents sha data true = some ((retouch_mask_data data (some 0)).binary_object,
        sha (retouch_mask_data data (some 0)).binary_object) := by
  have hwf := wf.shifted_wf d
  have hagain : ∀ d', retouch_mask_data (shifted es d data) (some d') =
      retouch_mask_data data (some d') := fun d' => by
    rw [retouch_mask_data_apply d' hwf, retouch_mask_data_apply d' wf, wf.shifted_shifted]
  rw [retouch_mask_data_apply d wf]
  refine ⟨hagain d2, fun hne => ?_, hagain 0, ?_, ?_⟩
  · refine retouch_mask_data_infer hwf hne fun e he => ?_
    rw [wf.shifted_length d]
    exact wf.readWord_shifted d he
  · rw [loadFileContents_masked sha hwf, loadFileContents_masked sha wf, wf.shifted_shifted]
  · rw [loadFileContents_masked sha wf, retouch_mask_data_apply 0 wf]

end

/-- A library with three words and `prelink_info_t`: one record of each length,
then a long one for offset -1. -/
def prelinkedLibrary : Bytes :=
  List.replicate 12 0 ++ [0, 0, 0, 0, 0, 0, 0x10, 0] ++ [0x9f, 0xfc] ++ [0x40, 1, 0] ++
    [0x3f, 0xff, 0xff, 0xff, 0, 0, 0, 0] ++ ascii "RETOUCH " ++ [21, 0, 0, 0] ++ [0, 0, 0, 0] ++
    ascii "PRE "

theorem prelinkedLibrary_wf :
    WellFormed prelinkedLibrary [⟨0, 0x1000⟩, ⟨4, 0xffc⟩, ⟨8, 0x10fc⟩, ⟨-1, 0⟩] where
  size_lt := by decide
  size_ge := by decide
  tags := by decide
  blob_le := by decide
  decodes :=
    have first : decode_in_memory prelinkedLibrary ⟨0, 0⟩ 12 = (20, ⟨0, 0x1000⟩) := by decide
    have second : decode_in_memory prelinkedLibrary ⟨0, 0x1000⟩ 20 = (22, ⟨4, 0xffc⟩) := by decide
    have third : decode_in_memory prelinkedLibrary ⟨4, 0xffc⟩ 22 = (25, ⟨8, 0x10fc⟩) := by decide
    have fourth : decode_in_memory prelinkedLibrary ⟨8, 0x10fc⟩ 25 = (33, ⟨-1, 0⟩) := by decide
    .cons first (.cons second (.cons third (.cons fourth .nil)))
  placed := by decide
  one_prelink := by decide
  apart := by decide

theorem retouch_laws_library :
    retouch_mask_data (retouch_mask_data prelinkedLibrary (some 0x30)).binary_object (some 7) =
        retouch_mask_data prelinkedLibrary (some 7) ∧
      retouch_mask_data (retouch_mask_data prelinkedLibrary (some 0x30)).binary_object none =
        ⟨.matched, (retouch_mask_data prelinkedLibrary (some 0x30)).binary_object, 0x30⟩ :=
  have h := retouch_laws id prelinkedLibrary_wf 0x30 7
  ⟨h.1, h.2.1 (List.cons_ne_nil _ _)⟩

end BootableRecovery.Retouch
