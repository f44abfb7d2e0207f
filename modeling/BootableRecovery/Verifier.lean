import BootableRecovery.Minzip.Zip

/-!
# `verifier.c`: the whole-file signature

A signed archive ends in an archive comment that ends in six bytes:

    (2-byte signature start) $ff $ff (2-byte comment size)

`verify_file` goes back from the end by the comment size to the
end-of-central-directory record, hashes everything up to the comment length
field of that record, and checks the signature in the comment.

`mincrypt` is a parameter. `RSA_verify` is given the buffer and the offset of
the signature block in it, as the source gives it a pointer into the buffer.

Main results:
* `verified_eocd_agrees`: when a file is verified, the backward scan of
  `parseZipArchive` over the same bytes stops at the record that was verified,
  and the fields it reads there are covered by the hash.
* `signature_in_comment`: the signature that is passed to `RSA_verify` lies in
  the comment exactly when the file is rejected before or the comment has room
  for a signature and the footer. `signature_before_record`: in a file with a
  shorter comment it starts before the buffer.
-/

namespace BootableRecovery.Verifier
open Minzip

/-! ## `verify_file` -/

/-- The part of `libmincrypt` that is used. `SHA bytes` is the digest of the
bytes given to `SHA_update`; `RSA_verify key buffer offset len sha1` looks at a
signature of `len` bytes at `offset` of the buffer. -/
structure Mincrypt where
  RSAPublicKey : Type
  RSANUMBYTES : Nat
  SHA : Bytes → Bytes
  RSA_verify : RSAPublicKey → Bytes → Int → Nat → Bytes → Bool

/-- The return value of `verify_file`. -/
inductive VerifyResult where
  | VERIFY_SUCCESS
  | VERIFY_FAILURE
  deriving DecidableEq, Repr

def FOOTER_SIZE : Nat := 6

def EOCD_HEADER_SIZE : Nat := 22

def BUFFER_SIZE : Nat := 4096

/-- The magic number of the end-of-central-directory record. -/
def eocdMagic : Bytes := [0x50, 0x4b, 0x05, 0x06]

/-- The loop over the rest of the record: the magic number occurs at one of the
`n` offsets from `i` on. -/
def eocdMarkerAfter (eocd : Bytes) : Nat → Nat → Bool
  | 0, _ => false
  | n + 1, i => slice eocd i 4 == eocdMagic || eocdMarkerAfter eocd n (i + 1)

/-- What is known of the file when hashing begins: where the record starts, the
record with the comment, and how much of the file is signed. -/
structure Located where
  eocdOffset : Nat
  eocd : Bytes
  signed_len : Nat
  deriving DecidableEq, Repr

/-- The first half of `verify_file`: footer, sizes and the checks of the
record. `none` is a return of `VERIFY_FAILURE`. -/
def locateEocd (c : Mincrypt) (file : Bytes) : Option Located :=
  if file.length < FOOTER_SIZE then none
  else
    let footer := slice file (file.length - FOOTER_SIZE) FOOTER_SIZE
    if slice footer 2 2 ≠ [0xff, 0xff] then none
    else
      let comment_size := leNat (slice footer 4 2)
      let signature_start := leNat (slice footer 0 2)
      if (signature_start : Int) - FOOTER_SIZE < c.RSANUMBYTES then none
      else
        let eocd_size := comment_size + EOCD_HEADER_SIZE
        if file.length < eocd_size then none
        else
          let eocdOffset := file.length - eocd_size
          let signed_len := eocdOffset + EOCD_HEADER_SIZE - 2
          let eocd := slice file eocdOffset eocd_size
          if slice eocd 0 4 ≠ eocdMagic then none
          else if eocdMarkerAfter eocd (eocd_size - 3 - 4) 4 then none
          else some ⟨eocdOffset, eocd, signed_len⟩

/-- The hashing loop: the bytes passed to `SHA_update` when `so_far` of them
were read before, or `none` when a read fails. -/
def hashLoop (file : Bytes) (signed_len : Nat) : Nat → Nat → Bytes → Outcome (Option Bytes)
  | fuel, so_far, hashed =>
    if so_far < signed_len then
      match fuel with
      | 0 => .spin
      | fuel + 1 =>
        let size := if signed_len - so_far < BUFFER_SIZE then signed_len - so_far else BUFFER_SIZE
        let buffer := slice file so_far size
        if buffer.length ≠ size then .done none
        else hashLoop file signed_len fuel (so_far + size) (hashed ++ buffer)
    else .done (some hashed)

/-- Verify that the file's signature matches one of the given public keys. -/
def verify_file (c : Mincrypt) (file : Bytes) (pKeys : List c.RSAPublicKey) :
    Outcome VerifyResult :=
  match locateEocd c file with
  | none => .done .VERIFY_FAILURE
  | some s => do
    let some hashed ← hashLoop file s.signed_len s.signed_len 0 [] | .done .VERIFY_FAILURE
    let sha1 := c.SHA hashed
    let offset := (s.eocd.length : Int) - 6 - c.RSANUMBYTES
    if pKeys.any fun key => c.RSA_verify key s.eocd offset c.RSANUMBYTES sha1 then
      .done .VERIFY_SUCCESS
    else .done .VERIFY_FAILURE

/-! ## What is verified -/

theorem eocdMarkerAfter_false {eocd : Bytes} {n : Nat} : ∀ {i : Nat},
    eocdMarkerAfter eocd n i = false → ∀ j, i ≤ j → j < i + n → slice eocd j 4 ≠ eocdMagic := by
  induction n with
  | zero =>
    intro i _ j hle hlt
    omega
  | succ n ih =>
    intro i h j hle hlt
    rw [eocdMarkerAfter, Bool.or_eq_false_iff] at h
    rcases Nat.eq_or_lt_of_le hle with rfl | hgt
    · simpa using h.1
    · exact ih h.2 j hgt (by omega)

theorem eocdMarkerAfter_eq_false_iff {eocd : Bytes} {n i : Nat} :
    eocdMarkerAfter eocd n i = false ↔ ∀ j, i ≤ j → j < i + n → slice eocd j 4 ≠ eocdMagic := by
  refine ⟨eocdMarkerAfter_false, ?_⟩
  induction n generalizing i with
  | zero => exact fun _ => rfl
  | succ n ih =>
    intro h
    rw [eocdMarkerAfter, Bool.or_eq_false_iff]
    exact ⟨by simpa using h i le_rfl (by omega), ih fun j hle hlt => h j (by omega) (by omega)⟩

/-- The last field of the footer. -/
def commentSize (file : Bytes) : Nat := leNat (slice file (file.length - 2) 2)

/-- The first field of the footer. -/
def signatureStart (file : Bytes) : Nat := leNat (slice file (file.length - FOOTER_SIZE) 2)

/-- What `verify_file` checks of a file before it hashes it. -/
structure Accepted (c : Mincrypt) (file : Bytes) : Prop where
  footer : FOOTER_SIZE ≤ file.length
  marker : slice file (file.length - 4) 2 = [0xff, 0xff]
  start : c.RSANUMBYTES + FOOTER_SIZE ≤ signatureStart file
  room : commentSize file + EOCD_HEADER_SIZE ≤ file.length
  magic : slice file (file.length - (commentSize file + EOCD_HEADER_SIZE)) 4 = eocdMagic
  last : ∀ j, file.length - (commentSize file + EOCD_HEADER_SIZE) + 4 ≤ j →
    j + 4 ≤ file.length → slice file j 4 ≠ eocdMagic

/-- What is found of a file with a record before its comment. -/
def located (file : Bytes) : Located where
  eocdOffset := file.length - (commentSize file + EOCD_HEADER_SIZE)
  eocd := slice file (file.length - (commentSize file + EOCD_HEADER_SIZE))
    (commentSize file + EOCD_HEADER_SIZE)
  signed_len := file.length - (commentSize file + EOCD_HEADER_SIZE) + EOCD_HEADER_SIZE - 2

theorem locateEocd_eq_some_iff {c : Mincrypt} {file : Bytes} {s : Located} :
    locateEocd c file = some s ↔ Accepted c file ∧ s = located file := by
  by_cases hfooter : file.length < FOOTER_SIZE
  · simp only [locateEocd, if_pos hfooter, reduceCtorEq, false_iff]
    exact fun h => absurd h.1.footer (by omega)
  have hfits : FOOTER_SIZE ≤ file.length := by omega
  simp only [FOOTER_SIZE] at hfits
  have hmarker : slice (slice file (file.length - FOOTER_SIZE) FOOTER_SIZE) 2 2 =
      slice file (file.length - 4) 2 := by
    rw [slice_slice file (by decide), FOOTER_SIZE]
    congr 1
    omega
  have hsize : leNat (slice (slice file (file.length - FOOTER_SIZE) FOOTER_SIZE) 4 2) =
      commentSize file := by
    rw [slice_slice file (by decide), FOOTER_SIZE, commentSize]
    congr 2
    omega
  have hstart : leNat (slice (slice file (file.length - FOOTER_SIZE) FOOTER_SIZE) 0 2) =
      signatureStart file := by
    rw [slice_slice file (by decide), signatureStart, Nat.add_zero]
  simp only [locateEocd, if_neg hfooter, hmarker, hsize, hstart]
  constructor
  · intro h
    split at h
    · cases h
    rename_i hff
    split at h
    · cases h
    rename_i hlong
    split at h
    · cases h
    rename_i hroom
    split at h
    · cases h
    rename_i hmagic
    split at h
    · cases h
    rename_i hlater
    cases h
    refine ⟨⟨hfits, not_not.mp hff, by omega, by omega, ?_, ?_⟩, rfl⟩
    · rw [slice_slice file (by simp only [EOCD_HEADER_SIZE]; omega), Nat.add_zero] at hmagic
      exact not_not.mp hmagic
    · intro j hlow hhigh
      have hnone := eocdMarkerAfter_false (by simpa using hlater)
        (j - (file.length - (commentSize file + EOCD_HEADER_SIZE))) (by omega)
        (by simp only [EOCD_HEADER_SIZE] at *; omega)
      rw [slice_slice file (by simp only [EOCD_HEADER_SIZE] at *; omega),
        Nat.add_sub_cancel' (by omega)] at hnone
      exact hnone
  · rintro ⟨hacc, rfl⟩
    obtain ⟨-, hff, hlong, hroom, hmagic, hlast⟩ := hacc
    have hlater : eocdMarkerAfter (slice file
        (file.length - (commentSize file + EOCD_HEADER_SIZE))
        (commentSize file + EOCD_HEADER_SIZE)) (commentSize file + EOCD_HEADER_SIZE - 3 - 4) 4 =
        false := by
      rw [eocdMarkerAfter_eq_false_iff]
      intro j hlow hhigh
      simp only [EOCD_HEADER_SIZE] at hroom hlast hhigh ⊢
      rw [slice_slice file (by omega)]
      exact hlast _ (by omega) (by omega)
    rw [if_neg (not_not.mpr hff), if_neg (by omega), if_neg (by omega), if_neg, if_neg]
    · rfl
    · rw [hlater]
      decide
    · rw [slice_slice file (by simp only [EOCD_HEADER_SIZE]; omega), Nat.add_zero]
      exact not_not.mpr hmagic

/-- What the first half of `verify_file` establishes. -/
theorem locateEocd_spec {c : Mincrypt} {file : Bytes} {s : Located}
    (h : locateEocd c file = some s) :
    s.eocdOffset + EOCD_HEADER_SIZE ≤ file.length ∧
      s.signed_len = s.eocdOffset + EOCD_HEADER_SIZE - 2 ∧
      slice file s.eocdOffset 4 = eocdMagic ∧
      ∀ j, s.eocdOffset + 4 ≤ j → j + 4 ≤ file.length → slice file j 4 ≠ eocdMagic := by
  obtain ⟨hacc, rfl⟩ := locateEocd_eq_some_iff.mp h
  have hroom := hacc.room
  refine ⟨?_, rfl, hacc.magic, hacc.last⟩
  simp only [located]
  omega

/-- The hashing loop reads the first `signed_len` bytes. -/
theorem hashLoop_spec {file : Bytes} {signed_len : Nat} (hlen : signed_len ≤ file.length)
    (fuel : Nat) : ∀ so_far, so_far ≤ signed_len → signed_len - so_far ≤ fuel →
      hashLoop file signed_len fuel so_far (file.take so_far) =
        .done (some (file.take signed_len)) := by
  induction fuel with
  | zero =>
    intro so_far hle hfuel
    obtain rfl : so_far = signed_len := by omega
    unfold hashLoop
    rw [if_neg (lt_irrefl _)]
  | succ fuel ih =>
    intro so_far hle hfuel
    unfold hashLoop
    by_cases hgo : so_far < signed_len
    · have hsize : ∃ size, (if signed_len - so_far < BUFFER_SIZE then signed_len - so_far
          else BUFFER_SIZE) = size ∧ 0 < size ∧ so_far + size ≤ signed_len := by
        refine ⟨_, rfl, ?_, ?_⟩
        · split
          · omega
          · decide
        · split
          · omega
          · omega
      obtain ⟨size, heq, hpos, hfit⟩ := hsize
      have hread : (slice file so_far size).length = size := slice_length_of_le (by omega)
      simp only [if_pos hgo, heq, hread, ne_eq, not_true_eq_false, if_false]
      rw [take_append_slice]
      exact ih (so_far + size) hfit (by omega)
    · obtain rfl : so_far = signed_len := by omega
      rw [if_neg hgo]

/-- The magic number cannot overlap itself. -/
theorem eocdMagic_no_overlap {file : Bytes} {off j : Nat} (hoff : slice file off 4 = eocdMagic)
    (hlow : off < j) (hhigh : j < off + 4) : slice file j 4 ≠ eocdMagic := by
  intro hj
  have hbyte : ∀ k, k < 4 → file[off + k]? = eocdMagic[k]? := by
    intro k hk
    rw [← slice_getElem? file off 4 k hk, hoff]
  have hfirst : file[j]? = some 0x50 := by
    rw [← Nat.add_zero j, ← slice_getElem? file j 4 0 (by omega), hj]
    rfl
  obtain ⟨k, rfl⟩ : ∃ k, j = off + k := ⟨j - off, by omega⟩
  rw [hbyte k (by omega)] at hfirst
  have hk : k = 1 ∨ k = 2 ∨ k = 3 := by omega
  rcases hk with rfl | rfl | rfl
  · exact absurd hfirst (by decide)
  · exact absurd hfirst (by decide)
  · exact absurd hfirst (by decide)

/-- The four bytes of the magic number are the signature that the scan of
`parseZipArchive` compares with. -/
theorem sigAt_iff {m : MemMapping} {i : Nat} (h : i + 4 ≤ m.bytes.length) :
    sigAt m i ↔ slice m.bytes i 4 = eocdMagic := by
  have hlen := slice_length_of_le h
  have hmagic : leNat eocdMagic = ENDSIG := by decide
  constructor
  · intro hsig
    rw [← leBytes_leNat (slice m.bytes i 4), hlen, hsig]
    decide
  · intro heq
    rw [sigAt, heq, hmagic]

/-- A field of the record lies in the part of the file that is hashed. -/
theorem field_signed {m : MemMapping} {off k n signed_len : Nat} (hn : 0 < n) (hk : k + n ≤ 20)
    (hsigned : signed_len = off + 20) (hroom : signed_len ≤ m.bytes.length) :
    m.read (toU32 ((m.addr + off : Nat) + (k : Int))) n =
      .done (slice (m.bytes.take signed_len) (off + k) n) := by
  have hfits := m.fits
  have hptr : toU32 ((m.addr + off : Nat) + (k : Int)) = m.addr + (off + k) := by
    rw [← Nat.add_assoc, ← Nat.cast_add]
    exact toU32_of_range (by omega)
  have hsame : slice (m.bytes.take signed_len) (off + k) n = slice m.bytes (off + k) n := by
    have htake : m.bytes.take signed_len = slice m.bytes 0 signed_len := rfl
    rw [htake, slice_slice m.bytes (by omega), Nat.zero_add]
  rw [hptr, read_addr_add (by omega), hsame]

/-- The verifier and the parser agree on the end of the archive. When a file is
verified, the backward scan of `parseZipArchive` stops at the record that
`verify_file` located, the bytes that were hashed are the first `signed_len`
of the file, and the two fields that are read from the record are read from
these bytes. -/
theorem verified_eocd_agrees {c : Mincrypt} {pKeys : List c.RSAPublicKey} {m : MemMapping}
    (h : verify_file c m.bytes pKeys = .done .VERIFY_SUCCESS) :
    ∃ s, locateEocd c m.bytes = some s ∧
      findEocd m = .done (some (m.addr + s.eocdOffset)) ∧
      hashLoop m.bytes s.signed_len s.signed_len 0 [] =
        .done (some (m.bytes.take s.signed_len)) ∧
      s.eocdOffset + ENDSUB + 2 ≤ s.signed_len ∧ s.eocdOffset + ENDOFF + 4 ≤ s.signed_len ∧
      eocdFields m (m.addr + s.eocdOffset) =
        .done (leNat (slice (m.bytes.take s.signed_len) (s.eocdOffset + ENDSUB) 2),
          leNat (slice (m.bytes.take s.signed_len) (s.eocdOffset + ENDOFF) 4)) := by
  unfold verify_file at h
  cases hloc : locateEocd c m.bytes with
  | none =>
    rw [hloc] at h
    cases h
  | some s =>
    obtain ⟨hroom, hsigned, hmagic, hlater⟩ := locateEocd_spec hloc
    simp only [EOCD_HEADER_SIZE] at hroom hsigned
    have hlen : s.signed_len = s.eocdOffset + 20 := by omega
    have hin : s.signed_len ≤ m.bytes.length := by omega
    refine ⟨s, rfl, ?_, ?_, ?_, ?_, ?_⟩
    · refine findEocd_spec hroom ((sigAt_iff (by omega)).mpr hmagic) ?_
      intro j hj hroom' hsig
      simp only [ENDHDR, MemMapping.length] at hroom'
      rw [sigAt_iff (by omega)] at hsig
      -- Close to the record the magic number would overlap itself; further on it was looked for.
      rcases Nat.lt_or_ge j (s.eocdOffset + 4) with hnear | hfar
      · exact eocdMagic_no_overlap hmagic hj hnear hsig
      · exact hlater j hfar (by omega) hsig
    · have hhash := hashLoop_spec hin s.signed_len 0 (Nat.zero_le _) (by omega)
      rwa [List.take_zero] at hhash
    · simp only [ENDSUB]
      omega
    · simp only [ENDOFF]
      omega
    · unfold eocdFields get2LE get4LE
      rw [field_signed (by decide) (by decide) hlen hin, Outcome.done_bind,
        Outcome.done_bind,
        field_signed (by decide) (by decide) hlen hin, Outcome.done_bind, Outcome.done_bind]

/-- A file that is nothing but a record with a comment of 262 bytes: a
signature of 256 bytes and the footer. -/
def signedBytes : Bytes :=
  eocdMagic ++ leBytes 16 0 ++ leBytes 2 262 ++ List.replicate 256 0xa5 ++ leBytes 2 262 ++
    [0xff, 0xff] ++ leBytes 2 262

def signedMapping : MemMapping := ⟨0x40000000, signedBytes, sampleAddr_pos, by decide +kernel⟩

/-- A library with one key, for which one signature is good. -/
def sampleMincrypt : Mincrypt where
  RSAPublicKey := Unit
  RSANUMBYTES := 256
  SHA b := b
  RSA_verify _ buffer offset len _ := slice buffer offset.toNat len == List.replicate 256 0xa5

theorem verified_eocd_agrees_signed :
    ∃ s, locateEocd sampleMincrypt signedBytes = some s ∧
      findEocd signedMapping = .done (some (signedMapping.addr + s.eocdOffset)) ∧
      hashLoop signedBytes s.signed_len s.signed_len 0 [] =
        .done (some (signedBytes.take s.signed_len)) ∧
      s.eocdOffset + ENDSUB + 2 ≤ s.signed_len ∧ s.eocdOffset + ENDOFF + 4 ≤ s.signed_len ∧
      eocdFields signedMapping (signedMapping.addr + s.eocdOffset) =
        .done (leNat (slice (signedBytes.take s.signed_len) (s.eocdOffset + ENDSUB) 2),
          leNat (slice (signedBytes.take s.signed_len) (s.eocdOffset + ENDOFF) 4)) :=
  @verified_eocd_agrees sampleMincrypt [()] signedMapping (by decide +kernel)

/-! ## The arguments of `RSA_verify` -/

/-- A call of `RSA_verify`; `hashed` are the bytes whose digest it is given. -/
structure RsaCall (c : Mincrypt) where
  key : c.RSAPublicKey
  buffer : Bytes
  offset : Int
  len : Nat
  hashed : Bytes

def RsaCall.succeeds {c : Mincrypt} (call : RsaCall c) : Bool :=
  c.RSA_verify call.key call.buffer call.offset call.len (c.SHA call.hashed)

/-- The call for one key. -/
def rsaCall (c : Mincrypt) (eocd hashed : Bytes) (key : c.RSAPublicKey) : RsaCall c where
  key := key
  buffer := eocd
  offset := (eocd.length : Int) - 6 - c.RSANUMBYTES
  len := c.RSANUMBYTES
  hashed := hashed

/-- The loop over the keys: the calls that are made, up to the first that
succeeds. -/
def keyLoop (c : Mincrypt) (eocd hashed : Bytes) :
    List c.RSAPublicKey → List (RsaCall c) × VerifyResult
  | [] => ([], .VERIFY_FAILURE)
  | key :: pKeys =>
    let call := rsaCall c eocd hashed key
    if call.succeeds then ([call], .VERIFY_SUCCESS)
    else
      let (calls, result) := keyLoop c eocd hashed pKeys
      (call :: calls, result)

/-- `verify_file` with the calls of `RSA_verify` that it makes. -/
def verifyCalls (c : Mincrypt) (file : Bytes) (pKeys : List c.RSAPublicKey) :
    Outcome (List (RsaCall c) × VerifyResult) :=
  match locateEocd c file with
  | none => .done ([], .VERIFY_FAILURE)
  | some s => do
    let some hashed ← hashLoop file s.signed_len s.signed_len 0 [] | .done ([], .VERIFY_FAILURE)
    .done (keyLoop c s.eocd hashed pKeys)

theorem keyLoop_result (c : Mincrypt) (eocd hashed : Bytes) (pKeys : List c.RSAPublicKey) :
    (keyLoop c eocd hashed pKeys).2 =
      if pKeys.any fun key => (rsaCall c eocd hashed key).succeeds then .VERIFY_SUCCESS
      else .VERIFY_FAILURE := by
  induction pKeys with
  | nil => rfl
  | cons key pKeys ih =>
    rw [keyLoop]
    by_cases hgood : (rsaCall c eocd hashed key).succeeds = true
    · simp [hgood]
    · simp [hgood, ih]

/-- Every call is the one for some key, and there is a call when there is a
key. -/
theorem keyLoop_calls (c : Mincrypt) (eocd hashed : Bytes) (pKeys : List c.RSAPublicKey) :
    (∀ call ∈ (keyLoop c eocd hashed pKeys).1, ∃ key ∈ pKeys, call = rsaCall c eocd hashed key) ∧
      ∀ key ∈ pKeys.head?, rsaCall c eocd hashed key ∈ (keyLoop c eocd hashed pKeys).1 := by
  induction pKeys with
  | nil => exact ⟨nofun, nofun⟩
  | cons key pKeys ih =>
    rw [keyLoop]
    by_cases hgood : (rsaCall c eocd hashed key).succeeds = true
    · simp [hgood]
    · simp only [hgood, Bool.false_eq_true, if_false, List.mem_cons]
      refine ⟨?_, by simp⟩
      rintro call (rfl | hcall)
      · exact ⟨key, .inl rfl, rfl⟩
      · obtain ⟨other, hmem, rfl⟩ := ih.1 call hcall
        exact ⟨other, .inr hmem, rfl⟩

/-- Recording the calls changes nothing. -/
theorem verify_file_eq_verifyCalls (c : Mincrypt) (file : Bytes) (pKeys : List c.RSAPublicKey) :
    verify_file c file pKeys = (verifyCalls c file pKeys >>= fun r => .done r.2) := by
  unfold verify_file verifyCalls
  cases locateEocd c file with
  | none => rfl
  | some s =>
    cases hhash : hashLoop file s.signed_len s.signed_len 0 [] with
    | done hashed =>
      cases hashed with
      | none => simp [hhash]
      | some hashed =>
        simp only [hhash, Outcome.done_bind, keyLoop_result]
        exact (apply_ite Outcome.done _ _ _).symm
    | fault => simp [hhash]
    | spin => simp [hhash]

/-! ## Where the signature lies -/

/-- The bytes that a call passes as the signature lie inside the buffer and
after the fixed part of the record, start where the footer says the signature
block starts or later, and are not hashed. -/
structure InComment {c : Mincrypt} (file : Bytes) (call : RsaCall c) : Prop where
  tail : call.buffer = file.drop (file.length - call.buffer.length)
  inside : 0 ≤ call.offset ∧ call.offset + call.len ≤ call.buffer.length
  afterFixed : EOCD_HEADER_SIZE ≤ call.offset
  atStart : (file.length : Int) - signatureStart file ≤
    file.length - call.buffer.length + call.offset
  unsigned : call.hashed = file.take call.hashed.length ∧
    (call.hashed.length : Int) ≤ file.length - call.buffer.length + call.offset

/-- The calls that are made for an accepted file. -/
theorem verifyCalls_accepted {c : Mincrypt} {file : Bytes} (h : Accepted c file)
    (pKeys : List c.RSAPublicKey) :
    verifyCalls c file pKeys =
      .done (keyLoop c (located file).eocd (file.take (located file).signed_len) pKeys) := by
  have hroom := h.room
  have hin : (located file).signed_len ≤ file.length := by
    simp only [located, EOCD_HEADER_SIZE] at hroom ⊢
    omega
  have hhash := hashLoop_spec hin (located file).signed_len 0 (Nat.zero_le _) (by omega)
  rw [List.take_zero] at hhash
  simp only [verifyCalls, locateEocd_eq_some_iff.mpr ⟨h, rfl⟩, hhash, Outcome.done_bind]

theorem verifyCalls_rejected {c : Mincrypt} {file : Bytes} (h : ¬ Accepted c file)
    (pKeys : List c.RSAPublicKey) : verifyCalls c file pKeys = .done ([], .VERIFY_FAILURE) := by
  have hnone : locateEocd c file = none := by
    cases hloc : locateEocd c file with
    | none => rfl
    | some s => exact absurd (locateEocd_eq_some_iff.mp hloc).1 h
  rw [verifyCalls, hnone]

/-- The call for one key lies in the comment when the comment has room for a
signature and the footer. -/
theorem rsaCall_inComment_iff {c : Mincrypt} {file : Bytes} (h : Accepted c file)
    (key : c.RSAPublicKey) :
    InComment file
        (rsaCall c (located file).eocd (file.take (located file).signed_len) key) ↔
      c.RSANUMBYTES + FOOTER_SIZE ≤ commentSize file := by
  obtain ⟨-, -, hstart, hroom, -, -⟩ := h
  have hlen : (located file).eocd.length = commentSize file + EOCD_HEADER_SIZE :=
    slice_length_of_le (by omega)
  have htail : (located file).eocd =
      file.drop (file.length - (commentSize file + EOCD_HEADER_SIZE)) := by
    refine List.take_of_length_le ?_
    rw [List.length_drop]
    omega
  have hsigned : (located file).signed_len =
      file.length - (commentSize file + EOCD_HEADER_SIZE) + 20 := rfl
  have hhashed : (file.take (located file).signed_len).length = (located file).signed_len := by
    rw [List.length_take, hsigned]
    simp only [EOCD_HEADER_SIZE] at hroom ⊢
    omega
  simp only [FOOTER_SIZE, EOCD_HEADER_SIZE] at hstart hroom hlen hsigned htail ⊢
  constructor
  · rintro ⟨-, -, hafter, -, -⟩
    simp only [rsaCall, hlen, EOCD_HEADER_SIZE] at hafter
    omega
  · intro hsize
    refine ⟨?_, ⟨?_, ?_⟩, ?_, ?_, ?_, ?_⟩
    · rw [rsaCall, hlen, htail]
    · simp only [rsaCall, hlen]
      omega
    · simp only [rsaCall, hlen]
      omega
    · simp only [rsaCall, hlen, EOCD_HEADER_SIZE]
      omega
    · simp only [rsaCall, hlen]
      omega
    · simp only [rsaCall, hhashed]
    · simp only [rsaCall, hlen, hhashed]
      omega

/-- The signature that is passed to `RSA_verify` lies in the comment exactly
when the file is rejected before, or there is no key, or the comment has room
for a signature and the footer. -/
theorem signature_in_comment (c : Mincrypt) (file : Bytes) (pKeys : List c.RSAPublicKey) :
    (∃ calls result, verifyCalls c file pKeys = .done (calls, result) ∧
        verify_file c file pKeys = .done result ∧ ∀ call ∈ calls, InComment file call) ↔
      (Accepted c file → pKeys ≠ [] → c.RSANUMBYTES + FOOTER_SIZE ≤ commentSize file) := by
  by_cases hacc : Accepted c file
  · rw [verify_file_eq_verifyCalls, verifyCalls_accepted hacc]
    obtain ⟨hall, hhead⟩ :=
      keyLoop_calls c (located file).eocd (file.take (located file).signed_len) pKeys
    constructor
    · rintro ⟨calls, result, hcalls, -, hin⟩ - hkeys
      obtain ⟨rfl, rfl⟩ := Prod.mk.inj (Outcome.done.inj hcalls)
      cases pKeys with
      | nil => exact absurd rfl hkeys
      | cons key pKeys => exact (rsaCall_inComment_iff hacc key).mp (hin _ (hhead key rfl))
    · intro hsize
      refine ⟨_, _, rfl, rfl, fun call hcall => ?_⟩
      obtain ⟨key, hmem, rfl⟩ := hall call hcall
      exact (rsaCall_inComment_iff hacc key).mpr
        (hsize hacc (List.ne_nil_of_mem hmem))
  · rw [verify_file_eq_verifyCalls, verifyCalls_rejected hacc]
    exact iff_of_true ⟨_, _, rfl, rfl, nofun⟩ fun h => absurd h hacc

/-- A record whose comment is nothing but a footer, which says that the
signature starts 262 bytes before the end. -/
def shortComment : Bytes :=
  eocdMagic ++ leBytes 16 0 ++ leBytes 2 6 ++ leBytes 2 262 ++ [0xff, 0xff] ++ leBytes 2 6

/-- The signature of this file would start 234 bytes before the buffer. -/
theorem signature_before_record :
    ∃ call result, verifyCalls sampleMincrypt shortComment [()] = .done ([call], result) ∧
      call.offset = -234 ∧ ¬ InComment shortComment call := by
  refine ⟨_, _, rfl, by decide, fun h => ?_⟩
  exact absurd h.inside.1 (by decide)

end BootableRecovery.Verifier
