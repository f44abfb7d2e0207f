import BootableRecovery.Minzip.Zip

/-!
# `minzip/Zip.c`: what `parseZipArchive` validates

The walk over the central directory is meant to accept only entries whose data
lies inside the mapping, and to read nothing outside of it. Two things go wrong.
* The lengths are read as unsigned numbers into `long` variables, and a negative
  one passes the checks.
* The sum of a pointer and a length wraps near the top of the address space, and
  the wrapped sum passes for an address before the end of the mapping.

`mmap` returns an address that is a multiple of the page size and not zero.

* `readEntry_ne_fault_iff`: the records that are read inside the mapping.
* `readEntry_valid_iff`: the records whose fields are not negative.
* `parseZipArchive_validates_iff`: the archives that are validated.
-/

namespace BootableRecovery.Minzip

/-! ## Reads -/

/-- The `n` bytes at the address `p` are in the mapping. -/
def MemMapping.Inside (m : MemMapping) (p n : Nat) : Prop :=
  m.addr ≤ p ∧ p + n ≤ m.addr + m.length

/-- The word at an address. -/
def MemMapping.word (m : MemMapping) (p : Nat) : Nat := leNat (slice m.bytes (p - m.addr) 4)

/-- The half-word at an address. -/
def MemMapping.half (m : MemMapping) (p : Nat) : Nat := leNat (slice m.bytes (p - m.addr) 2)

/-- The sum `p + n` passes for an address that is smaller than the end of the mapping. -/
def MemMapping.Wraps (m : MemMapping) (p n : Nat) : Prop :=
  m.addr + m.length < 2 ^ 32 ∧ 2 ^ 32 ≤ p + n

section Reads

variable {m : MemMapping} {p n : Nat}

theorem read_inside (h : m.Inside p n) : m.read p n = .done (slice m.bytes (p - m.addr) n) := by
  obtain ⟨hlow, hhigh⟩ := h
  obtain ⟨i, rfl⟩ := Nat.exists_eq_add_of_le hlow
  rw [MemMapping.length] at hhigh
  rw [read_addr_add (by omega), Nat.add_sub_cancel_left]

theorem read_outside (h : ¬ m.Inside p n) : m.read p n = .fault := by
  cases hread : m.read p n with
  | done b => exact absurd ⟨(MemMapping.read_done hread).1, (MemMapping.read_done hread).2.1⟩ h
  | fault => rfl
  | spin =>
    unfold MemMapping.read load at hread
    split at hread <;> cases hread

theorem get4LE_inside (h : m.Inside p 4) : get4LE m p = .done (m.word p) := by
  rw [get4LE, read_inside h]
  rfl

theorem get4LE_outside (h : ¬ m.Inside p 4) : get4LE m p = .fault := by
  rw [get4LE, read_outside h]
  rfl

theorem get2LE_inside (h : m.Inside p 2) : get2LE m p = .done (m.half p) := by
  rw [get2LE, read_inside h]
  rfl

theorem get2LE_outside (h : ¬ m.Inside p 2) : get2LE m p = .fault := by
  rw [get2LE, read_outside h]
  rfl

theorem get4LE_done {v : Nat} (h : get4LE m p = .done v) : m.Inside p 4 ∧ v = m.word p := by
  by_cases hin : m.Inside p 4
  · rw [get4LE_inside hin] at h
    exact ⟨hin, (Outcome.done.inj h).symm⟩
  · rw [get4LE_outside hin] at h
    cases h

theorem get2LE_done {v : Nat} (h : get2LE m p = .done v) : m.Inside p 2 ∧ v = m.half p := by
  by_cases hin : m.Inside p 2
  · rw [get2LE_inside hin] at h
    exact ⟨hin, (Outcome.done.inj h).symm⟩
  · rw [get2LE_outside hin] at h
    cases h

theorem word_lt (m : MemMapping) (p : Nat) : m.word p < 2 ^ 32 := by
  have hlt := leNat_lt (slice m.bytes (p - m.addr) 4)
  have hlen := slice_length_le m.bytes (p - m.addr) 4
  calc m.word p < 256 ^ (slice m.bytes (p - m.addr) 4).length := hlt
    _ ≤ 256 ^ 4 := Nat.pow_le_pow_right (by decide) hlen
    _ = 2 ^ 32 := by decide

theorem half_lt (m : MemMapping) (p : Nat) : m.half p < 2 ^ 16 := by
  have hlt := leNat_lt (slice m.bytes (p - m.addr) 2)
  have hlen := slice_length_le m.bytes (p - m.addr) 2
  calc m.half p < 256 ^ (slice m.bytes (p - m.addr) 2).length := hlt
    _ ≤ 256 ^ 2 := Nat.pow_le_pow_right (by decide) hlen
    _ = 2 ^ 16 := by decide

end Reads

/-! ## File names -/

/-- A character that `validFilename` accepts. -/
def Printable (c : UInt8) : Prop := ¬(c.toNat < 32 ∨ 127 ≤ c.toNat)

/-- The characters are read up to the first one that is refused. -/
theorem validChars_ne_fault_iff {m : MemMapping} (htop : m.addr + m.length < 2 ^ 32) (n : Nat) :
    ∀ p, m.addr ≤ p → p ≤ m.addr + m.length →
      (validChars m n p ≠ .fault ↔
        p + n ≤ m.addr + m.length ∨ ∃ c ∈ m.bytes.drop (p - m.addr), ¬ Printable c) := by
  induction n with
  | zero =>
    intro p _ hhigh
    simp [validChars, hhigh]
  | succ n ih =>
    intro p hlow hhigh
    rw [MemMapping.length] at hhigh htop ih ⊢
    rcases Nat.lt_or_ge p (m.addr + m.bytes.length) with hlt | hge
    · -- The character is in the mapping, and so is the address behind it.
      have hidx : p - m.addr < m.bytes.length := by omega
      have hread : m.read p 1 = .done [m.bytes[p - m.addr]] := by
        rw [read_inside ⟨hlow, by rw [MemMapping.length]; omega⟩, slice,
          List.drop_eq_getElem_cons hidx]
        rfl
      have hdrop : m.bytes.drop (p - m.addr) =
          m.bytes[p - m.addr] :: m.bytes.drop (p + 1 - m.addr) := by
        rw [List.drop_eq_getElem_cons hidx, show p - m.addr + 1 = p + 1 - m.addr by omega]
      have hnext : toU32 ((p : Int) + 1) = p + 1 := by
        exact_mod_cast toU32_of_range (show p + 1 < 2 ^ 32 by omega)
      have hval : leNat [m.bytes[p - m.addr]] = (m.bytes[p - m.addr]).toNat := by simp [leNat]
      rw [validChars, hread, Outcome.done_bind, hval, hnext, hdrop]
      split
      · rename_i hbad
        refine ⟨fun _ => .inr ⟨_, List.mem_cons_self, fun hok => hok hbad⟩, fun _ => by simp⟩
      · rename_i hgood
        rw [ih (p + 1) (by omega) (by omega), Nat.add_right_comm, Nat.add_assoc p]
        simp only [List.mem_cons, exists_eq_or_imp, not_not.mpr hgood, Printable, false_or]
    · have hend : p = m.addr + m.bytes.length := by omega
      have hread : m.read p 1 = .fault := by
        refine read_outside fun hin => ?_
        have hsecond := hin.2
        rw [MemMapping.length] at hsecond
        omega
      rw [validChars, hread, hend, Nat.add_sub_cancel_left, List.drop_length]
      simp

/-- Characters inside the mapping are read without a fault, also at the top of the address
space. -/
theorem validChars_ne_fault {m : MemMapping} (n : Nat) :
    ∀ p, m.Inside p n → validChars m n p ≠ .fault := by
  induction n with
  | zero =>
    intro p _
    simp [validChars]
  | succ n ih =>
    rintro p ⟨hlow, hhigh⟩
    have hfits := m.fits
    rw [validChars, read_inside ⟨hlow, by omega⟩, Outcome.done_bind]
    split
    · simp
    rcases Nat.eq_zero_or_pos n with rfl | hpos
    · simp [validChars]
    · rw [MemMapping.length] at hhigh
      have hnext : toU32 ((p : Int) + 1) = p + 1 := by
        exact_mod_cast toU32_of_range (show p + 1 < 2 ^ 32 by omega)
      rw [hnext]
      exact ih (p + 1) ⟨by omega, by rw [MemMapping.length]; omega⟩

/-! ## The header of a record -/

/-- The addresses that the checks of the first half of the loop body let through are in the
mapping: the next record does not begin before the mapping, and where a sum wraps something else
ends the walk before a read beyond the mapping. -/
structure HeaderInside (m : MemMapping) (ptr : Nat) : Prop where
  begins : ptr < m.addr → m.endAddr < toU32 (ptr + CENHDR)
  header : m.addr ≤ ptr → m.Wraps ptr CENHDR → m.Inside ptr 4 ∧ m.word ptr ≠ CENSIG
  name : m.Inside ptr CENHDR → m.word ptr = CENSIG →
    m.Wraps (ptr + CENHDR) (m.half (ptr + CENNAM)) →
      PATH_MAX ≤ m.half (ptr + CENNAM) ∨
        ∃ c ∈ m.bytes.drop (ptr + CENHDR - m.addr), ¬ Printable c

/-- The size of a page. `mmap` does not map the first one. -/
def PAGE_SIZE : Nat := 4096

section Header

variable {m : MemMapping} {ptr : Nat}

theorem endAddr_eq (m : MemMapping) : m.endAddr = (m.addr + m.length) % 2 ^ 32 := by
  rw [MemMapping.endAddr, toU32_add]

/-- A check that a sum is not beyond the end refuses what is beyond it, when the sum does not
wrap. A mapping that ends at the top of the address space refuses nearly everything. -/
theorem refused_iff {p n : Nat} (hp : p < 2 ^ 32) (hn : n < 2 ^ 16)
    (hbig : p ≤ m.addr + m.length ∨ n ≤ m.addr) (hlow : m.addr ≤ p) :
    m.endAddr < toU32 ((p : Int) + n) ↔
      m.addr + m.length < p + n ∧ ¬ m.Wraps p n ∨
        m.addr + m.length = 2 ^ 32 ∧ p + n < 2 ^ 32 := by
  have hfits := m.fits
  have hpos := m.addr_pos
  rw [endAddr_eq, toU32_add, MemMapping.Wraps]
  rw [MemMapping.length] at hbig ⊢
  rcases Nat.lt_or_eq_of_le hfits with htop | htop
  · rw [Nat.mod_eq_of_lt htop]
    omega
  · rw [htop, Nat.mod_self]
    omega

/-- The address of a field of a record that is inside the mapping. -/
theorem field_addr {c : Nat} (h : m.Inside ptr CENHDR) (hc : c < CENHDR) :
    toU32 ((ptr : Int) + c) = ptr + c := by
  have hfits := m.fits
  obtain ⟨-, hhigh⟩ := h
  rw [MemMapping.length] at hhigh
  rw [toU32_add]
  exact Nat.mod_eq_of_lt (by omega)

/-- A field behind the end of the mapping is not read inside of it. -/
theorem field_outside {p c n k : Nat} (hp : p < 2 ^ 32) (hpage : k ≤ m.addr) (hcn : c + n = k)
    (hn : 0 < n) (hout : m.addr + m.length < p + k) :
    ¬ m.Inside (toU32 ((p : Int) + c)) n := by
  have hfits := m.fits
  rintro ⟨hlow, hhigh⟩
  rw [toU32_add] at hlow hhigh
  rw [MemMapping.length] at hhigh hout
  omega

/-- Only the first part can go wrong. -/
theorem bind_ne_fault_iff {α β : Type} {x : Outcome α} {f : α → Outcome β}
    (hf : ∀ a, f a ≠ .fault) : x >>= f ≠ .fault ↔ x ≠ .fault := by
  cases x with
  | done a => simp [hf a]
  | fault => simp
  | spin => simp

/-- The check of the end of the file name and the loop over its characters. -/
theorem name_ne_fault_iff {α : Type} {x : Outcome α} {f : Bool → Outcome α} (hx : x ≠ .fault)
    (hf : ∀ b, f b ≠ .fault) (hin : m.Inside ptr CENHDR) {nameLen : Nat}
    (hlen : nameLen < 2 ^ 16) :
    (if toU32 ((toU32 ((ptr : Int) + CENHDR) : Int) + nameLen) > m.endAddr then x
      else validFilename m (toU32 ((ptr : Int) + CENHDR)) nameLen >>= f) ≠ .fault ↔
    (m.Wraps (ptr + CENHDR) nameLen → PATH_MAX ≤ nameLen ∨
      ∃ c ∈ m.bytes.drop (ptr + CENHDR - m.addr), ¬ Printable c) := by
  have hfits := m.fits
  obtain ⟨hlow, hhigh⟩ := hin
  rw [MemMapping.length] at hhigh
  rcases Nat.lt_or_ge (ptr + CENHDR) (2 ^ 32) with hlt | htop
  · -- The name begins inside the mapping, or at its end.
    have hname : toU32 ((ptr : Int) + CENHDR) = ptr + CENHDR := by
      rw [toU32_add, Nat.mod_eq_of_lt hlt]
    rw [hname]
    have hrefused := refused_iff hlt hlen (.inl (by rw [MemMapping.length]; exact hhigh))
      (show m.addr ≤ ptr + CENHDR by omega)
    rw [MemMapping.length] at hrefused
    split
    · rename_i hcheck
      refine ⟨fun _ hwraps => ?_, fun _ => hx⟩
      rcases hrefused.mp hcheck with ⟨-, hno⟩ | ⟨htop, -⟩
      · exact absurd hwraps hno
      · have hend := hwraps.1
        rw [MemMapping.length] at hend
        omega
    · rename_i hcheck
      rw [bind_ne_fault_iff hf, validFilename]
      have hpass := mt hrefused.mpr hcheck
      split
      · rename_i hlong
        exact ⟨fun _ _ => .inl hlong, fun _ => by simp⟩
      · rename_i hshort
        rcases Nat.lt_or_eq_of_le hfits with hbelow | hend
        · rw [validChars_ne_fault_iff hbelow nameLen _ (by omega)
            (by rw [MemMapping.length]; exact hhigh), MemMapping.Wraps]
          rw [MemMapping.Wraps] at hpass
          rw [MemMapping.length] at hpass ⊢
          constructor
          · rintro (hle | hbad) hwraps
            · omega
            · exact .inr hbad
          · intro hcond
            by_cases hwraps : 2 ^ 32 ≤ ptr + CENHDR + nameLen
            · rcases hcond ⟨hbelow, hwraps⟩ with hlong | hbad
              · exact absurd hlong hshort
              · exact .inr hbad
            · exact .inl (by omega)
        · have hno : ¬ m.Wraps (ptr + CENHDR) nameLen := by
            rintro ⟨hbelow, -⟩
            rw [MemMapping.length] at hbelow
            omega
          refine ⟨fun _ hwraps => absurd hwraps hno, fun _ => ?_⟩
          refine validChars_ne_fault _ _ ⟨by omega, ?_⟩
          rw [MemMapping.length]
          have hle : ¬ (m.addr + m.bytes.length < ptr + CENHDR + nameLen) :=
            fun hlt => hpass (.inl ⟨hlt, hno⟩)
          omega
  · -- The record ends at the top of the address space.
    have hno : ¬ m.Wraps (ptr + CENHDR) nameLen := by
      rintro ⟨hbelow, -⟩
      rw [MemMapping.length] at hbelow
      omega
    have hname : toU32 ((ptr : Int) + CENHDR) = 0 := by
      rw [toU32_add]
      omega
    refine ⟨fun _ hwraps => absurd hwraps hno, fun _ => ?_⟩
    rw [hname]
    split
    · exact hx
    · rename_i hcheck
      rw [endAddr_eq, toU32_add, MemMapping.length] at hcheck
      have hzero : nameLen = 0 := by omega
      rw [hzero, bind_ne_fault_iff hf]
      simp [validFilename, validChars, PATH_MAX]

/-- What is left of the record header when the check of its end lets it through. -/
theorem header_passed (hpage : PAGE_SIZE ≤ m.addr) (hptr : ptr < 2 ^ 32) (hlow : m.addr ≤ ptr)
    (hpass : ¬ m.endAddr < toU32 ((ptr : Int) + CENHDR)) :
    m.Inside ptr CENHDR ∨ m.Wraps ptr CENHDR ∧ ¬ m.Inside ptr CENHDR := by
  have hsmall : CENHDR ≤ m.addr := le_trans (by decide) hpage
  have hno := mt (refused_iff hptr (by decide) (.inr hsmall) hlow).mpr hpass
  by_cases hin : m.Inside ptr CENHDR
  · exact .inl hin
  · refine .inr ⟨?_, hin⟩
    by_contra hwraps
    refine hno (.inl ⟨?_, hwraps⟩)
    rw [MemMapping.Inside, not_and, Nat.not_le] at hin
    exact hin hlow

theorem readHeader_ne_fault_iff (hpage : PAGE_SIZE ≤ m.addr) (hptr : ptr < 2 ^ 32) :
    readHeader m ptr ≠ .fault ↔ HeaderInside m ptr := by
  have hsmall : CENHDR ≤ m.addr := le_trans (by decide) hpage
  unfold readHeader
  split
  · rename_i hrefused
    refine ⟨fun _ => ⟨fun _ => hrefused, ?_, ?_⟩, fun _ => nofun⟩
    · intro hlow hwraps
      rcases (refused_iff hptr (by decide) (.inr hsmall) hlow).mp hrefused with ⟨-, hno⟩ | ⟨htop, -⟩
      · exact absurd hwraps hno
      · have hend := hwraps.1
        omega
    · intro hin _ hwraps
      rcases (refused_iff hptr (by decide) (.inr hsmall) hin.1).mp hrefused with ⟨hout, -⟩ | ⟨htop, -⟩
      · have hend := hin.2
        omega
      · have hend := hwraps.1
        omega
  rename_i hpass
  rcases Nat.lt_or_ge ptr m.addr with hbelow | hlow
  · -- The record would begin before the mapping.
    have hout : ¬ m.Inside ptr 4 := fun hin => absurd hin.1 (Nat.not_le_of_lt hbelow)
    rw [get4LE_outside hout]
    exact ⟨fun h => absurd rfl h, fun h => absurd (h.begins hbelow) hpass⟩
  rcases header_passed hpage hptr hlow hpass with hin | ⟨hwraps, hout⟩
  · have hword : m.Inside ptr 4 := ⟨hlow, le_trans (by simp [CENHDR]) hin.2⟩
    have hnowrap : ¬ m.Wraps ptr CENHDR := by
      rintro ⟨hbelow, htop⟩
      have hend := hin.2
      omega
    rw [get4LE_inside hword, Outcome.done_bind]
    split
    · rename_i hsig
      exact ⟨fun _ => ⟨fun hbelow => absurd hlow (Nat.not_le_of_lt hbelow),
        fun _ hwraps => absurd hwraps hnowrap, fun _ hcen => absurd hcen hsig⟩, fun _ => nofun⟩
    · rename_i hsig
      have hcen : m.word ptr = CENSIG := not_not.mp hsig
      have hread4 {c : Nat} (hc : c + 4 ≤ CENHDR) : m.Inside (ptr + c) 4 :=
        ⟨by omega, by have hend := hin.2; omega⟩
      have hread2 {c : Nat} (hc : c + 2 ≤ CENHDR) : m.Inside (ptr + c) 2 :=
        ⟨by omega, by have hend := hin.2; omega⟩
      rw [field_addr hin (show CENOFF < CENHDR by decide),
        field_addr hin (show CENNAM < CENHDR by decide),
        field_addr hin (show CENEXT < CENHDR by decide),
        field_addr hin (show CENCOM < CENHDR by decide)]
      rw [get4LE_inside (hread4 (by decide)), get2LE_inside (hread2 (by decide)),
        get2LE_inside (hread2 (by decide)), get2LE_inside (hread2 (by decide))]
      simp only [Outcome.done_bind]
      refine (name_ne_fault_iff (by simp) ?_ hin (half_lt m _)).trans ?_
      · intro valid
        cases valid <;> simp
      constructor
      · intro hname
        exact ⟨fun hbelow => absurd hlow (Nat.not_le_of_lt hbelow),
          fun _ hwraps => absurd hwraps hnowrap, fun _ _ => hname⟩
      · intro hinside
        exact hinside.name hin hcen
  · by_cases hword : m.Inside ptr 4
    · rw [get4LE_inside hword, Outcome.done_bind]
      split
      · rename_i hsig
        exact ⟨fun _ => ⟨fun hbelow => absurd hlow (Nat.not_le_of_lt hbelow),
          fun _ _ => ⟨hword, hsig⟩, fun hin => absurd hin hout⟩, fun _ => nofun⟩
      · rename_i hsig
        have hend : m.addr + m.length < ptr + CENHDR := by
          have hbelow := hwraps.1
          have htop := hwraps.2
          omega
        rw [get4LE_outside (field_outside hptr hsmall (show CENOFF + 4 = CENHDR by decide)
          (by decide) hend)]
        exact ⟨fun h => absurd rfl h, fun h => absurd (h.header hlow hwraps).2 hsig⟩
    · rw [get4LE_outside hword]
      exact ⟨fun h => absurd rfl h, fun h => absurd (h.header hlow hwraps).1 hword⟩

/-- A header that was accepted is inside the mapping. -/
theorem readHeader_some {hd : CenHeader} (hpage : PAGE_SIZE ≤ m.addr) (hptr : ptr < 2 ^ 32)
    (h : readHeader m ptr = .done (some hd)) :
    m.Inside ptr CENHDR ∧ hd.localHdrOffset = m.word (ptr + CENOFF) := by
  have hsmall : CENHDR ≤ m.addr := le_trans (by decide) hpage
  unfold readHeader at h
  split at h
  · cases h
  rename_i hpass
  obtain ⟨sig, hsig, h⟩ := Outcome.bind_eq_done.mp h
  have hlow := (get4LE_done hsig).1.1
  split at h
  · cases h
  obtain ⟨localHdrOffset, hoff, h⟩ := Outcome.bind_eq_done.mp h
  obtain ⟨fileNameLen, -, h⟩ := Outcome.bind_eq_done.mp h
  obtain ⟨extraLen, -, h⟩ := Outcome.bind_eq_done.mp h
  obtain ⟨commentLen, -, h⟩ := Outcome.bind_eq_done.mp h
  obtain ⟨hread, hval⟩ := get4LE_done hoff
  have hin : m.Inside ptr CENHDR := by
    by_contra hout
    refine field_outside hptr hsmall (show CENOFF + 4 = CENHDR by decide) (by decide) ?_ hread
    rw [MemMapping.Inside, not_and, Nat.not_le] at hout
    exact hout hlow
  refine ⟨hin, ?_⟩
  rw [field_addr hin (show CENOFF < CENHDR by decide)] at hval
  simp only at h
  split at h
  · cases h
  obtain ⟨valid, -, h⟩ := Outcome.bind_eq_done.mp h
  cases valid with
  | false => cases h
  | true =>
    cases h
    exact hval

end Header

/-! ## The local header -/

/-- The "version made by" is one that is accepted. -/
def Compatible (m : MemMapping) (ptr : Nat) : Prop :=
  m.half (ptr + CENVEM) &&& 0xff00 = 0 ∨ m.half (ptr + CENVEM) &&& 0xff00 = CENVEM_UNIX

/-- The address of the local header of the record at `ptr`. -/
def localHdr (m : MemMapping) (ptr : Nat) : Nat := m.addr + m.word (ptr + CENOFF)

/-- Where the sum that checks the end of the local header wraps, the signature is not read beyond
the mapping and ends the walk. -/
def LocalInside (m : MemMapping) (ptr : Nat) : Prop :=
  Compatible m ptr → localHdr m ptr < 2 ^ 32 → m.Wraps (localHdr m ptr) LOCHDR →
    m.Inside (localHdr m ptr) 4 ∧ m.word (localHdr m ptr) ≠ LOCSIG

section Local

variable {m : MemMapping} {ptr : Nat}

/-- The second half of the loop body from the local header on. -/
theorem local_ne_fault_iff {α : Type} {x y : Outcome α} {f : Nat → Nat → Outcome α}
    (hx : x ≠ .fault) (hy : y ≠ .fault) (hf : ∀ nameLen extLen, f nameLen extLen ≠ .fault)
    (hpage : PAGE_SIZE ≤ m.addr) {lh : Nat} (hlow : m.addr ≤ lh) (hlh : lh < 2 ^ 32) :
    (if toU32 ((lh : Int) + LOCHDR) > m.endAddr then x
      else do
        let sig ← get4LE m lh
        if sig ≠ LOCSIG then y
        else do
          let nameLen ← get2LE m (toU32 ((lh : Int) + LOCNAM))
          let extLen ← get2LE m (toU32 ((lh : Int) + LOCEXT))
          f nameLen extLen) ≠ .fault ↔
    (m.Wraps lh LOCHDR → m.Inside lh 4 ∧ m.word lh ≠ LOCSIG) := by
  have hsmall : LOCHDR ≤ m.addr := le_trans (by decide) hpage
  have hrefused := refused_iff hlh (show LOCHDR < 2 ^ 16 by decide) (.inr hsmall) hlow
  split
  · rename_i hcheck
    refine ⟨fun _ hwraps => ?_, fun _ => hx⟩
    rcases hrefused.mp hcheck with ⟨-, hno⟩ | ⟨htop, -⟩
    · exact absurd hwraps hno
    · have hend := hwraps.1
      omega
  rename_i hcheck
  have hpass := mt hrefused.mpr hcheck
  by_cases hin : m.Inside lh LOCHDR
  · have hend := hin.2
    have hfits := m.fits
    have hlast : LOCHDR = 30 := rfl
    rw [MemMapping.length] at hend
    have hnowrap : ¬ m.Wraps lh LOCHDR := by
      rintro ⟨hbelow, htop⟩
      rw [MemMapping.length] at hbelow
      omega
    have hfield {c : Nat} (hc : c < LOCHDR) : toU32 ((lh : Int) + c) = lh + c := by
      rw [toU32_add]
      exact Nat.mod_eq_of_lt (by omega)
    have hread {c n : Nat} (hc : c + n ≤ LOCHDR) : m.Inside (lh + c) n :=
      ⟨by omega, by rw [MemMapping.length]; omega⟩
    have hword : m.Inside lh 4 := ⟨hlow, by rw [MemMapping.length]; omega⟩
    rw [get4LE_inside hword, hfield (show LOCNAM < LOCHDR by decide),
      hfield (show LOCEXT < LOCHDR by decide), get2LE_inside (hread (by decide)),
      get2LE_inside (hread (by decide))]
    simp only [Outcome.done_bind]
    refine ⟨fun _ hwraps => absurd hwraps hnowrap, fun _ => ?_⟩
    split
    · exact hy
    · exact hf _ _
  · have hend : m.addr + m.length < lh + LOCHDR := by
      rw [MemMapping.Inside, not_and, Nat.not_le] at hin
      exact hin hlow
    have hwraps : m.Wraps lh LOCHDR := by
      by_contra hno
      exact hpass (.inl ⟨hend, hno⟩)
    by_cases hword : m.Inside lh 4
    · rw [get4LE_inside hword, Outcome.done_bind]
      split
      · rename_i hsig
        exact ⟨fun _ _ => ⟨hword, hsig⟩, fun _ => hy⟩
      · rename_i hsig
        have hext : get2LE m (toU32 ((lh : Int) + LOCEXT)) = .fault :=
          get2LE_outside (field_outside hlh hsmall (show LOCEXT + 2 = LOCHDR by decide)
            (by decide) hend)
        rw [hext]
        refine ⟨fun h => absurd ?_ h, fun h => absurd (h hwraps).2 hsig⟩
        by_cases hname : m.Inside (toU32 ((lh : Int) + LOCNAM)) 2
        · rw [get2LE_inside hname]
          rfl
        · rw [get2LE_outside hname]
          rfl
    · rw [get4LE_outside hword]
      exact ⟨fun h => absurd rfl h, fun h => absurd (h hwraps).1 hword⟩

theorem readFields_ne_fault_iff {hd : CenHeader} (hpage : PAGE_SIZE ≤ m.addr)
    (hin : m.Inside ptr CENHDR) (hoff : hd.localHdrOffset = m.word (ptr + CENOFF)) :
    readFields m ptr hd ≠ .fault ↔ LocalInside m ptr := by
  have hread4 {c : Nat} (hc : c + 4 ≤ CENHDR) : m.Inside (ptr + c) 4 := by
    obtain ⟨hlow, hend⟩ := hin
    exact ⟨by omega, by omega⟩
  have hread2 {c : Nat} (hc : c + 2 ≤ CENHDR) : m.Inside (ptr + c) 2 := by
    obtain ⟨hlow, hend⟩ := hin
    exact ⟨by omega, by omega⟩
  unfold readFields
  rw [field_addr hin (show CENSIZ < CENHDR by decide),
    field_addr hin (show CENLEN < CENHDR by decide),
    field_addr hin (show CENHOW < CENHDR by decide),
    field_addr hin (show CENTIM < CENHDR by decide),
    field_addr hin (show CENCRC < CENHDR by decide),
    field_addr hin (show CENVEM < CENHDR by decide),
    field_addr hin (show CENATX < CENHDR by decide)]
  rw [get4LE_inside (hread4 (by decide)), get4LE_inside (hread4 (by decide)),
    get2LE_inside (hread2 (by decide)), get4LE_inside (hread4 (by decide)),
    get4LE_inside (hread4 (by decide)), get2LE_inside (hread2 (by decide)),
    get4LE_inside (hread4 (by decide))]
  simp only [Outcome.done_bind]
  rw [hoff]
  unfold LocalInside
  split
  · rename_i hversion
    refine ⟨fun _ hcompatible => ?_, fun _ => nofun⟩
    exact absurd hcompatible (not_or.mpr hversion)
  rename_i hversion
  have hcompatible : Compatible m ptr := by
    rw [Compatible]
    by_contra hno
    exact hversion (not_or.mp hno)
  split
  · rename_i htop
    refine ⟨fun _ _ hlt => ?_, fun _ => nofun⟩
    rw [localHdr] at hlt
    omega
  rename_i htop
  have hlt : localHdr m ptr < 2 ^ 32 := Nat.lt_of_not_le htop
  refine (local_ne_fault_iff (by simp) (by simp) ?_ hpage (Nat.le_add_right _ _) hlt).trans ?_
  · intro nameLen extLen
    split
    · simp
    split <;> simp
  · exact ⟨fun h _ _ => h, fun h => h hcompatible hlt⟩

end Local

/-! ## Records -/

/-- The condition on a record: no sum that wraps leads to a read outside the mapping. -/
structure RecordInside (m : MemMapping) (ptr : Nat) : Prop where
  header : HeaderInside m ptr
  localHeader : ∀ hd, readHeader m ptr = .done (some hd) → LocalInside m ptr

section Records

variable {m : MemMapping} {ptr : Nat}

/-- A record is read inside the mapping exactly when its addresses are in order. -/
theorem readEntry_ne_fault_iff (hpage : PAGE_SIZE ≤ m.addr) (hptr : ptr < 2 ^ 32) :
    readEntry m ptr ≠ .fault ↔ RecordInside m ptr := by
  have hheader := readHeader_ne_fault_iff hpage hptr
  unfold readEntry
  cases hread : readHeader m ptr with
  | fault =>
    rw [hread] at hheader
    exact ⟨fun h => absurd rfl h, fun h => absurd rfl (hheader.mpr h.header)⟩
  | spin =>
    rw [hread] at hheader
    exact ⟨fun _ => ⟨hheader.mp (by simp), by simp [hread]⟩, fun _ => by simp⟩
  | done r =>
    rw [hread] at hheader
    rw [Outcome.done_bind]
    cases r with
    | none => exact ⟨fun _ => ⟨hheader.mp (by simp), by simp [hread]⟩, fun _ => by simp⟩
    | some hd =>
      obtain ⟨hin, hoff⟩ := readHeader_some hpage hptr hread
      have hfields := readFields_ne_fault_iff hpage hin hoff
      refine (bind_ne_fault_iff fun e => ?_).trans (hfields.trans
        ⟨fun hlocal => ⟨hheader.mp (by simp), fun _ _ => hlocal⟩,
          fun h => h.localHeader hd hread⟩)
      cases e <;> simp

theorem readEntry_next_lt {e : ZipEntry} {next : Nat}
    (h : readEntry m ptr = .done (some (e, next))) : next < 2 ^ 32 := by
  unfold readEntry at h
  obtain ⟨hd, -, h⟩ := Outcome.bind_eq_done.mp h
  cases hd with
  | none => cases h
  | some hd =>
    obtain ⟨e', -, h⟩ := Outcome.bind_eq_done.mp h
    cases e' with
    | none => cases h
    | some e' =>
      cases h
      exact toU32_lt _

/-- `Visits m n ptr ptr'`: the walk over `n` records that begins at `ptr` comes to the record at
`ptr'`. -/
inductive Visits (m : MemMapping) : Nat → Nat → Nat → Prop
  | here {n ptr : Nat} : Visits m (n + 1) ptr ptr
  | next {n ptr next ptr' : Nat} {e : ZipEntry} : readEntry m ptr = .done (some (e, next)) →
      Visits m n next ptr' → Visits m (n + 1) ptr ptr'

theorem walkDirectory_ne_fault_iff (hpage : PAGE_SIZE ≤ m.addr) (n : Nat) : ∀ (ptr : Nat)
    (pEntries records : List ZipEntry), ptr < 2 ^ 32 → Indexes m pEntries records →
    pEntries.length + n < 2 ^ 32 →
    (walkDirectory m n ptr pEntries ≠ .fault ↔ ∀ ptr', Visits m n ptr ptr' → RecordInside m ptr') := by
  induction n with
  | zero =>
    intro ptr pEntries records _ _ _
    refine ⟨fun _ ptr' hvisits => ?_, fun _ => by simp [walkDirectory]⟩
    cases hvisits
  | succ n ih =>
    intro ptr pEntries records hptr hidx hlen
    have hentry := readEntry_ne_fault_iff hpage hptr
    -- The visits of a walk that ends at the first record.
    have hstop (hread : ∀ e next, readEntry m ptr ≠ .done (some (e, next))) :
        (∀ ptr', Visits m (n + 1) ptr ptr' → RecordInside m ptr') ↔ RecordInside m ptr := by
      refine ⟨fun h => h ptr .here, fun h ptr' hvisits => ?_⟩
      cases hvisits with
      | here => exact h
      | next hnext => exact absurd hnext (hread _ _)
    rw [walkDirectory]
    cases hread : readEntry m ptr with
    | fault =>
      rw [hstop (by rw [hread]; simp), ← hentry, hread]
      simp
    | spin =>
      rw [hstop (by rw [hread]; simp), ← hentry, hread]
      simp
    | done r =>
      cases r with
      | none =>
        rw [hstop (by rw [hread]; simp), ← hentry, hread]
        simp
      | some p =>
        obtain ⟨e, next⟩ := p
        have he := readEntry_named hread
        obtain ⟨l', hins, hperm, hsorted, hfirst⟩ :=
          insertEntry_spec hidx.sorted hidx.named he (by omega)
        have hidx' := indexes_insert hidx he hperm hsorted hfirst
        have hrest := ih next l' (records ++ [e]) (readEntry_next_lt hread) hidx'
          (by rw [hperm.length_eq]; simp; omega)
        rw [Outcome.done_bind]
        dsimp only
        rw [hins, Outcome.done_bind, hrest]
        constructor
        · intro hall ptr' hvisits
          cases hvisits with
          | here => exact hentry.mp (by rw [hread]; simp)
          | next hnext hvisits =>
            rw [hread] at hnext
            cases hnext
            exact hall ptr' hvisits
        · intro hall ptr' hvisits
          exact hall ptr' (.next hread hvisits)

/-- Every record that was read is one that the walk came to, and the other way round. -/
theorem directoryRecords_visits (n : Nat) : ∀ (ptr : Nat) (records : List ZipEntry),
    directoryRecords m n ptr = .done (some records) →
    (∀ e ∈ records, ∃ ptr' next, Visits m n ptr ptr' ∧
      readEntry m ptr' = .done (some (e, next))) ∧
    ∀ ptr', Visits m n ptr ptr' →
      ∃ e next, e ∈ records ∧ readEntry m ptr' = .done (some (e, next)) := by
  induction n with
  | zero =>
    intro ptr records h
    cases h
    refine ⟨fun e he => ?_, fun ptr' hvisits => ?_⟩
    · cases he
    · cases hvisits
  | succ n ih =>
    intro ptr records h
    rw [directoryRecords, Outcome.bind_eq_done] at h
    obtain ⟨r, hread, h⟩ := h
    cases r with
    | none => cases h
    | some p =>
      obtain ⟨e, next⟩ := p
      obtain ⟨rest, hrest, h⟩ := Outcome.bind_eq_done.mp h
      cases rest with
      | none => cases h
      | some rest =>
        cases h
        obtain ⟨hsound, hcomplete⟩ := ih next rest hrest
        constructor
        · intro e' he'
          rcases List.mem_cons.mp he' with rfl | he'
          · exact ⟨ptr, next, .here, hread⟩
          · obtain ⟨ptr', next', hvisits, hread'⟩ := hsound e' he'
            exact ⟨ptr', next', .next hread hvisits, hread'⟩
        · intro ptr' hvisits
          cases hvisits with
          | here => exact ⟨e, next, List.mem_cons_self, hread⟩
          | next hnext hvisits =>
            rw [hread] at hnext
            cases hnext
            obtain ⟨e', next', he', hread'⟩ := hcomplete ptr' hvisits
            exact ⟨e', next', List.mem_cons_of_mem _ he', hread'⟩

theorem visits_lt {n ptr ptr' : Nat} (h : Visits m n ptr ptr') (hptr : ptr < 2 ^ 32) :
    ptr' < 2 ^ 32 := by
  induction h with
  | here => exact hptr
  | next hread _ ih => exact ih (readEntry_next_lt hread)

end Records

/-! ## Fields -/

/-- What an entry of an accepted archive should satisfy. -/
structure ZipEntry.Valid (m : MemMapping) (e : ZipEntry) : Prop where
  offset : 0 ≤ e.offset
  compLen : 0 ≤ e.compLen
  uncompLen : 0 ≤ e.uncompLen
  ends : e.offset + e.compLen ≤ m.length

/-- The condition on the fields of a record: none has the top bit, and neither has the offset of
the data. -/
structure RecordSmall (m : MemMapping) (ptr : Nat) : Prop where
  compLen : m.word (ptr + CENSIZ) < 2 ^ 31
  uncompLen : m.word (ptr + CENLEN) < 2 ^ 31
  offset : (m.word (ptr + CENOFF) + LOCHDR + m.half (localHdr m ptr + LOCNAM) +
    m.half (localHdr m ptr + LOCEXT)) % 2 ^ 32 < 2 ^ 31

section Fields

variable {m : MemMapping} {ptr : Nat}

/-- A half-word of the local header that was read. -/
theorem local_half {c v : Nat} (hpage : PAGE_SIZE ≤ m.addr) (hlh : localHdr m ptr < 2 ^ 32)
    (hc : c < LOCHDR) (h : get2LE m (toU32 ((localHdr m ptr : Int) + c)) = .done v) :
    v = m.half (localHdr m ptr + c) := by
  obtain ⟨⟨hlow, -⟩, hval⟩ := get2LE_done h
  have hsmall : LOCHDR ≤ m.addr := le_trans (by decide) hpage
  have hsum : (localHdr m ptr + c) % 2 ^ 32 = localHdr m ptr + c := by
    rw [toU32_add] at hlow
    omega
  rwa [toU32_add, hsum] at hval

theorem readEntry_valid_iff {e : ZipEntry} {next : Nat} (hpage : PAGE_SIZE ≤ m.addr)
    (hptr : ptr < 2 ^ 32) (h : readEntry m ptr = .done (some (e, next))) :
    e.Valid m ↔ RecordSmall m ptr := by
  unfold readEntry at h
  obtain ⟨hd, hheader, h⟩ := Outcome.bind_eq_done.mp h
  cases hd with
  | none => cases h
  | some hd =>
    obtain ⟨e', hfields, h⟩ := Outcome.bind_eq_done.mp h
    cases e' with
    | none => cases h
    | some e' =>
      cases h
      obtain ⟨hin, hoff⟩ := readHeader_some hpage hptr hheader
      have hspec := readFields_spec hfields
      have hlh := hspec.localHdr
      obtain ⟨compLen, hcomp, hcompLen⟩ := hspec.compLen
      obtain ⟨uncompLen, huncomp, huncompLen⟩ := hspec.uncompLen
      obtain ⟨nameLen, extLen, hname, hext, hoffset⟩ := hspec.offset
      rw [hoff] at hlh hname hext hoffset
      have hcompWord := (get4LE_done hcomp).2
      have huncompWord := (get4LE_done huncomp).2
      rw [field_addr hin (show CENSIZ < CENHDR by decide)] at hcompWord
      rw [field_addr hin (show CENLEN < CENHDR by decide)] at huncompWord
      have hnameHalf := local_half hpage hlh (show LOCNAM < LOCHDR by decide) hname
      have hextHalf := local_half hpage hlh (show LOCEXT < LOCHDR by decide) hext
      have hsum : toU32 ((m.word (ptr + CENOFF) : Int) + LOCHDR + nameLen + extLen) =
          (m.word (ptr + CENOFF) + LOCHDR + nameLen + extLen) % 2 ^ 32 := by
        unfold toU32
        omega
      rw [hsum] at hoffset
      have hzero : 0 ≤ e.offset ↔
          (m.word (ptr + CENOFF) + LOCHDR + nameLen + extLen) % 2 ^ 32 < 2 ^ 31 := by
        rw [hoffset]
        exact wrap32_nonneg_iff (Nat.mod_lt _ (by decide))
      rw [hnameHalf, hextHalf] at hzero
      have hcompZero : 0 ≤ e.compLen ↔ m.word (ptr + CENSIZ) < 2 ^ 31 := by
        rw [hcompLen, hcompWord]
        exact wrap32_nonneg_iff (word_lt m _)
      have huncompZero : 0 ≤ e.uncompLen ↔ m.word (ptr + CENLEN) < 2 ^ 31 := by
        rw [huncompLen, huncompWord]
        exact wrap32_nonneg_iff (word_lt m _)
      constructor
      · intro hvalid
        exact ⟨hcompZero.mp hvalid.compLen, huncompZero.mp hvalid.uncompLen,
          hzero.mp hvalid.offset⟩
      · intro hsmall
        have hoffsetPos := hzero.mpr hsmall.offset
        have hcompPos := hcompZero.mpr hsmall.compLen
        refine ⟨hoffsetPos, hcompPos, huncompZero.mpr hsmall.uncompLen, ?_⟩
        have hend := hspec.end_le
        have hrange := hspec.no_overflow.2
        obtain ⟨k, hk⟩ := Int.eq_ofNat_of_zero_le (Int.add_nonneg hoffsetPos hcompPos)
        rw [hk] at hend hrange ⊢
        rw [toU32_of_range (by omega)] at hend
        exact_mod_cast hend

end Fields

/-! ## The archive -/

section Archive

variable {m : MemMapping}

theorem eocdLoop_inside (fuel : Nat) : ∀ p, m.addr ≤ p + 1 → p + ENDHDR ≤ m.addr + m.length →
    p + 1 < m.addr + fuel →
    ∃ r, eocdLoop m fuel p = .done r ∧ ∀ q, r = some q → m.Inside q ENDHDR := by
  induction fuel with
  | zero =>
    intro p hlow _ hfuel
    omega
  | succ fuel ih =>
    intro p hlow hend hfuel
    rw [eocdLoop]
    split
    · rename_i hin
      have hlast : ENDHDR = 22 := rfl
      have hpos := m.addr_pos
      have hfits := m.fits
      rw [MemMapping.length] at hend
      have hprev : toU32 ((p : Int) - 1) = p - 1 := by
        unfold toU32
        omega
      obtain ⟨r, hrun, hinside⟩ := ih (p - 1) (by omega) (by rw [MemMapping.length]; omega)
        (by omega)
      have hone : m.Inside p 1 := ⟨hin, by rw [MemMapping.length]; omega⟩
      have hword : m.Inside p 4 := ⟨hin, by rw [MemMapping.length]; omega⟩
      rw [read_inside hone, get4LE_inside hword, hprev, Outcome.done_bind, Outcome.done_bind]
      split
      · split
        · refine ⟨some p, rfl, ?_⟩
          rintro q ⟨⟩
          exact ⟨hin, by rw [MemMapping.length]; exact hend⟩
        · exact ⟨r, hrun, hinside⟩
      · exact ⟨r, hrun, hinside⟩
    · exact ⟨none, rfl, by simp⟩

/-- The scan for the end-of-central-directory record reads inside the mapping. -/
theorem findEocd_inside (hpage : PAGE_SIZE ≤ m.addr) :
    ∃ r, findEocd m = .done r ∧ ∀ q, r = some q → m.Inside q ENDHDR := by
  have hsmall : ENDHDR ≤ m.addr := le_trans (by decide) hpage
  have hlast : ENDHDR = 22 := rfl
  have hfits := m.fits
  have hstart : toU32 ((m.addr : Int) + m.length - ENDHDR) = m.addr + m.length - ENDHDR := by
    rw [MemMapping.length]
    unfold toU32
    omega
  rw [findEocd, hstart]
  rcases Nat.lt_or_ge m.length ENDHDR with hshort | hlong
  · rw [eocdLoop, if_neg (by omega)]
    exact ⟨none, rfl, by simp⟩
  · exact eocdLoop_inside _ _ (by omega) (by omega) (by omega)

/-- The walk over the central directory comes to the record at `ptr`. -/
def Visited (m : MemMapping) (ptr : Nat) : Prop :=
  m.word m.addr = LOCSIG ∧ ∃ eocd numEntries cdOffset, findEocd m = .done (some eocd) ∧
    eocdFields m eocd = .done (numEntries, cdOffset) ∧ cdOffset < m.length ∧
    Visits m numEntries (toU32 (m.addr + cdOffset)) ptr

theorem visited_lt {ptr : Nat} (h : Visited m ptr) : ptr < 2 ^ 32 := by
  obtain ⟨-, eocd, numEntries, cdOffset, -, -, -, hvisits⟩ := h
  exact visits_lt hvisits (toU32_lt _)

theorem eocdFields_inside {p : Nat} (h : m.Inside p ENDHDR) :
    eocdFields m p = .done (m.half (p + ENDSUB), m.word (p + ENDOFF)) := by
  have hfits := m.fits
  have hlast : ENDHDR = 22 := rfl
  obtain ⟨hlow, hhigh⟩ := h
  rw [MemMapping.length] at hhigh
  have hfield {c : Nat} (hc : c < ENDHDR) : toU32 ((p : Int) + c) = p + c := by
    rw [toU32_add]
    exact Nat.mod_eq_of_lt (by omega)
  have hread {c n : Nat} (hc : c + n ≤ ENDHDR) : m.Inside (p + c) n :=
    ⟨by omega, by rw [MemMapping.length]; omega⟩
  rw [eocdFields, hfield (show ENDSUB < ENDHDR by decide),
    hfield (show ENDOFF < ENDHDR by decide), get2LE_inside (hread (by decide)),
    get4LE_inside (hread (by decide))]
  rfl

/-- The part of `parseZipArchive` behind the walk returns. -/
theorem parse_walked {numEntries start : Nat} (hn : numEntries < 2 ^ 16) :
    (do
      let pHash ← mzHashTableCreate (UInt32.ofNat (mzHashSize numEntries))
      let some pEntries ← walkDirectory m numEntries start [] | .done none
      let pHash' ← addEntries m pEntries numEntries 0 pHash
      .done (some ⟨numEntries, pEntries, pHash', m⟩) : Outcome (Option ZipArchive)) ≠ .fault ↔
    walkDirectory m numEntries start [] ≠ .fault := by
  obtain ⟨t₀, hcreate, -⟩ := create_tableOf m [] hn
  rw [hcreate, Outcome.done_bind]
  cases hwalk : walkDirectory m numEntries start [] with
  | fault => simp
  | spin => simp
  | done r =>
    rw [Outcome.done_bind]
    cases r with
    | none => simp
    | some pEntries =>
      have hempty : Indexes m [] [] :=
        ⟨List.Perm.refl _, List.Pairwise.nil, by simp, fun _ => rfl⟩
      obtain ⟨records, -, hcount, hidx⟩ :=
        walkDirectory_spec numEntries _ [] [] pEntries hempty (by simp; omega) hwalk
      rw [List.nil_append] at hidx
      have hlen : pEntries.length = numEntries := by rw [hidx.perm.length_eq, hcount]
      obtain ⟨t₁, hcreate', htab⟩ := create_tableOf m pEntries hn
      rw [hcreate] at hcreate'
      cases hcreate'
      obtain ⟨t', hadd, -⟩ :=
        addEntries_spec hidx.named (by omega) numEntries 0 t₀ (by omega) htab
      dsimp only
      rw [hadd]
      simp

/-- Which archives are parsed without a read outside the mapping. -/
theorem parseZipArchive_ne_fault_iff (hpage : PAGE_SIZE ≤ m.addr) :
    parseZipArchive m ≠ .fault ↔
      4 ≤ m.length ∧ ∀ ptr, Visited m ptr → RecordInside m ptr := by
  rcases Nat.lt_or_ge m.length 4 with hshort | hlong
  · have hout : ¬ m.Inside m.addr 4 := by
      rintro ⟨-, hend⟩
      omega
    rw [parseZipArchive, get4LE_outside hout]
    refine ⟨fun h => absurd rfl h, fun h => ?_⟩
    have hlen := h.1
    omega
  have hin : m.Inside m.addr 4 := ⟨le_refl _, by omega⟩
  rw [parseZipArchive, get4LE_inside hin, Outcome.done_bind]
  -- Without a visit there is no condition.
  have hnone {x : Outcome (Option ZipArchive)} (hx : x ≠ .fault) (hno : ∀ ptr, ¬ Visited m ptr) :
      x ≠ .fault ↔ 4 ≤ m.length ∧ ∀ ptr, Visited m ptr → RecordInside m ptr :=
    ⟨fun _ => ⟨hlong, fun ptr h => absurd h (hno ptr)⟩, fun _ => hx⟩
  split
  · rename_i hsig
    refine hnone nofun ?_
    rintro ptr ⟨hloc, -⟩
    rw [hsig] at hloc
    exact absurd hloc (by decide)
  split
  · rename_i hsig
    refine hnone nofun ?_
    rintro ptr ⟨hloc, -⟩
    exact hsig hloc
  rename_i hloc
  obtain ⟨r, hfind, heocd⟩ := findEocd_inside hpage
  rw [hfind, Outcome.done_bind]
  cases r with
  | none =>
    refine hnone nofun ?_
    rintro ptr ⟨-, eocd, -, -, hsome, -⟩
    rw [hfind] at hsome
    cases hsome
  | some eocd =>
    have hfields := eocdFields_inside (heocd eocd rfl)
    dsimp only
    rw [hfields, Outcome.done_bind]
    dsimp only
    have hvisited (ptr : Nat) : Visited m ptr ↔ m.word (eocd + ENDOFF) < m.length ∧
        Visits m (m.half (eocd + ENDSUB)) (toU32 (m.addr + m.word (eocd + ENDOFF))) ptr := by
      constructor
      · rintro ⟨-, eocd', n, cd, hsome, hpair, hlt, hvisits⟩
        rw [hfind] at hsome
        cases hsome
        rw [hfields] at hpair
        cases hpair
        exact ⟨hlt, hvisits⟩
      · rintro ⟨hlt, hvisits⟩
        exact ⟨not_not.mp hloc, eocd, _, _, hfind, hfields, hlt, hvisits⟩
    split
    · rename_i hbad
      refine hnone nofun ?_
      intro ptr hptr
      obtain ⟨hlt, hvisits⟩ := (hvisited ptr).mp hptr
      rcases hbad with hzero | hge
      · rw [hzero] at hvisits
        cases hvisits
      · omega
    · rename_i hgood
      have hlt := Nat.lt_of_not_le (not_or.mp hgood).2
      have hhalf := half_lt m (eocd + ENDSUB)
      have hempty : Indexes m [] [] :=
        ⟨List.Perm.refl _, List.Pairwise.nil, by simp, fun _ => rfl⟩
      refine (parse_walked hhalf).trans ?_
      rw [walkDirectory_ne_fault_iff hpage _ _ [] [] (toU32_lt _) hempty (by simp; omega)]
      constructor
      · intro hall
        exact ⟨hlong, fun ptr hptr => hall ptr ((hvisited ptr).mp hptr).2⟩
      · intro hall ptr hvisits
        exact hall.2 ptr ((hvisited ptr).mpr ⟨hlt, hvisits⟩)

/-- The entries of an accepted archive are the records that the walk comes to. -/
theorem entries_visited {a : ZipArchive} (h : parseZipArchive m = .done (some a)) :
    (∀ e ∈ a.pEntries, ∃ ptr next, Visited m ptr ∧ readEntry m ptr = .done (some (e, next))) ∧
    ∀ ptr, Visited m ptr → ∃ e next, e ∈ a.pEntries ∧
      readEntry m ptr = .done (some (e, next)) := by
  obtain ⟨rfl, records, hacc⟩ := parseZipArchive_spec h
  have hdir := hacc.directory
  unfold centralDirectory at hdir
  obtain ⟨eocd, hfind, hdir⟩ := Outcome.bind_eq_done.mp hdir
  cases eocd with
  | none => cases hdir
  | some eocd =>
    obtain ⟨⟨numEntries, cdOffset⟩, hfields, hdir⟩ := Outcome.bind_eq_done.mp hdir
    obtain ⟨hsound, hcomplete⟩ := directoryRecords_visits _ _ _ hdir
    -- The checks that the archive has passed.
    have hchecks : a.map.word a.map.addr = LOCSIG ∧ cdOffset < a.map.length := by
      unfold parseZipArchive at h
      obtain ⟨val, hval, h⟩ := Outcome.bind_eq_done.mp h
      split at h
      · cases h
      split at h
      · cases h
      rename_i hloc
      rw [hfind, Outcome.done_bind] at h
      dsimp only at h
      rw [hfields, Outcome.done_bind] at h
      dsimp only at h
      split at h
      · cases h
      rename_i hgood
      refine ⟨?_, Nat.lt_of_not_le (not_or.mp hgood).2⟩
      rw [← (get4LE_done hval).2]
      exact not_not.mp hloc
    constructor
    · intro e he
      obtain ⟨ptr, next, hvisits, hread⟩ := hsound e (hacc.indexes.perm.mem_iff.mp he)
      exact ⟨ptr, next, ⟨hchecks.1, eocd, numEntries, cdOffset, hfind, hfields, hchecks.2, hvisits⟩,
        hread⟩
    · rintro ptr ⟨-, eocd', numEntries', cdOffset', hfind', hfields', -, hvisits⟩
      rw [hfind] at hfind'
      cases hfind'
      rw [hfields] at hfields'
      cases hfields'
      obtain ⟨e, next, he, hread⟩ := hcomplete ptr hvisits
      exact ⟨e, next, hacc.indexes.perm.mem_iff.mpr he, hread⟩

/-- An archive is parsed with no read outside the mapping, and accepted only with entries that lie
inside of it, exactly when no sum wraps to a read outside and no length of an accepted record has
the top bit. -/
theorem parseZipArchive_validates_iff (hpage : PAGE_SIZE ≤ m.addr) :
    (parseZipArchive m ≠ .fault ∧
      ∀ a, parseZipArchive m = .done (some a) → ∀ e ∈ a.pEntries, e.Valid m) ↔
    (4 ≤ m.length ∧ ∀ ptr, Visited m ptr → RecordInside m ptr) ∧
      ∀ a, parseZipArchive m = .done (some a) → ∀ ptr, Visited m ptr → RecordSmall m ptr := by
  rw [parseZipArchive_ne_fault_iff hpage]
  refine and_congr_right fun _ => forall_congr' fun a => forall_congr' fun h => ?_
  obtain ⟨hsound, hcomplete⟩ := entries_visited h
  constructor
  · intro hvalid ptr hptr
    obtain ⟨e, next, he, hread⟩ := hcomplete ptr hptr
    exact (readEntry_valid_iff hpage (visited_lt hptr) hread).mp (hvalid e he)
  · intro hsmall e he
    obtain ⟨ptr, next, hptr, hread⟩ := hsound e he
    exact (readEntry_valid_iff hpage (visited_lt hptr) hread).mpr (hsmall ptr hptr)

end Archive

/-! ## A negative length -/

/-- One byte is stored, `2 ^ 32 - 1` are announced. -/
def negativeMapping : MemMapping :=
  ⟨0x40000000, storedArchive [0x78] (2 ^ 32 - 1), sampleAddr_pos, by decide⟩

def negativeEntry : ZipEntry := ⟨1, 0x4000004e, 31, 1, -1, 0, 0, 0, 0, 0⟩

theorem parseZipArchive_accepts_negative :
    ∃ a, parseZipArchive negativeMapping = .done (some a) ∧ negativeEntry ∈ a.pEntries ∧
      ¬ negativeEntry.Valid negativeMapping := by
  obtain ⟨a, hparse, hl⟩ := @entries_of_value negativeMapping [negativeEntry] (by decide +kernel)
  refine ⟨a, hparse, by rw [hl]; exact List.mem_cons_self, ?_⟩
  intro hvalid
  exact absurd hvalid.uncompLen (by decide)

theorem parseZipArchive_validates_sample :
    PAGE_SIZE ≤ sampleMapping.addr ∧
    ((parseZipArchive sampleMapping ≠ .fault ∧
      ∀ a, parseZipArchive sampleMapping = .done (some a) → ∀ e ∈ a.pEntries,
        e.Valid sampleMapping) ↔
    (4 ≤ sampleMapping.length ∧ ∀ ptr, Visited sampleMapping ptr → RecordInside sampleMapping ptr) ∧
      ∀ a, parseZipArchive sampleMapping = .done (some a) →
        ∀ ptr, Visited sampleMapping ptr → RecordSmall sampleMapping ptr) :=
  ⟨by decide, parseZipArchive_validates_iff (by decide)⟩

end BootableRecovery.Minzip
