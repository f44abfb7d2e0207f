import BootableRecovery.Applypatch.Applypatch

/-!
# The free space and the test for enough of it

`FreeSpaceForFile` multiplies the size of a block by the number of free blocks, and
`GenerateTarget` compares the product with one and a half times the size of the target. Both
products are cut to a `size_t` of 32 bits.

* `freeSpace_exact_iff`, `enoughSpace_exact_iff`: when each of them is right.
* `space_exact_iff`: when the calls are.
-/

namespace BootableRecovery.Applypatch

/-- The answer of `statfs` for a file system. -/
def statfsResult (name : Bytes) (f_bsize f_bfree : Nat) : Σ o, Ans o :=
  ⟨.statfs name, some (f_bsize, f_bfree)⟩

/-- `FreeSpaceForFile` returns the number of free bytes, or the largest `size_t` when it is
larger than that. -/
def FreeSpaceExact (f_bsize f_bfree : Nat) : Prop :=
  ∀ (filename : Bytes) (v : Nat),
    Prog.Trace (freeSpaceForFile filename) [statfsResult filename f_bsize f_bfree] v →
      v = f_bsize * f_bfree ∨ (2 ^ 32 ≤ f_bsize * f_bfree ∧ v = 2 ^ 32 - 1)

/-- Before the first try, `enough_space` is the comparison of the free bytes. -/
def EnoughSpaceExact (a : Args) (f_bsize f_bfree : Nat) : Prop :=
  ∀ (retry : Nat) (enough_space : Bool), 0 < retry →
    Prog.Trace (askSpace a retry) [statfsResult (targetFs a.target_filename) f_bsize f_bfree]
        enough_space →
      (enough_space = true ↔
        256 * 1024 < f_bsize * f_bfree ∧ a.target_size * 3 / 2 < f_bsize * f_bfree)

/-- The free bytes fit in 32 bits, or their lowest 32 bits are all set. -/
def FreeFits (free : Nat) : Prop := free < 2 ^ 32 ∨ free % 2 ^ 32 = 2 ^ 32 - 1

/-- The free bytes are not between the size with its margin as it is computed, cut to 32 bits,
and as it is. -/
def MarginFits (target_size free : Nat) : Prop :=
  free ≤ 256 * 1024 ∨ target_size * 3 / 2 < free ∨ free ≤ target_size * 3 % 2 ^ 32 / 2

/-! ## The two products -/

section Products

variable {target_size free : Nat}

theorem margin_eq : toU32 (target_size * 3) = target_size * 3 % 2 ^ 32 := by
  rw [show (target_size * 3 : Int) = (target_size * 3 : Nat) by push_cast; rfl]
  generalize target_size * 3 = size
  unfold toU32
  omega

theorem freeSpace_exact_iff :
    (free % 2 ^ 32 = free ∨ (2 ^ 32 ≤ free ∧ free % 2 ^ 32 = 2 ^ 32 - 1)) ↔ FreeFits free := by
  unfold FreeFits
  omega

/-- Behind a right number of free bytes, the margin decides. -/
theorem enoughSpace_exact_iff (hfits : FreeFits free) :
    (enoughSpace (free % 2 ^ 32) target_size = true ↔
        256 * 1024 < free ∧ target_size * 3 / 2 < free) ↔
      MarginFits target_size free := by
  unfold FreeFits at hfits
  simp only [MarginFits, enoughSpace, Bool.and_eq_true, decide_eq_true_eq, margin_eq]
  -- the margin that is computed is never larger than the margin
  have hle : target_size * 3 % 2 ^ 32 / 2 ≤ target_size * 3 / 2 :=
    Nat.div_le_div_right (Nat.mod_le _ _)
  have hlt : target_size * 3 % 2 ^ 32 / 2 < 2 ^ 31 := by omega
  generalize target_size * 3 / 2 = margin at *
  generalize target_size * 3 % 2 ^ 32 / 2 = cut at *
  rcases hfits with hsmall | hones
  · rw [Nat.mod_eq_of_lt hsmall]
    omega
  · rw [hones]
    omega

end Products

/-! ## The calls -/

theorem trace_freeSpaceForFile {filename : Bytes} {f_bsize f_bfree v : Nat} :
    Prog.Trace (freeSpaceForFile filename) [statfsResult filename f_bsize f_bfree] v ↔
      v = f_bsize * f_bfree % 2 ^ 32 := by
  unfold freeSpaceForFile perform
  rw [Prog.trace_perform_bind_iff, ← freeSpace_some]
  constructor
  · rintro ⟨x, tr, heq, h⟩
    cases heq
    exact (Prog.trace_ret_iff.mp h).2.symm
  · rintro rfl
    exact ⟨_, [], rfl, .ret⟩

theorem trace_askSpace {a : Args} {retry f_bsize f_bfree : Nat} {enough_space : Bool}
    (hretry : 0 < retry) :
    Prog.Trace (askSpace a retry) [statfsResult (targetFs a.target_filename) f_bsize f_bfree]
        enough_space ↔
      enough_space = enoughSpace (f_bsize * f_bfree % 2 ^ 32) a.target_size := by
  unfold askSpace
  rw [if_pos hretry, Prog.Trace.bind_iff]
  constructor
  · rintro ⟨tr, tr', v, heq, hfree, hret⟩
    obtain ⟨rfl, henough⟩ := Prog.trace_ret_iff.mp hret
    rw [List.append_nil] at heq
    rw [← heq, trace_freeSpaceForFile] at hfree
    rw [← henough, hfree]
  · rintro rfl
    exact ⟨_, [], _, (List.append_nil _).symm, trace_freeSpaceForFile.mpr rfl, .ret⟩

/-- Both are right when the free bytes fit, and are not between the two margins. -/
theorem space_exact_iff (a : Args) (f_bsize f_bfree : Nat) :
    (FreeSpaceExact f_bsize f_bfree ∧ EnoughSpaceExact a f_bsize f_bfree) ↔
      FreeFits (f_bsize * f_bfree) ∧ MarginFits a.target_size (f_bsize * f_bfree) := by
  have hfree : FreeSpaceExact f_bsize f_bfree ↔ FreeFits (f_bsize * f_bfree) := by
    rw [← freeSpace_exact_iff]
    constructor
    · exact fun h => h [] _ (trace_freeSpaceForFile.mpr rfl)
    · rintro h filename v hv
      rw [trace_freeSpaceForFile.mp hv]
      exact h
  rw [hfree]
  refine and_congr_right fun hfits => ?_
  rw [← enoughSpace_exact_iff hfits]
  constructor
  · exact fun h => h 1 _ Nat.one_pos ((trace_askSpace Nat.one_pos).mpr rfl)
  · rintro h retry enough_space hretry htrace
    rw [(trace_askSpace hretry).mp htrace]
    exact h

/-- Four gigabytes are no space at all. -/
theorem space_wraps : ¬∀ (a : Args) (f_bsize f_bfree : Nat),
    FreeSpaceExact f_bsize f_bfree ∧ EnoughSpaceExact a f_bsize f_bfree := by
  intro h
  obtain ⟨hfree, -⟩ := h ⟨[], [], [], 0, [], none⟩ 4096 (2 ^ 20)
  rcases hfree [] 0 (trace_freeSpaceForFile.mpr rfl) with hzero | ⟨-, hones⟩
  · cases hzero
  · cases hones

end BootableRecovery.Applypatch
