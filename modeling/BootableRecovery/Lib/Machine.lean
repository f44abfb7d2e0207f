import Mathlib

/-!
# Bytes, machine integers and outcomes

The vocabulary shared by every model of C code below.

* `Bytes` with total reads (`byteAt`) and slices (`slice`).
* Little-endian words (`leBytes`, `leNat`) and their round trip `leNat_leBytes`.
* `wrap32`, the conversion of an integer to a signed 32-bit variable, and
  `toU32`, the conversion to an unsigned one. Both are the identity in range.
* `Outcome`: what a C function does with one set of inputs. It returns
  (`done`), it performs an access outside an object (`fault`), or it is still
  in a loop when the step budget of the model ends (`spin`).

Nothing in this module mentions the programs that are verified.
-/

namespace BootableRecovery

/-! ## Byte strings -/

/-- The contents of an object in memory or of a file. -/
abbrev Bytes := List UInt8

/-- The byte at a signed index; `none` outside the string. -/
def byteAt (b : Bytes) (i : Int) : Option UInt8 :=
  if i < 0 then none else b[i.toNat]?

/-- The `n` bytes from offset `i` on (fewer when the string ends before). -/
def slice (b : Bytes) (i n : Nat) : Bytes := (b.drop i).take n

theorem byteAt_ofNat (b : Bytes) (i : Nat) : byteAt b i = b[i]? := by
  simp [byteAt]

theorem slice_length_of_le {b : Bytes} {i n : Nat} (h : i + n ≤ b.length) :
    (slice b i n).length = n := by
  simp only [slice, List.length_take, List.length_drop]
  omega

theorem slice_length_le (b : Bytes) (i n : Nat) : (slice b i n).length ≤ n := by
  simp only [slice, List.length_take]
  omega

@[simp] theorem slice_zero_length (b : Bytes) : slice b 0 b.length = b := by
  simp [slice]

@[simp] theorem slice_zero (b : Bytes) (i : Nat) : slice b i 0 = [] := by
  simp [slice]

/-- A prefix followed by the slice that starts where it ends is a longer prefix. -/
theorem take_append_slice (b : Bytes) (i n : Nat) : b.take i ++ slice b i n = b.take (i + n) := by
  rw [slice, List.take_add]

theorem slice_append_slice (b : Bytes) (i m n : Nat) :
    slice b i m ++ slice b (i + m) n = slice b i (m + n) := by
  simp only [slice]
  rw [List.take_add, List.drop_drop]

/-- A slice of a slice, when the outer one holds it. -/
theorem slice_slice (b : Bytes) {i n j k : Nat} (h : j + k ≤ n) :
    slice (slice b i n) j k = slice b (i + j) k := by
  simp only [slice, List.drop_take, List.drop_drop, List.take_take]
  congr 1
  omega

/-- The slice that is the middle part of the string. -/
theorem slice_of_append {b p m q : Bytes} {i n : Nat} (h : b = p ++ (m ++ q)) (hi : i = p.length)
    (hn : n = m.length) : slice b i n = m := by
  subst h hi hn
  simp [slice]

theorem slice_getElem? (b : Bytes) (i n k : Nat) (h : k < n) : (slice b i n)[k]? = b[i + k]? := by
  simp [slice, h]

/-! ## Little-endian words -/

/-- The `w` low bytes of `n`, least significant first. -/
def leBytes : Nat → Nat → Bytes
  | 0, _ => []
  | w + 1, n => UInt8.ofNat (n % 256) :: leBytes w (n / 256)

/-- The number whose little-endian bytes are given. -/
def leNat : Bytes → Nat
  | [] => 0
  | b :: bs => b.toNat + 256 * leNat bs

@[simp] theorem leBytes_length (w n : Nat) : (leBytes w n).length = w := by
  induction w generalizing n with
  | zero => rfl
  | succ w ih => simp [leBytes, ih]

theorem leNat_leBytes (w n : Nat) : leNat (leBytes w n) = n % 256 ^ w := by
  induction w generalizing n with
  | zero => simp [leBytes, leNat, Nat.mod_one]
  | succ w ih =>
    have hbyte : (UInt8.ofNat (n % 256)).toNat = n % 256 := by
      simp
    rw [leBytes, leNat, ih, hbyte, pow_succ', Nat.mod_mul]

theorem leNat_leBytes_of_lt {w n : Nat} (h : n < 256 ^ w) : leNat (leBytes w n) = n := by
  rw [leNat_leBytes, Nat.mod_eq_of_lt h]

theorem leNat_lt (b : Bytes) : leNat b < 256 ^ b.length := by
  induction b with
  | nil => simp [leNat]
  | cons a b ih =>
    have ha := a.toNat_lt
    simp only [leNat, List.length_cons, pow_succ]
    omega

theorem leBytes_leNat (b : Bytes) : leBytes b.length (leNat b) = b := by
  induction b with
  | nil => rfl
  | cons a b ih =>
    have ha := a.toNat_lt
    have hlow : (a.toNat + 256 * leNat b) % 256 = a.toNat := by omega
    have hhigh : (a.toNat + 256 * leNat b) / 256 = leNat b := by omega
    rw [List.length_cons, leBytes, leNat, hlow, hhigh, ih]
    simp

theorem leNat_append (a b : Bytes) : leNat (a ++ b) = leNat a + 256 ^ a.length * leNat b := by
  induction a with
  | nil => simp [leNat]
  | cons x a ih =>
    simp only [List.cons_append, leNat, ih, List.length_cons, pow_succ]
    ring

/-! ## Fixed-width integers -/

/-- The value an integer takes in a signed 32-bit variable. -/
@[irreducible] def wrap32 (x : Int) : Int := (x + 2 ^ 31) % 2 ^ 32 - 2 ^ 31

/-- The value an integer takes in an unsigned 32-bit variable. -/
@[irreducible] def toU32 (x : Int) : Nat := (x % 2 ^ 32).toNat

theorem wrap32_of_range {x : Int} (hl : -2 ^ 31 ≤ x) (hu : x < 2 ^ 31) : wrap32 x = x := by
  unfold wrap32
  omega

theorem wrap32_range (x : Int) : -2 ^ 31 ≤ wrap32 x ∧ wrap32 x < 2 ^ 31 := by
  unfold wrap32
  omega

theorem toU32_of_range {n : Nat} (h : n < 2 ^ 32) : toU32 n = n := by
  unfold toU32
  omega

/-- An unsigned number keeps its value when it is passed on as a signed one. -/
theorem toU32_wrap32 {n : Nat} (h : n < 2 ^ 32) : toU32 (wrap32 n) = n := by
  unfold toU32 wrap32
  omega

/-- The sum of two unsigned numbers wraps. -/
theorem toU32_add (a b : Nat) : toU32 ((a : Int) + b) = (a + b) % 2 ^ 32 := by
  unfold toU32
  omega

theorem toU32_lt (x : Int) : toU32 x < 2 ^ 32 := by
  unfold toU32
  omega

theorem wrap32_nonneg_iff {n : Nat} (h : n < 2 ^ 32) : 0 ≤ wrap32 n ↔ n < 2 ^ 31 := by
  unfold wrap32
  omega

/-! ## Outcomes -/

/-- What a run of a C function does: it returns a value, it accesses memory
outside an object, or the step budget of the model ends inside a loop. -/
inductive Outcome (α : Type) where
  | done (a : α)
  | fault
  | spin
  deriving DecidableEq, Repr

namespace Outcome

variable {α β : Type}

/-- Run `x`, then `f` on its value; a fault or a running loop stays as it is. -/
def bind (x : Outcome α) (f : α → Outcome β) : Outcome β :=
  match x with
  | done a => f a
  | fault => fault
  | spin => spin

instance : Monad Outcome where
  pure := done
  bind := bind

@[simp] theorem pure_eq (a : α) : (pure a : Outcome α) = done a := rfl

@[simp] theorem done_bind (a : α) (f : α → Outcome β) : (done a >>= f) = f a := rfl

@[simp] theorem fault_bind (f : α → Outcome β) : (fault >>= f) = fault := rfl

@[simp] theorem spin_bind (f : α → Outcome β) : (spin >>= f) = spin := rfl

/-- A computation that returned had a first part that returned. -/
theorem bind_eq_done {x : Outcome α} {f : α → Outcome β} {b : β} :
    (x >>= f) = done b ↔ ∃ a, x = done a ∧ f a = done b := by
  cases x with
  | done a => simp
  | fault => simp
  | spin => simp

/-- The value of a run that returned. -/
def value? : Outcome α → Option α
  | done a => some a
  | _ => none

theorem value?_eq_some {x : Outcome α} {a : α} : x.value? = some a ↔ x = done a := by
  cases x with
  | done b => simp [value?]
  | fault => simp [value?]
  | spin => simp [value?]

/-- `y` is `x` with more steps: it goes on where `x` ran out of them. -/
def Extends (x y : Outcome α) : Prop := x = spin ∨ y = x

theorem Extends.refl (x : Outcome α) : x.Extends x := .inr rfl

theorem Extends.of_spin {x : Outcome α} : (spin : Outcome α).Extends x := .inl rfl

theorem Extends.bind {x y : Outcome α} {f g : α → Outcome β} (h : x.Extends y)
    (hf : ∀ a, (f a).Extends (g a)) : (x >>= f).Extends (y >>= g) := by
  rcases h with rfl | rfl
  · exact .inl rfl
  cases y with
  | done a => exact hf a
  | fault => exact .inr rfl
  | spin => exact .inl rfl

theorem Extends.done {x y : Outcome α} (h : x.Extends y) {a : α} (hx : x = .done a) :
    y = .done a := by
  rcases h with rfl | rfl
  · cases hx
  · exact hx

theorem Extends.fault {x y : Outcome α} (h : x.Extends y) (hx : x = .fault) : y = .fault := by
  rcases h with rfl | rfl
  · cases hx
  · exact hx

end Outcome

/-- Read `n` bytes at offset `i` of an object; an access outside it is a fault. -/
def load (b : Bytes) (i : Int) (n : Nat) : Outcome Bytes :=
  if 0 ≤ i ∧ i + n ≤ b.length then .done (slice b i.toNat n) else .fault

theorem load_ofNat {b : Bytes} {i n : Nat} (h : i + n ≤ b.length) :
    load b i n = .done (slice b i n) := by
  unfold load
  rw [if_pos (by omega), Int.toNat_natCast]

/-- Reading the middle part of a string. -/
theorem load_of_append {b p m q : Bytes} {i : Int} {n : Nat} (h : b = p ++ (m ++ q))
    (hi : i = p.length) (hn : n = m.length) : load b i n = .done m := by
  have hle : p.length + n ≤ b.length := by
    rw [h, hn]
    simp
  rw [hi, load_ofNat hle, slice_of_append h rfl hn]

end BootableRecovery
