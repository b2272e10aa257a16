import Mathlib.Algebra.Ring.Nat
import Mathlib.Data.List.Basic
import Mathlib.Data.List.Induction

/-!
# Big-endian integers in byte strings

`Span` is a view of memory as `std::span` gives it: `size` says how many bytes
belong to the view, `byte` answers for any index.  A decoder reads a `Span`, so
that reading past the end is possible to express.  Encoders produce lists.

`getU16_of_slice`, `getU32_of_slice`, `getU64_of_slice`: reading an integer back
from where its encoding stands gives the integer.  `appendU16_getU16`,
`appendU32_getU32`, `appendU64_getU64`: writing the integer that was read gives the
bytes it was read from.
-/

namespace Wire

/-- Names and paths are compared as lists of bytes. -/
instance lawfulBEqBytes : LawfulBEq (List UInt8) := inferInstance

structure Span where
  size : Nat
  byte : Nat → UInt8

namespace Span

/-- The view of a whole byte string. -/
def of (l : List UInt8) : Span := ⟨l.length, fun i => l.getD i 0⟩

@[simp] theorem size_of (l : List UInt8) : (of l).size = l.length := rfl

/-- Copy `n` bytes from `off` on. -/
def slice (s : Span) (off n : Nat) : List UInt8 := (List.range n).map fun i => s.byte (off + i)

@[simp] theorem length_slice (s : Span) (off n : Nat) : (s.slice off n).length = n := by
  simp [slice]

theorem slice_of {l : List UInt8} {off n : Nat} (h : off + n ≤ l.length) :
    (of l).slice off n = (l.drop off).take n := by
  apply List.ext_getElem
  · simp; omega
  · intro i h1 h2
    have hi : i < n := by simpa using h1
    simp [slice, of, List.getD_eq_getElem?_getD, List.getElem?_eq_getElem (show off + i < l.length by omega)]

end Span

/-! ## Writing -/

def appendU16 (v : UInt16) : List UInt8 := [((v >>> 8) &&& 0xFF).toUInt8, (v &&& 0xFF).toUInt8]

def appendU32 (v : UInt32) : List UInt8 :=
  ([24, 16, 8, 0] : List UInt32).map fun shift => ((v >>> shift) &&& 0xFF).toUInt8

def appendU64 (v : UInt64) : List UInt8 :=
  ([56, 48, 40, 32, 24, 16, 8, 0] : List UInt64).map fun shift => ((v >>> shift) &&& 0xFF).toUInt8

@[simp] theorem length_appendU16 (v : UInt16) : (appendU16 v).length = 2 := by
  simp [appendU16]
@[simp] theorem length_appendU32 (v : UInt32) : (appendU32 v).length = 4 := by
  simp [appendU32]
@[simp] theorem length_appendU64 (v : UInt64) : (appendU64 v).length = 8 := by
  simp [appendU64]

/-! ## Reading -/

namespace Span

def getU8 (s : Span) (off : Nat) : UInt8 := s.byte off

def getU16 (s : Span) (off : Nat) : UInt16 :=
  ((s.getU8 off).toUInt16 <<< 8) ||| (s.getU8 (off + 1)).toUInt16

def getU32 (s : Span) (off : Nat) : UInt32 :=
  (List.range 4).foldl (fun v i => (v <<< 8) ||| (s.getU8 (off + i)).toUInt32) 0

def getU64 (s : Span) (off : Nat) : UInt64 :=
  (List.range 8).foldl (fun v i => (v <<< 8) ||| (s.getU8 (off + i)).toUInt64) 0

end Span

/-! ## Reading what was written -/

/-- Shifting in a byte multiplies by 256 and adds it. -/
theorem shift_or (v b : Nat) (hb : b < 256) : v <<< 8 ||| b = v * 256 + b := by
  rw [Nat.shiftLeft_eq, Nat.mul_comm]
  exact (Nat.two_pow_add_eq_or_of_lt (i := 8) hb v).symm

theorem toNat_shift_or16 (v : UInt16) (b : UInt8) (h : v.toNat < 2 ^ 8) :
    ((v <<< 8) ||| b.toUInt16).toNat = v.toNat * 256 + b.toNat := by
  have hb := b.toNat_lt
  rw [UInt16.toNat_or, UInt16.toNat_shiftLeft, UInt8.toNat_toUInt16]
  have : v.toNat <<< 8 < 2 ^ 16 := by rw [Nat.shiftLeft_eq]; omega
  rw [show (8 : UInt16).toNat % 16 = 8 from rfl, Nat.mod_eq_of_lt this, shift_or _ _ (by omega)]

theorem toNat_shift_or32 (v : UInt32) (b : UInt8) (h : v.toNat < 2 ^ 24) :
    ((v <<< 8) ||| b.toUInt32).toNat = v.toNat * 256 + b.toNat := by
  have hb := b.toNat_lt
  rw [UInt32.toNat_or, UInt32.toNat_shiftLeft, UInt8.toNat_toUInt32]
  have : v.toNat <<< 8 < 2 ^ 32 := by rw [Nat.shiftLeft_eq]; omega
  rw [show (8 : UInt32).toNat % 32 = 8 from rfl, Nat.mod_eq_of_lt this, shift_or _ _ (by omega)]

theorem toNat_shift_or64 (v : UInt64) (b : UInt8) (h : v.toNat < 2 ^ 56) :
    ((v <<< 8) ||| b.toUInt64).toNat = v.toNat * 256 + b.toNat := by
  have hb := b.toNat_lt
  rw [UInt64.toNat_or, UInt64.toNat_shiftLeft, UInt8.toNat_toUInt64]
  have : v.toNat <<< 8 < 2 ^ 64 := by rw [Nat.shiftLeft_eq]; omega
  rw [show (8 : UInt64).toNat % 64 = 8 from rfl, Nat.mod_eq_of_lt this, shift_or _ _ (by omega)]

theorem toNat_byte16 (v shift : UInt16) (h : shift.toNat < 16) :
    ((v >>> shift) &&& 0xFF).toUInt8.toNat = v.toNat / 2 ^ shift.toNat % 256 := by
  have : ((v >>> shift) &&& 0xFF).toNat = v.toNat / 2 ^ shift.toNat % 256 := by
    rw [UInt16.toNat_and, UInt16.toNat_shiftRight, Nat.mod_eq_of_lt h, Nat.shiftRight_eq_div_pow]
    exact Nat.and_two_pow_sub_one_eq_mod _ 8
  rw [UInt16.toNat_toUInt8, this, Nat.mod_mod]

theorem toNat_byte32 (v shift : UInt32) (h : shift.toNat < 32) :
    ((v >>> shift) &&& 0xFF).toUInt8.toNat = v.toNat / 2 ^ shift.toNat % 256 := by
  have : ((v >>> shift) &&& 0xFF).toNat = v.toNat / 2 ^ shift.toNat % 256 := by
    rw [UInt32.toNat_and, UInt32.toNat_shiftRight, Nat.mod_eq_of_lt h, Nat.shiftRight_eq_div_pow]
    exact Nat.and_two_pow_sub_one_eq_mod _ 8
  rw [UInt32.toNat_toUInt8, this, Nat.mod_mod]

theorem toNat_byte64 (v shift : UInt64) (h : shift.toNat < 64) :
    ((v >>> shift) &&& 0xFF).toUInt8.toNat = v.toNat / 2 ^ shift.toNat % 256 := by
  have : ((v >>> shift) &&& 0xFF).toNat = v.toNat / 2 ^ shift.toNat % 256 := by
    rw [UInt64.toNat_and, UInt64.toNat_shiftRight, Nat.mod_eq_of_lt h, Nat.shiftRight_eq_div_pow]
    exact Nat.and_two_pow_sub_one_eq_mod _ 8
  rw [UInt64.toNat_toUInt8, this, Nat.mod_mod]

/-- The value of a byte string, first byte most significant. -/
def bigEndian (l : List UInt8) : Nat := l.foldl (fun v b => v * 256 + b.toNat) 0

theorem bigEndian_concat (l : List UInt8) (b : UInt8) :
    bigEndian (l ++ [b]) = bigEndian l * 256 + b.toNat := by
  simp [bigEndian]

theorem bigEndian_lt (l : List UInt8) : bigEndian l < 256 ^ l.length := by
  induction l using List.reverseRecOn with
  | nil => simp [bigEndian]
  | append_singleton l b ih =>
    have hb := b.toNat_lt
    rw [bigEndian_concat, List.length_append, List.length_singleton, Nat.pow_succ]
    omega

theorem toNat_getU16 (s : Span) (off : Nat) : (s.getU16 off).toNat = bigEndian (s.slice off 2) := by
  have hb := (s.getU8 off).toNat_lt
  rw [Span.getU16, toNat_shift_or16 _ _ (by simpa using hb), UInt8.toNat_toUInt16]
  simp [bigEndian, Span.slice, List.range_succ, Span.getU8]

theorem toNat_getU32 (s : Span) (off : Nat) : (s.getU32 off).toNat = bigEndian (s.slice off 4) := by
  have key : ∀ n ≤ 4, ((List.range n).foldl
      (fun (v : UInt32) i => (v <<< 8) ||| (s.getU8 (off + i)).toUInt32) 0).toNat =
      bigEndian (s.slice off n) := by
    intro n hn
    induction n with
    | zero => rfl
    | succ n ih =>
      have hlt := bigEndian_lt (s.slice off n)
      have hpow : 256 ^ n ≤ 2 ^ 24 := by
        rw [show (2 : Nat) ^ 24 = 256 ^ 3 from rfl]
        exact Nat.pow_le_pow_right (by omega) (by omega)
      rw [Span.length_slice] at hlt
      rw [List.range_succ, List.foldl_append, List.foldl_cons, List.foldl_nil,
        toNat_shift_or32 _ _ (by rw [ih (by omega)]; omega), ih (by omega)]
      simp [Span.slice, List.range_succ, bigEndian, Span.getU8]
  exact key 4 (Nat.le_refl _)

theorem toNat_getU64 (s : Span) (off : Nat) : (s.getU64 off).toNat = bigEndian (s.slice off 8) := by
  have key : ∀ n ≤ 8, ((List.range n).foldl
      (fun (v : UInt64) i => (v <<< 8) ||| (s.getU8 (off + i)).toUInt64) 0).toNat =
      bigEndian (s.slice off n) := by
    intro n hn
    induction n with
    | zero => rfl
    | succ n ih =>
      have hlt := bigEndian_lt (s.slice off n)
      have hpow : 256 ^ n ≤ 2 ^ 56 := by
        rw [show (2 : Nat) ^ 56 = 256 ^ 7 from rfl]
        exact Nat.pow_le_pow_right (by omega) (by omega)
      rw [Span.length_slice] at hlt
      rw [List.range_succ, List.foldl_append, List.foldl_cons, List.foldl_nil,
        toNat_shift_or64 _ _ (by rw [ih (by omega)]; omega), ih (by omega)]
      simp [Span.slice, List.range_succ, bigEndian, Span.getU8]
  exact key 8 (Nat.le_refl _)

/-- Dropping a byte and shifting it in again. -/
theorem shift_in (v k : Nat) : v / 2 ^ (k + 8) * 256 + v / 2 ^ k % 256 = v / 2 ^ k := by
  rw [Nat.pow_add, ← Nat.div_div_eq_div_mul]
  exact Nat.div_add_mod' _ 256

theorem bigEndian_appendU16 (v : UInt16) : bigEndian (appendU16 v) = v.toNat := by
  have hv := v.toNat_lt
  have h0 := toNat_byte16 v 8 (by decide)
  have h1 := toNat_byte16 v 0 (by decide)
  simp only [UInt16.shiftRight_zero, show (8 : UInt16).toNat = 8 from rfl, show (0 : UInt16).toNat = 0 from rfl,
    Nat.pow_zero, Nat.div_one] at h0 h1
  simp only [bigEndian, appendU16, List.foldl_cons, List.foldl_nil, h0, h1]
  omega

theorem bigEndian_appendU32 (v : UInt32) : bigEndian (appendU32 v) = v.toNat := by
  have hv := v.toNat_lt
  simp only [bigEndian, appendU32, List.map_cons, List.map_nil, List.foldl_cons, List.foldl_nil]
  rw [toNat_byte32 v 24 (by decide), toNat_byte32 v 16 (by decide), toNat_byte32 v 8 (by decide),
    toNat_byte32 v 0 (by decide)]
  simp only [show (24 : UInt32).toNat = 24 from rfl, show (16 : UInt32).toNat = 16 from rfl,
    show (8 : UInt32).toNat = 8 from rfl, show (0 : UInt32).toNat = 0 from rfl]
  have htop : 0 * 256 + v.toNat / 2 ^ 24 % 256 = v.toNat / 2 ^ 24 := by omega
  rw [htop, shift_in _ 16, shift_in _ 8, shift_in _ 0, Nat.pow_zero, Nat.div_one]

theorem bigEndian_appendU64 (v : UInt64) : bigEndian (appendU64 v) = v.toNat := by
  have hv := v.toNat_lt
  simp only [bigEndian, appendU64, List.map_cons, List.map_nil, List.foldl_cons, List.foldl_nil]
  rw [toNat_byte64 v 56 (by decide), toNat_byte64 v 48 (by decide), toNat_byte64 v 40 (by decide),
    toNat_byte64 v 32 (by decide), toNat_byte64 v 24 (by decide), toNat_byte64 v 16 (by decide),
    toNat_byte64 v 8 (by decide), toNat_byte64 v 0 (by decide)]
  simp only [show (56 : UInt64).toNat = 56 from rfl, show (48 : UInt64).toNat = 48 from rfl,
    show (40 : UInt64).toNat = 40 from rfl, show (32 : UInt64).toNat = 32 from rfl,
    show (24 : UInt64).toNat = 24 from rfl, show (16 : UInt64).toNat = 16 from rfl,
    show (8 : UInt64).toNat = 8 from rfl, show (0 : UInt64).toNat = 0 from rfl]
  have htop : 0 * 256 + v.toNat / 2 ^ 56 % 256 = v.toNat / 2 ^ 56 := by omega
  rw [htop, shift_in _ 48, shift_in _ 40, shift_in _ 32, shift_in _ 24, shift_in _ 16, shift_in _ 8, shift_in _ 0,
    Nat.pow_zero, Nat.div_one]

theorem getU16_of_slice {s : Span} {off : Nat} {v : UInt16} (h : s.slice off 2 = appendU16 v) :
    s.getU16 off = v := by
  rw [← UInt16.toNat_inj, toNat_getU16, h, bigEndian_appendU16]

theorem getU32_of_slice {s : Span} {off : Nat} {v : UInt32} (h : s.slice off 4 = appendU32 v) :
    s.getU32 off = v := by
  rw [← UInt32.toNat_inj, toNat_getU32, h, bigEndian_appendU32]

theorem getU64_of_slice {s : Span} {off : Nat} {v : UInt64} (h : s.slice off 8 = appendU64 v) :
    s.getU64 off = v := by
  rw [← UInt64.toNat_inj, toNat_getU64, h, bigEndian_appendU64]

/-! ## Writing what was read -/

theorem bigEndian_inj {a b : List UInt8} (hl : a.length = b.length) (h : bigEndian a = bigEndian b) :
    a = b := by
  induction a using List.reverseRecOn generalizing b with
  | nil => exact (List.eq_nil_of_length_eq_zero hl.symm).symm
  | append_singleton a x ih =>
    rcases List.eq_nil_or_concat' b with rfl | ⟨b, y, rfl⟩
    · simp at hl
    · have hx := x.toNat_lt
      have hy := y.toNat_lt
      rw [bigEndian_concat, bigEndian_concat] at h
      have hxy : x = y := UInt8.toNat_inj.mp (by omega)
      rw [ih (by simpa using hl) (by omega), hxy]

theorem appendU16_getU16 (s : Span) (off : Nat) : appendU16 (s.getU16 off) = s.slice off 2 :=
  bigEndian_inj (by simp) (by rw [bigEndian_appendU16, toNat_getU16])

theorem appendU32_getU32 (s : Span) (off : Nat) : appendU32 (s.getU32 off) = s.slice off 4 :=
  bigEndian_inj (by simp) (by rw [bigEndian_appendU32, toNat_getU32])

theorem appendU64_getU64 (s : Span) (off : Nat) : appendU64 (s.getU64 off) = s.slice off 8 :=
  bigEndian_inj (by simp) (by rw [bigEndian_appendU64, toNat_getU64])

/-- Two slices, one behind the other. -/
theorem slice_append_slice (s : Span) (off m n : Nat) :
    s.slice off m ++ s.slice (off + m) n = s.slice off (m + n) := by
  simp [Span.slice, List.range_add, Nat.add_assoc, Function.comp_def]

/-! ## Reading a concatenation -/

section
variable (a b : List UInt8) {off n : Nat}

theorem byte_append_right (h : a.length ≤ off) :
    (Span.of (a ++ b)).byte off = (Span.of b).byte (off - a.length) := by
  simp [Span.of, List.getElem?_append_right h]

theorem slice_append_right (h : a.length ≤ off) :
    (Span.of (a ++ b)).slice off n = (Span.of b).slice (off - a.length) n := by
  refine List.map_congr_left fun i _ => ?_
  rw [byte_append_right a b (by omega), show off + i - a.length = off - a.length + i by omega]

theorem slice_append_left (h : n = a.length) : (Span.of (a ++ b)).slice 0 n = a := by
  subst h
  rw [Span.slice_of (by simp), List.drop_zero, List.take_left]

theorem slice_self (h : n = a.length) : (Span.of a).slice 0 n = a := by
  subst h
  rw [Span.slice_of (by simp), List.drop_zero, List.take_length]

theorem getU8_append_right (h : a.length ≤ off) :
    (Span.of (a ++ b)).getU8 off = (Span.of b).getU8 (off - a.length) := byte_append_right a b h

theorem getU16_append_right (h : a.length ≤ off) :
    (Span.of (a ++ b)).getU16 off = (Span.of b).getU16 (off - a.length) := by
  rw [← UInt16.toNat_inj, toNat_getU16, toNat_getU16, slice_append_right a b h]

theorem getU32_append_right (h : a.length ≤ off) :
    (Span.of (a ++ b)).getU32 off = (Span.of b).getU32 (off - a.length) := by
  rw [← UInt32.toNat_inj, toNat_getU32, toNat_getU32, slice_append_right a b h]

theorem getU64_append_right (h : a.length ≤ off) :
    (Span.of (a ++ b)).getU64 off = (Span.of b).getU64 (off - a.length) := by
  rw [← UInt64.toNat_inj, toNat_getU64, toNat_getU64, slice_append_right a b h]

@[simp] theorem getU8_singleton (v : UInt8) : (Span.of ([v] ++ b)).getU8 0 = v := rfl

@[simp] theorem getU16_appendU16 (v : UInt16) : (Span.of (appendU16 v ++ b)).getU16 0 = v :=
  getU16_of_slice (slice_append_left _ b rfl)

@[simp] theorem getU32_appendU32 (v : UInt32) : (Span.of (appendU32 v ++ b)).getU32 0 = v :=
  getU32_of_slice (slice_append_left _ b rfl)

@[simp] theorem getU64_appendU64 (v : UInt64) : (Span.of (appendU64 v ++ b)).getU64 0 = v :=
  getU64_of_slice (slice_append_left _ b rfl)

@[simp] theorem getU32_appendU32_self (v : UInt32) : (Span.of (appendU32 v)).getU32 0 = v :=
  getU32_of_slice (slice_self _ rfl)

@[simp] theorem getU64_appendU64_self (v : UInt64) : (Span.of (appendU64 v)).getU64 0 = v :=
  getU64_of_slice (slice_self _ rfl)

end

end Wire
