import Mathlib.Algebra.CharP.Two
import Mathlib.Algebra.Field.ZMod
import Mathlib.Algebra.Polynomial.Div
import Mathlib.Algebra.Polynomial.RingDivision
import Mathlib.Data.ZMod.Basic
import Mathlib.RingTheory.Coprime.Lemmas
import Mathlib.Tactic.LinearCombination

/-!
# Shift registers that divide

A register of `w` bits over GF(2) that is shifted down and, when a one falls out, has a
constant added to it, divides by a polynomial of degree `w`.  Bit 0 of the register is the
coefficient of the highest power (`reg`), and the constant holds the generator's lower
coefficients in the same order (`generator`).

* `generator_dvd_steps`: `n` steps multiply by `X ^ n`, up to multiples of the generator.
* `generator_dvd_block`: so does a block of bits added to the register before its steps.
* `ofBits_inj`, `reg_inj`: bit strings and registers are known from their polynomials.
-/

namespace ShiftRegister

open Polynomial

/-! ## Bit strings as polynomials -/

def bit (b : Bool) : ZMod 2 := if b then 1 else 0

theorem bit_xor (a b : Bool) : bit (a ^^ b) = bit a + bit b := by
  cases a <;> cases b <;> rfl

theorem bit_inj {a b : Bool} (h : bit a = bit b) : a = b := by
  revert h
  cases a <;> cases b <;> decide

/-- A string of bits, the first of them the leading coefficient. -/
noncomputable def ofBits : List Bool → (ZMod 2)[X]
  | [] => 0
  | b :: l => C (bit b) * X ^ l.length + ofBits l

theorem ofBits_append (l l' : List Bool) : ofBits (l ++ l') = ofBits l * X ^ l'.length + ofBits l' := by
  induction l with
  | nil => simp [ofBits]
  | cons b l ih =>
    rw [List.cons_append, ofBits, ih, ofBits, List.length_append, pow_add]
    ring

theorem ofBits_map_xor {ι : Type*} (l : List ι) (f g : ι → Bool) :
    ofBits (l.map fun i => f i ^^ g i) = ofBits (l.map f) + ofBits (l.map g) := by
  induction l with
  | nil => simp [ofBits]
  | cons i l ih =>
    simp only [List.map_cons, ofBits, List.length_map, ih, bit_xor, C_add]
    ring

theorem ofBits_replicate_false (n : Nat) : ofBits (List.replicate n false) = 0 := by
  induction n with
  | zero => rfl
  | succ n ih => simp [List.replicate_succ, ofBits, ih, bit]

/-- Complementing the first `n` bits adds `n` ones to them. -/
theorem ofBits_complement {l : List Bool} {n : Nat} (hn : n ≤ l.length) :
    ofBits ((l.take n).map not ++ l.drop n) = ofBits l + ofBits (List.replicate n true) * X ^ (l.length - n) := by
  have hnot : ofBits ((l.take n).map not) = ofBits (l.take n) + ofBits (List.replicate n true) := by
    have h := ofBits_map_xor (l.take n) id fun _ => true
    rw [List.map_id, List.map_const', List.length_take, Nat.min_eq_left hn] at h
    rw [← h]
    exact congrArg ofBits (List.map_congr_left fun b _ => (Bool.xor_true b).symm)
  have hsplit := ofBits_append (l.take n) (l.drop n)
  rw [List.take_append_drop, List.length_drop] at hsplit
  rw [ofBits_append, hnot, hsplit, List.length_drop]
  ring

theorem degree_ofBits_lt (l : List Bool) : (ofBits l).degree < (l.length : WithBot Nat) := by
  induction l with
  | nil => simp [ofBits]
  | cons b l ih =>
    rw [ofBits, List.length_cons]
    have hlead : (C (bit b) * X ^ l.length : (ZMod 2)[X]).degree < ((l.length + 1 : Nat) : WithBot Nat) :=
      (degree_C_mul_X_pow_le _ _).trans_lt (by exact_mod_cast Nat.lt_succ_self _)
    refine (degree_add_le _ _).trans_lt (max_lt hlead (ih.trans ?_))
    exact_mod_cast Nat.lt_succ_self _

theorem coeff_ofBits (l : List Bool) (i : Nat) (hi : i < l.length) :
    (ofBits l).coeff (l.length - 1 - i) = bit l[i] := by
  induction l generalizing i with
  | nil => simp at hi
  | cons b l ih =>
    rw [ofBits, coeff_add, coeff_C_mul, coeff_X_pow, List.length_cons]
    cases i with
    | zero =>
      have hz : (ofBits l).coeff l.length = 0 := coeff_eq_zero_of_degree_lt (degree_ofBits_lt l)
      simp [hz]
    | succ i =>
      have hi' : i < l.length := by simpa using hi
      have hne : l.length + 1 - 1 - (i + 1) ≠ l.length := by omega
      have hsub : l.length + 1 - 1 - (i + 1) = l.length - 1 - i := by omega
      rw [if_neg hne, hsub, ih i hi']
      simp

theorem ofBits_inj {l l' : List Bool} (hl : l.length = l'.length) (h : ofBits l = ofBits l') : l = l' := by
  refine List.ext_getElem hl fun i h1 h2 => bit_inj ?_
  rw [← coeff_ofBits l i h1, ← coeff_ofBits l' i h2, h, hl]

/-! ## The register -/

variable {w : Nat}

/-- The bits of a register from bit 0 up. -/
def bits (s : BitVec w) : List Bool := (List.range w).map s.getLsbD

@[simp] theorem length_bits (s : BitVec w) : (bits s).length = w := by simp [bits]

/-- The register with these bits. -/
def pack (f : Nat → Bool) : (w : Nat) → BitVec w
  | 0 => 0#0
  | w + 1 => BitVec.cons (f w) (pack f w)

theorem getLsbD_pack (f : Nat → Bool) {i : Nat} (hi : i < w) : (pack f w).getLsbD i = f i := by
  induction w with
  | zero => omega
  | succ w ih =>
    rw [pack, BitVec.getLsbD_cons]
    by_cases h : i = w
    · rw [if_pos h, h]
    · rw [if_neg h, ih (by omega)]

/-- The polynomial in the register. -/
noncomputable def reg (s : BitVec w) : (ZMod 2)[X] := ofBits (bits s)

theorem degree_reg_lt (s : BitVec w) : (reg s).degree < (w : WithBot Nat) := by
  have h := degree_ofBits_lt (bits s)
  rwa [length_bits] at h

theorem coeff_reg (s : BitVec w) {i : Nat} (hi : i < w) : (reg s).coeff (w - 1 - i) = bit (s.getLsbD i) := by
  have h := coeff_ofBits (bits s) i (by simpa using hi)
  simp only [length_bits] at h
  rw [reg, h]
  simp only [bits, List.getElem_map, List.getElem_range]

theorem reg_inj {s t : BitVec w} (h : reg s = reg t) : s = t := by
  have hb : bits s = bits t := ofBits_inj (by simp) h
  refine BitVec.eq_of_getLsbD_eq fun i hi => ?_
  exact List.map_inj_left.mp hb i (List.mem_range.mpr hi)

theorem reg_xor (s t : BitVec w) : reg (s ^^^ t) = reg s + reg t := by
  unfold reg bits
  rw [← ofBits_map_xor]
  exact congrArg ofBits (List.map_congr_left fun i _ => BitVec.getLsbD_xor)

theorem reg_zero : reg 0#w = 0 := by
  have h := reg_xor 0#w 0#w
  rw [BitVec.xor_self] at h
  exact left_eq_add.mp h

/-- Shifting down multiplies by `X`; the bit that falls out is the coefficient of `X ^ w`. -/
theorem X_mul_reg (s : BitVec (w + 1)) :
    X * reg s = C (bit (s.getLsbD 0)) * X ^ (w + 1) + reg (s >>> 1) := by
  have hs : bits s = s.getLsbD 0 :: (List.range w).map fun i => s.getLsbD (1 + i) := by
    rw [bits, List.range_succ_eq_map, List.map_cons, List.map_map]
    refine congrArg _ (List.map_congr_left fun i _ => ?_)
    rw [Function.comp_apply, Nat.add_comm 1 i]
  have hshift : bits (s >>> 1) = (List.range w).map (fun i => s.getLsbD (1 + i)) ++ [false] := by
    rw [bits, List.range_succ, List.map_append]
    simp
  have hfalse : ofBits [false] = 0 := ofBits_replicate_false 1
  rw [reg, reg, hs, hshift, ofBits_append, ofBits, hfalse, List.length_map, List.length_range,
    List.length_singleton]
  ring

/-! ## Division -/

/-- One step: shift down, and add the constant when a one falls out. -/
def step (g s : BitVec w) : BitVec w := (s >>> 1) ^^^ (if s.getLsbD 0 then g else 0)

/-- The polynomial that is divided by: `X ^ w` and the coefficients in the constant. -/
noncomputable def generator (g : BitVec w) : (ZMod 2)[X] := X ^ w + reg g

theorem generator_monic (g : BitVec w) : (generator g).Monic := monic_X_pow_add (degree_reg_lt g)

theorem degree_generator (g : BitVec w) : (generator g).degree = w := by
  rw [generator, degree_add_eq_left_of_degree_lt, degree_X_pow]
  rw [degree_X_pow]
  exact degree_reg_lt g

/-- A generator with a constant term is coprime to `X`. -/
theorem generator_coprime_X {g : BitVec (w + 1)} (hg : g.getLsbD w = true) : IsCoprime (generator g) X := by
  have hcoeff : (generator g).coeff 0 = 1 := by
    have h := coeff_reg g (Nat.lt_succ_self w)
    rw [generator, coeff_add, coeff_X_pow, if_neg (by omega)]
    simpa [hg, bit] using h
  refine ⟨1, - (generator g).divX, ?_⟩
  have h := divX_mul_X_add (generator g)
  rw [hcoeff, C_1] at h
  linear_combination -h

variable (g : BitVec (w + 1))

theorem X_mul_reg_step (s : BitVec (w + 1)) :
    X * reg s = reg (step g s) + C (bit (s.getLsbD 0)) * generator g := by
  rw [X_mul_reg, step, reg_xor, generator]
  cases s.getLsbD 0 with
  | false => simp [bit, reg_zero]
  | true =>
    have h2 : reg g + reg g = 0 := CharTwo.add_self_eq_zero _
    simp only [bit, if_true, C_1, one_mul]
    linear_combination - h2

/-- `n` steps multiply by `X ^ n`. -/
theorem generator_dvd_steps (n : Nat) (s : BitVec (w + 1)) :
    generator g ∣ X ^ n * reg s - reg ((step g)^[n] s) := by
  induction n generalizing s with
  | zero => simp
  | succ n ih =>
    have h := dvd_add (ih (step g s)) (Dvd.intro_left (X ^ n * C (bit (s.getLsbD 0))) rfl)
    rw [Function.iterate_succ_apply]
    refine h.trans (dvd_of_eq ?_)
    rw [pow_succ, mul_assoc (X ^ n) X, X_mul_reg_step g s]
    ring

/-- A register with ones only in its first `k` bits. -/
theorem reg_block {t : BitVec w} {k : Nat} (hk : k ≤ w) (ht : ∀ i, k ≤ i → t.getLsbD i = false) :
    reg t = ofBits ((List.range k).map t.getLsbD) * X ^ (w - k) := by
  obtain ⟨m, rfl⟩ := Nat.exists_eq_add_of_le hk
  have hrest : ((List.range m).map (k + ·)).map t.getLsbD = List.replicate m false := by
    rw [List.map_map, List.eq_replicate_iff]
    refine ⟨by simp, fun b hb => ?_⟩
    obtain ⟨i, -, rfl⟩ := List.mem_map.mp hb
    exact ht _ (Nat.le_add_right k i)
  rw [reg, bits, List.range_add, List.map_append, ofBits_append, hrest, ofBits_replicate_false]
  simp

/-- A block of `k` bits added to the register, and `k` steps: the block is the next `k` coefficients of
what is divided. -/
theorem generator_dvd_block (s : BitVec (w + 1)) {t : BitVec (w + 1)} {k : Nat} (hk : k ≤ w + 1)
    (ht : ∀ i, k ≤ i → t.getLsbD i = false) :
    generator g ∣ X ^ k * reg s + X ^ (w + 1) * ofBits ((List.range k).map t.getLsbD) -
      reg ((step g)^[k] (s ^^^ t)) := by
  refine (generator_dvd_steps g k (s ^^^ t)).trans (dvd_of_eq ?_)
  have hpow : (X : (ZMod 2)[X]) ^ (w + 1) = X ^ k * X ^ (w + 1 - k) := by
    rw [← pow_add, Nat.add_sub_cancel' hk]
  rw [reg_xor, reg_block hk ht, hpow]
  ring

/-- A register is the remainder of what it is congruent to. -/
theorem eq_modByMonic {p : (ZMod 2)[X]} {s : BitVec (w + 1)} (h : generator g ∣ p - reg s) :
    reg s = p %ₘ generator g := by
  rw [modByMonic_eq_of_dvd_sub (generator_monic g) h]
  refine (modByMonic_eq_self_iff (generator_monic g)).mpr ?_ |>.symm
  rw [degree_generator]
  exact degree_reg_lt s

/-- If the generator has a constant term, nothing short is lost by division. -/
theorem eq_of_generator_dvd {g : BitVec (w + 1)} (hg : g.getLsbD w = true) {p q : (ZMod 2)[X]} {n : Nat}
    (hp : p.degree < ((w + 1 : Nat) : WithBot Nat)) (hq : q.degree < ((w + 1 : Nat) : WithBot Nat))
    (h : generator g ∣ X ^ n * (p - q)) : p = q := by
  have hdvd : generator g ∣ p - q := (IsCoprime.pow_right (generator_coprime_X hg)).dvd_of_dvd_mul_left h
  have hdeg : (p - q).degree < (generator g).degree := by
    rw [degree_generator]
    exact (degree_sub_le p q).trans_lt (max_lt hp hq)
  have hself := (modByMonic_eq_self_iff (generator_monic g)).mpr hdeg
  rw [(modByMonic_eq_zero_iff_dvd (generator_monic g)).mpr hdvd] at hself
  exact sub_eq_zero.mp hself.symm

end ShiftRegister
