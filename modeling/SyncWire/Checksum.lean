import SyncWire.Crc32
import SyncWire.Lib.ShiftRegister

/-!
# What `crc32` computes

The register of `Crc32` is a shift register that divides by the polynomial of
IEEE 802.3.  Hence:

* `crc32_is_standard`: however the message is cut into pieces, the value is the
  complement of the reflected remainder of the message.
* `crc32_detects_local`: two messages that differ in at most four consecutive bytes
  have different checksums, and what is appended to two messages neither makes nor
  removes a difference of their checksums.
-/

namespace SyncWire

open ShiftRegister Polynomial

/-! ## The standard -/

/-- The bits of a byte string, each byte from its least significant bit up. -/
def messageBits (m : List UInt8) : List Bool := m.flatMap fun b => bits b.toBitVec

def complementFirst (n : Nat) (l : List Bool) : List Bool := (l.take n).map not ++ l.drop n

noncomputable def crcPolynomial : (ZMod 2)[X] :=
  X ^ 32 + X ^ 26 + X ^ 23 + X ^ 22 + X ^ 16 + X ^ 12 + X ^ 11 + X ^ 10 + X ^ 8 + X ^ 7 + X ^ 5 + X ^ 4 + X ^ 2 +
    X + 1

/-- The message times `X ^ 32`, its first 32 bits complemented, divided by the polynomial. -/
noncomputable def crcRemainder (m : List UInt8) : (ZMod 2)[X] :=
  ofBits (complementFirst 32 (messageBits m ++ List.replicate 32 false)) %ₘ crcPolynomial

/-- The remainder's bits in reverse, the coefficient of `X ^ 31` in bit 0, and complemented. -/
noncomputable def standardCrc32 (m : List UInt8) : UInt32 :=
  UInt32.ofBitVec (~~~ pack (fun i => decide ((crcRemainder m).coeff (31 - i) = 1)) 32)

/-! ## The register -/

def crcConstant : BitVec 32 := 0xEDB88320#32

theorem generator_crcConstant : generator crcConstant = crcPolynomial := by
  have hbits : bits crcConstant =
      [false, false, false, false, false, true, false, false, true, true, false, false, false, false, false, true,
        false, false, false, true, true, true, false, true, true, false, true, true, false, true, true, true] := by
    decide
  rw [generator, reg, hbits, crcPolynomial]
  simp only [ofBits, bit, List.length_cons, List.length_nil]
  simp
  ring

namespace Crc32

theorem toBitVec_bit (s : UInt32) : (bit s).toBitVec = step crcConstant s.toBitVec := by
  have hmask : (0 - (s &&& 1)).toBitVec = if s.toBitVec.getLsbD 0 then BitVec.allOnes 32 else 0#32 := by
    have hand : s.toBitVec &&& 1#32 = BitVec.setWidth 32 (BitVec.ofBool (s.toBitVec.getLsbD 0)) :=
      BitVec.and_one_eq_setWidth_ofBool_getLsbD
    change 0#32 - (s.toBitVec &&& 1#32) = _
    rw [hand]
    cases s.toBitVec.getLsbD 0 <;> rfl
  change (s.toBitVec >>> 1) ^^^ (crcConstant &&& (0 - (s &&& 1)).toBitVec) = _
  rw [hmask, step]
  cases s.toBitVec.getLsbD 0
  · rfl
  · rw [if_pos rfl, if_pos rfl, BitVec.and_allOnes]

theorem toBitVec_byte (s : UInt32) (b : UInt8) :
    (byte s b).toBitVec = (step crcConstant)^[8] (s.toBitVec ^^^ b.toBitVec.setWidth 32) := by
  have hiter : ∀ x : UInt32, ((bit^[8]) x).toBitVec = (step crcConstant)^[8] x.toBitVec := fun x =>
    (Function.Semiconj.iterate_right (f := UInt32.toBitVec) toBitVec_bit 8) x
  exact hiter (s ^^^ b.toUInt32)

end Crc32

theorem bits_setWidth (b : UInt8) :
    (List.range 8).map (b.toBitVec.setWidth 32).getLsbD = bits b.toBitVec := by
  refine List.map_congr_left fun i hi => ?_
  have h := List.mem_range.mp hi
  rw [BitVec.getLsbD_setWidth]
  simp [show i < 32 by omega]

theorem length_messageBits (m : List UInt8) : (messageBits m).length = 8 * m.length := by
  induction m with
  | nil => rfl
  | cons b m ih =>
    rw [messageBits, List.flatMap_cons, List.length_append, length_bits, ← messageBits, ih, List.length_cons]
    ring

/-- **The register divides.**  The bytes that are fed in are the next coefficients. -/
theorem dvd_update (m : List UInt8) (c : Crc32) :
    generator crcConstant ∣ X ^ (8 * m.length) * reg c.state.toBitVec + X ^ 32 * ofBits (messageBits m) -
      reg (c.update m).state.toBitVec := by
  induction m generalizing c with
  | nil => simp [messageBits, ofBits]
  | cons b m ih =>
    have hblock := generator_dvd_block crcConstant c.state.toBitVec (t := b.toBitVec.setWidth 32)
      (k := 8) (by omega)
      fun i hi => by
        rw [BitVec.getLsbD_setWidth, BitVec.getLsbD_of_ge _ _ hi, Bool.and_false]
    rw [bits_setWidth, ← Crc32.toBitVec_byte] at hblock
    have hrest := ih ⟨Crc32.byte c.state b⟩
    refine (dvd_add (hblock.mul_left (X ^ (8 * m.length))) hrest).trans (dvd_of_eq ?_)
    have hbits : messageBits (b :: m) = bits b.toBitVec ++ messageBits m := List.flatMap_cons
    have hupdate : (c.update (b :: m)) = (⟨Crc32.byte c.state b⟩ : Crc32).update m := rfl
    rw [hbits, hupdate, ofBits_append, length_messageBits, List.length_cons, Nat.mul_succ, pow_add]
    ring

theorem register_eq_remainder (m : List UInt8) :
    reg (({} : Crc32).update m).state.toBitVec = crcRemainder m := by
  rw [crcRemainder, ← generator_crcConstant]
  refine eq_modByMonic crcConstant ((dvd_update m {}).trans (dvd_of_eq ?_))
  have hones : reg (({} : Crc32).state.toBitVec) = ofBits (List.replicate 32 true) := by
    rw [reg]
    exact congrArg ofBits (by decide)
  have hlen : (messageBits m ++ List.replicate 32 false).length = 8 * m.length + 32 := by
    rw [List.length_append, length_messageBits, List.length_replicate]
  rw [complementFirst, ofBits_complement (by rw [hlen]; omega), hlen, hones, ofBits_append,
    ofBits_replicate_false, List.length_replicate, Nat.add_sub_cancel]
  ring

theorem update_flatten (pieces : List (List UInt8)) (c : Crc32) :
    pieces.foldl Crc32.update c = c.update pieces.flatten := by
  induction pieces generalizing c with
  | nil => rfl
  | cons p pieces ih => rw [List.foldl_cons, ih, List.flatten_cons, Crc32.update_append]

/-- **The standard CRC-32.**  However the message is cut into the pieces that are fed in, the value is
the complement of the reflected remainder of the message. -/
theorem crc32_is_standard (pieces : List (List UInt8)) :
    (pieces.foldl Crc32.update {}).value = standardCrc32 pieces.flatten := by
  rw [update_flatten, standardCrc32, Crc32.value]
  refine UInt32.toBitVec_inj.mp ?_
  change (({} : Crc32).update pieces.flatten).state.toBitVec ^^^ BitVec.allOnes 32 = _
  rw [BitVec.xor_allOnes]
  refine congrArg _ (BitVec.eq_of_getLsbD_eq fun i hi => ?_)
  have hcoeff := coeff_reg (({} : Crc32).update pieces.flatten).state.toBitVec hi
  rw [register_eq_remainder] at hcoeff
  rw [getLsbD_pack _ hi, hcoeff]
  cases (({} : Crc32).update pieces.flatten).state.toBitVec.getLsbD i <;> simp [ShiftRegister.bit]

/-! ## Differences -/

/-- Feeding in the same bytes keeps two registers apart. -/
theorem update_injective (m : List UInt8) : Function.Injective fun c : Crc32 => c.update m := by
  intro c d h
  have hcd : (c.update m) = d.update m := h
  have hc := dvd_update m c
  rw [hcd] at hc
  have hdvd : generator crcConstant ∣ X ^ (8 * m.length) * (reg c.state.toBitVec - reg d.state.toBitVec) := by
    refine (dvd_sub hc (dvd_update m d)).trans (dvd_of_eq ?_)
    ring
  have hreg := eq_of_generator_dvd (by decide) (degree_reg_lt _) (degree_reg_lt _) hdvd
  have hstate : c.state = d.state := UInt32.toBitVec_inj.mp (reg_inj hreg)
  cases c
  cases d
  exact congrArg Crc32.mk hstate

theorem messageBits_inj {u v : List UInt8} (hl : u.length = v.length) (h : messageBits u = messageBits v) :
    u = v := by
  induction u generalizing v with
  | nil => exact (List.length_eq_zero_iff.mp hl.symm).symm
  | cons a u ih =>
    cases v with
    | nil => cases hl
    | cons b v =>
      simp only [messageBits, List.flatMap_cons] at h
      obtain ⟨hab, huv⟩ := List.append_inj h (by simp)
      have ha : a = b := UInt8.toBitVec_inj.mp (reg_inj (congrArg ofBits hab))
      rw [ha, ih (Nat.succ.inj hl) huv]

/-- Four bytes fit in the register: different ones leave it different. -/
theorem update_ne {u v : List UInt8} (c : Crc32) (hl : u.length = v.length) (h4 : u.length ≤ 4) (hne : u ≠ v) :
    c.update u ≠ c.update v := by
  intro h
  have hu := dvd_update u c
  rw [h, hl] at hu
  have hdvd : generator crcConstant ∣ X ^ 32 * (ofBits (messageBits u) - ofBits (messageBits v)) := by
    refine (dvd_sub hu (dvd_update v c)).trans (dvd_of_eq ?_)
    ring
  have hdegree : ∀ m : List UInt8, m.length ≤ 4 →
      (ofBits (messageBits m)).degree < ((31 + 1 : Nat) : WithBot Nat) := fun m hm => by
    refine (degree_ofBits_lt _).trans_le ?_
    rw [length_messageBits]
    exact_mod_cast (by omega : 8 * m.length ≤ 31 + 1)
  have hbits := eq_of_generator_dvd (by decide) (hdegree u h4) (hdegree v (hl ▸ h4)) hdvd
  exact hne (messageBits_inj hl (ofBits_inj (by rw [length_messageBits, length_messageBits, hl]) hbits))

theorem crc32_append_iff (p q c : List UInt8) : crc32 (p ++ c) = crc32 (q ++ c) ↔ crc32 p = crc32 q := by
  refine ⟨fun h => ?_, fun h => crc32_append_congr h c⟩
  have hreg := Crc32.value_injective h
  rw [Crc32.update_append, Crc32.update_append] at hreg
  exact congrArg Crc32.value (update_injective c hreg)

/-- **Local differences show.**  Messages that differ in a window of at most four bytes have different
checksums.  In general the register is known from what it became, so a common continuation of two
messages gives equal checksums if and only if the messages have. -/
theorem crc32_detects_local :
    (∀ a b u v : List UInt8, u.length = v.length → u.length ≤ 4 → u ≠ v →
      crc32 (a ++ u ++ b) ≠ crc32 (a ++ v ++ b)) ∧
    (∀ m : List UInt8, Function.Injective fun c : Crc32 => c.update m) ∧
    (∀ p q : List UInt8, crc32 p = crc32 q ↔ ∀ c, crc32 (p ++ c) = crc32 (q ++ c)) ∧
    ∀ p q c : List UInt8, crc32 (p ++ c) = crc32 (q ++ c) ↔ crc32 p = crc32 q := by
  refine ⟨fun a b u v hl h4 hne h => ?_, update_injective, fun p q =>
    ⟨fun h c => crc32_append_congr h c, fun h => ?_⟩,
    crc32_append_iff⟩
  · have hreg := Crc32.value_injective ((crc32_append_iff _ _ b).mp h)
    rw [Crc32.update_append, Crc32.update_append] at hreg
    exact update_ne _ hl h4 hne hreg
  · simpa using h []

theorem crc32_detects_local_sample : crc32 ([1] ++ [2, 3] ++ [4]) ≠ crc32 ([1] ++ [2, 5] ++ [4]) :=
  crc32_detects_local.1 [1] [4] [2, 3] [2, 5] rfl (by decide) (by decide)

end SyncWire
