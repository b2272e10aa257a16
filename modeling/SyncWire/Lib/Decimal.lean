import Mathlib.Data.List.TakeWhile
import Mathlib.Data.Nat.Digits.Lemmas

/-!
# Decimal numbers as text

`fromChars` reads the digits at the start of a text into an unsigned type of a given width,
as `std::from_chars` does; `decimal` writes a number.

* `fromChars_decimal`: what was written is read back, and nothing is left over.
-/

namespace Decimal

def isDigit (b : UInt8) : Bool := decide (48 ≤ b.toNat) && decide (b.toNat ≤ 57)

/-- The value of a text of digits. -/
def value (digits : List UInt8) : Nat := digits.foldl (fun n d => 10 * n + (d.toNat - 48)) 0

/-- The number at the start and what follows it; nothing if there is no digit or the number is too large. -/
def fromChars (width : Nat) (text : List UInt8) : Option (Nat × List UInt8) :=
  if text.takeWhile isDigit = [] then none
  else if value (text.takeWhile isDigit) < 2 ^ width then
    some (value (text.takeWhile isDigit), text.dropWhile isDigit)
  else none

def digit (d : Nat) : UInt8 := UInt8.ofNat (48 + d)

/-- A number without leading zeros. -/
def decimal (n : Nat) : List UInt8 := if n = 0 then [digit 0] else (Nat.digits 10 n).reverse.map digit

theorem toNat_digit {d : Nat} (h : d < 10) : (digit d).toNat = 48 + d := by
  rw [digit, UInt8.toNat_ofNat']
  omega

theorem isDigit_digit {d : Nat} (h : d < 10) : isDigit (digit d) = true := by
  simp only [isDigit, toNat_digit h, Bool.and_eq_true, decide_eq_true_eq]
  omega

theorem value_concat (digits : List UInt8) (d : UInt8) :
    value (digits ++ [d]) = 10 * value digits + (d.toNat - 48) := by
  rw [value, List.foldl_append]
  rfl

theorem value_reverse_map (ds : List Nat) (h : ∀ d ∈ ds, d < 10) :
    value (ds.reverse.map digit) = Nat.ofDigits 10 ds := by
  induction ds with
  | nil => rfl
  | cons d ds ih =>
    have hd := h d List.mem_cons_self
    rw [List.reverse_cons, List.map_append, List.map_singleton, value_concat,
      ih fun e he => h e (List.mem_cons_of_mem _ he), toNat_digit hd, Nat.ofDigits_cons]
    omega

theorem isDigit_of_mem_decimal (n : Nat) : ∀ b ∈ decimal n, isDigit b = true := by
  intro b hb
  unfold decimal at hb
  split at hb
  · rw [List.mem_singleton.mp hb]
    rfl
  · obtain ⟨d, hd, rfl⟩ := List.mem_map.mp hb
    exact isDigit_digit (Nat.digits_lt_base (by decide) (List.mem_reverse.mp hd))

theorem decimal_ne_nil (n : Nat) : decimal n ≠ [] := by
  unfold decimal
  split
  · exact List.cons_ne_nil _ _
  · next hn => simpa [Nat.digits_eq_nil_iff_eq_zero] using hn

theorem value_decimal (n : Nat) : value (decimal n) = n := by
  unfold decimal
  split
  · next hn => rw [hn]; rfl
  · rw [value_reverse_map _ fun d hd => Nat.digits_lt_base (by decide) hd, Nat.ofDigits_digits]

theorem fromChars_decimal {width n : Nat} (h : n < 2 ^ width) : fromChars width (decimal n) = some (n, []) := by
  have htake : (decimal n).takeWhile isDigit = decimal n :=
    List.takeWhile_eq_self_iff.mpr (isDigit_of_mem_decimal n)
  have hdrop : (decimal n).dropWhile isDigit = [] := List.dropWhile_eq_nil_iff.mpr (isDigit_of_mem_decimal n)
  rw [fromChars, htake, hdrop, if_neg (decimal_ne_nil n), value_decimal, if_pos h]

end Decimal
