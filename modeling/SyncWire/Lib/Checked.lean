import SyncWire.Lib.Bytes

/-!
# Memory accesses that are checked

`Checked` computations stop with a `Fault` at the first byte read outside of a span, at the first
difference of sizes that would wrap around, and at the first position that leaves the span.  A
program that was written with unchecked accesses and returns `a` is free of all three when the same
program with checked ones returns `.ok a`.

`loadU8_eq`, `loadU16_eq`, `loadU32_eq`, `loadU64_eq`, `copy_eq`, `sub_eq`, `advance_eq`: with the
access in bounds the checked operation is the unchecked one.
-/

namespace Wire

inductive Fault
  /-- a byte was read at an index that is not below the size -/
  | outOfBounds
  /-- a larger size was subtracted from a smaller one -/
  | underflow
  /-- a position moved past the end -/
  | pastEnd
  /-- an array was filled with more or with fewer bytes than it holds -/
  | wrongSize
deriving DecidableEq

abbrev Checked : Type → Type := Except Fault

namespace Checked

section
variable {α β ι : Type}

@[simp] theorem ok_bind (a : α) (f : α → Checked β) : (Except.ok a >>= f) = f a := rfl

theorem foldlM_ok {f : β → ι → Checked β} {g : β → ι → β} {l : List ι}
    (h : ∀ v, ∀ i ∈ l, f v i = .ok (g v i)) (v : β) : l.foldlM f v = .ok (l.foldl g v) := by
  induction l generalizing v with
  | nil => rfl
  | cons i l ih =>
    rw [List.foldlM_cons, h v i List.mem_cons_self]
    exact ih (fun v j hj => h v j (List.mem_cons_of_mem _ hj)) (g v i)

theorem mapM_ok {f : ι → Checked α} {g : ι → α} {l : List ι} (h : ∀ i ∈ l, f i = .ok (g i)) :
    l.mapM f = .ok (l.map g) := by
  induction l with
  | nil => rfl
  | cons i l ih =>
    rw [List.mapM_cons, h i List.mem_cons_self, ih fun j hj => h j (List.mem_cons_of_mem _ hj)]
    rfl

end

/-- The difference of two sizes, which are not negative. -/
def sub (a b : Nat) : Checked Nat := if b ≤ a then .ok (a - b) else .error .underflow

theorem sub_eq {a b : Nat} (h : b ≤ a) : sub a b = .ok (a - b) := if_pos h

end Checked

namespace Span

def loadU8 (s : Span) (off : Nat) : Checked UInt8 :=
  if off < s.size then .ok (s.byte off) else .error .outOfBounds

def loadU16 (s : Span) (off : Nat) : Checked UInt16 := do
  let high ← s.loadU8 off
  let low ← s.loadU8 (off + 1)
  return (high.toUInt16 <<< 8) ||| low.toUInt16

def loadU32 (s : Span) (off : Nat) : Checked UInt32 :=
  (List.range 4).foldlM (fun v i => do return (v <<< 8) ||| (← s.loadU8 (off + i)).toUInt32) 0

def loadU64 (s : Span) (off : Nat) : Checked UInt64 :=
  (List.range 8).foldlM (fun v i => do return (v <<< 8) ||| (← s.loadU8 (off + i)).toUInt64) 0

/-- Copy `n` bytes from `off` on, one after the other. -/
def copy (s : Span) (off n : Nat) : Checked (List UInt8) := (List.range n).mapM fun i => s.loadU8 (off + i)

/-- Move a position `n` bytes on. -/
def advance (s : Span) (off n : Nat) : Checked Nat :=
  if off + n ≤ s.size then .ok (off + n) else .error .pastEnd

variable {s : Span} {off n : Nat}

theorem loadU8_eq (h : off < s.size) : s.loadU8 off = .ok (s.getU8 off) := if_pos h

theorem loadU16_eq (h : off + 2 ≤ s.size) : s.loadU16 off = .ok (s.getU16 off) := by
  unfold loadU16
  rw [loadU8_eq (by omega), loadU8_eq (by omega)]
  rfl

theorem loadU32_eq (h : off + 4 ≤ s.size) : s.loadU32 off = .ok (s.getU32 off) := by
  refine Checked.foldlM_ok (fun v i hi => ?_) 0
  rw [List.mem_range] at hi
  rw [loadU8_eq (by omega)]
  rfl

theorem loadU64_eq (h : off + 8 ≤ s.size) : s.loadU64 off = .ok (s.getU64 off) := by
  refine Checked.foldlM_ok (fun v i hi => ?_) 0
  rw [List.mem_range] at hi
  rw [loadU8_eq (by omega)]
  rfl

theorem copy_eq (h : off + n ≤ s.size) : s.copy off n = .ok (s.slice off n) := by
  refine Checked.mapM_ok fun i hi => ?_
  rw [List.mem_range] at hi
  exact loadU8_eq (by omega)

theorem advance_eq (h : off + n ≤ s.size) : s.advance off n = .ok (off + n) := if_pos h

end Span

end Wire
