import SyncWire.Lib.Bytes

/-!
# CRC-32 (`crc32.cpp`)

The running register, one byte at a time, bit by bit.  The values two registers
report are equal only if the registers are (`value_injective`), so what is fed in
afterwards keeps them in step; feeding in a concatenation is feeding in its parts
(`update_append`).
-/

namespace SyncWire

/-- The register `state_`. -/
structure Crc32 where
  state : UInt32 := 0xFFFFFFFF
deriving DecidableEq

namespace Crc32

def bit (state : UInt32) : UInt32 :=
  let mask := 0 - (state &&& 1)
  (state >>> 1) ^^^ (0xEDB88320 &&& mask)

def byte (state : UInt32) (b : UInt8) : UInt32 :=
  (List.range 8).foldl (fun s _ => bit s) (state ^^^ b.toUInt32)

def update (c : Crc32) (bytes : List UInt8) : Crc32 := ⟨bytes.foldl byte c.state⟩

def value (c : Crc32) : UInt32 := c.state ^^^ 0xFFFFFFFF

@[simp] theorem update_nil (c : Crc32) : c.update [] = c := rfl

theorem update_append (c : Crc32) (a b : List UInt8) : c.update (a ++ b) = (c.update a).update b := by
  simp [update]

theorem value_injective {c d : Crc32} (h : c.value = d.value) : c = d := by
  have hs : c.state = d.state := by
    have := congrArg (· ^^^ (0xFFFFFFFF : UInt32)) h
    simpa [value, UInt32.xor_assoc] using this
  cases c
  cases d
  exact congrArg Crc32.mk hs

end Crc32

def crc32 (bytes : List UInt8) : UInt32 := (({} : Crc32).update bytes).value

/-- Equal checksums of two strings mean equal registers, hence equal checksums of any extension. -/
theorem crc32_append_congr {a b : List UInt8} (h : crc32 a = crc32 b) (c : List UInt8) :
    crc32 (a ++ c) = crc32 (b ++ c) := by
  have hr : ({} : Crc32).update a = ({} : Crc32).update b := Crc32.value_injective h
  rw [crc32, crc32, Crc32.update_append, Crc32.update_append, hr]

end SyncWire
