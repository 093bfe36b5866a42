import Z80.Flags

/-!
Rotates and shifts of a byte, and the rotates of three decimal digits through
the accumulator.
-/

namespace Z80

inductive Shift where
  | rlc | rrc | rl | rr | sla | sra
  /-- Shifts a one in; undocumented. -/
  | sll
  | srl
  /-- Exchanges the nibbles; Game Boy only. -/
  | swap
  deriving DecidableEq

namespace Shift

/-- The shifted byte and the bit that falls out. -/
def outcome (carry : Bool) (b : Byte) : Shift → Byte × Bool
  | rlc => (b <<< 1 ||| b >>> 7, b &&& 0x80 != 0)
  | rrc => (b >>> 1 ||| b <<< 7, b &&& 0x01 != 0)
  | rl => (b <<< 1 ||| (if carry then 0x01 else 0), b &&& 0x80 != 0)
  | rr => (b >>> 1 ||| (if carry then 0x80 else 0), b &&& 0x01 != 0)
  | sla => (b <<< 1, b &&& 0x80 != 0)
  | sra => (b >>> 1 ||| b &&& 0x80, b &&& 0x01 != 0)
  | sll => (b <<< 1 ||| 0x01, b &&& 0x80 != 0)
  | srl => (b >>> 1, b &&& 0x01 != 0)
  | swap => (b <<< 4 ||| b >>> 4, false)

def apply (s : Shift) (f : Flags) (b : Byte) : Byte × Flags :=
  let (result, carry) := s.outcome f.carry b
  (result, { f.withParity result with halfCarry := false, subtract := false, carry := carry })

/-- The one-byte rotates of A leave sign, zero and parity as they were. -/
def applyAccumulator (s : Shift) (f : Flags) (a : Byte) : Byte × Flags :=
  let (result, g) := s.apply f a
  (result, { g with sign := f.sign, zero := f.zero, parityOverflow := f.parityOverflow })

end Shift

namespace Alu

def digitFlags (f : Flags) (a : Byte) : Flags :=
  { f.withParity a with halfCarry := false, subtract := false }

def rotateDigitLeft (f : Flags) (a memory : Byte) : Byte × Byte × Flags :=
  let a' := (a &&& (0xF0 : Byte)) ||| (memory >>> 4)
  (a', (memory <<< 4) ||| (a &&& (0x0F : Byte)), digitFlags f a')

def rotateDigitRight (f : Flags) (a memory : Byte) : Byte × Byte × Flags :=
  let a' := (a &&& (0xF0 : Byte)) ||| (memory &&& 0x0F)
  (a', (a <<< 4) ||| (memory >>> 4), digitFlags f a')

end Alu
end Z80
