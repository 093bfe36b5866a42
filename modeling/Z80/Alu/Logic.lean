import Z80.Flags

/-!
Bitwise operations, the two operations on the carry flag alone, and the test of
a single bit.
-/

namespace Z80.Alu

/-- The half carry is forced high by AND and low by OR and XOR. -/
def logical (f : Flags) (result : Byte) (halfCarry : Bool) : Byte × Flags :=
  (result, { f.withParity result with halfCarry := halfCarry, subtract := false, carry := false })

def and (f : Flags) (a b : Byte) : Byte × Flags :=
  logical f (a &&& b) true

def or (f : Flags) (a b : Byte) : Byte × Flags :=
  logical f (a ||| b) false

def xor (f : Flags) (a b : Byte) : Byte × Flags :=
  logical f (a ^^^ b) false

def complement (f : Flags) (a : Byte) : Byte × Flags :=
  (~~~a, { f.withUndocumented (~~~a) with halfCarry := true, subtract := true })

def setCarry (f : Flags) (a : Byte) : Flags :=
  { f.withUndocumented a with halfCarry := false, subtract := false, carry := true }

/-- The previous carry moves into the half carry. -/
def invertCarry (f : Flags) (a : Byte) : Flags :=
  { f.withUndocumented a with halfCarry := f.carry, subtract := false, carry := !f.carry }

/-- Zero and parity both say that the bit is clear; only bit 7 can show a sign. -/
def testBit (f : Flags) (bit : Fin 8) (value : Byte) : Flags :=
  let set := value.toNat.testBit bit
  { f.withUndocumented value with
    zero := !set
    parityOverflow := !set
    sign := bit == 7 && set
    halfCarry := true
    subtract := false }

end Z80.Alu
