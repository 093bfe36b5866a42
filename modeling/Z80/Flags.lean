import Z80.Word

/-!
The condition flags. They are held by name; their order in a byte only matters
when the register F is read or written, and the two processors pack it
differently.
-/

namespace Z80

structure Flags where
  sign : Bool
  zero : Bool
  /-- Undocumented copy of bit 5 of a result. -/
  five : Bool
  halfCarry : Bool
  /-- Undocumented copy of bit 3 of a result. -/
  three : Bool
  /-- Parity after logic, signed overflow after arithmetic. -/
  parityOverflow : Bool
  subtract : Bool
  carry : Bool
  deriving DecidableEq

namespace Flags

def clear : Flags :=
  ⟨false, false, false, false, false, false, false, false⟩

instance : Inhabited Flags := ⟨clear⟩

/-- The flags from bit 7 down to bit 0 in the order S Z 5 H 3 P/V N C. -/
def bits (f : Flags) : Byte :=
  (if f.sign then 0x80 else 0) ||| (if f.zero then 0x40 else 0) |||
  (if f.five then 0x20 else 0) ||| (if f.halfCarry then 0x10 else 0) |||
  (if f.three then 0x08 else 0) ||| (if f.parityOverflow then 0x04 else 0) |||
  (if f.subtract then 0x02 else 0) ||| (if f.carry then 0x01 else 0)

def ofBits (b : Byte) : Flags where
  sign := b &&& 0x80 != 0
  zero := b &&& 0x40 != 0
  five := b &&& 0x20 != 0
  halfCarry := b &&& 0x10 != 0
  three := b &&& 0x08 != 0
  parityOverflow := b &&& 0x04 != 0
  subtract := b &&& 0x02 != 0
  carry := b &&& 0x01 != 0

end Flags

inductive FlagLayout where
  | z80
  /-- Z N H C in the high nibble; the low nibble always reads zero. -/
  | gameBoy
  deriving DecidableEq

namespace FlagLayout

def pack : FlagLayout → Flags → Byte
  | z80, f => f.bits
  | gameBoy, f =>
    (if f.zero then 0x80 else 0) ||| (if f.subtract then 0x40 else 0) |||
    (if f.halfCarry then 0x20 else 0) ||| (if f.carry then 0x10 else 0)

/-- Flags that have no place in the layout come out clear. -/
def unpack : FlagLayout → Byte → Flags
  | z80, b => .ofBits b
  | gameBoy, b =>
    { Flags.clear with
      zero := b &&& 0x80 != 0
      subtract := b &&& 0x40 != 0
      halfCarry := b &&& 0x20 != 0
      carry := b &&& 0x10 != 0 }

end FlagLayout

def evenParity (b : Byte) : Bool :=
  ((List.range 8).countP fun i => b.toNat.testBit i) % 2 == 0

namespace Flags

def withUndocumented (f : Flags) (b : Byte) : Flags :=
  { f with five := b &&& 0x20 != 0, three := b &&& 0x08 != 0 }

def withResult (f : Flags) (b : Byte) : Flags :=
  { f.withUndocumented b with sign := isNegative b, zero := b == 0 }

def withParity (f : Flags) (b : Byte) : Flags :=
  { f.withResult b with parityOverflow := evenParity b }

end Flags
end Z80
