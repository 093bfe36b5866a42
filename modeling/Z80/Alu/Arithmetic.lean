import Z80.Flags

/-!
Addition and subtraction on bytes and words. The result wraps; the flags are
read off the exact sum or difference, so the carry is a comparison in the
natural numbers and overflow a comparison of signs. Flags that an instruction
leaves alone keep their value.
-/

namespace Z80.Alu

def addBytes (f : Flags) (a b : Byte) (carry : Bool) : Byte × Flags :=
  let sum := a.toNat + b.toNat + carry.toNat
  let result := UInt8.ofNat sum
  (result,
    { f.withResult result with
      halfCarry := a.toNat % 16 + b.toNat % 16 + carry.toNat > 15
      parityOverflow := isNegative a == isNegative b && isNegative a != isNegative result
      subtract := false
      carry := sum > 255 })

def subtractBytes (f : Flags) (a b : Byte) (carry : Bool) : Byte × Flags :=
  let result := a - b - UInt8.ofNat carry.toNat
  (result,
    { f.withResult result with
      halfCarry := a.toNat % 16 < b.toNat % 16 + carry.toNat
      parityOverflow := isNegative a != isNegative b && isNegative a != isNegative result
      subtract := true
      carry := a.toNat < b.toNat + carry.toNat })

def add (f : Flags) (a b : Byte) : Byte × Flags :=
  addBytes f a b false

def addWithCarry (f : Flags) (a b : Byte) : Byte × Flags :=
  addBytes f a b f.carry

def subtract (f : Flags) (a b : Byte) : Byte × Flags :=
  subtractBytes f a b false

def subtractWithCarry (f : Flags) (a b : Byte) : Byte × Flags :=
  subtractBytes f a b f.carry

/-- A subtraction for its flags only; the undocumented ones come from the
operand, not from the discarded difference. -/
def compare (f : Flags) (a b : Byte) : Flags :=
  (subtract f a b).2.withUndocumented b

def negate (f : Flags) (a : Byte) : Byte × Flags :=
  subtract f 0 a

/-- The carry is not affected, so it can drive a loop around the increment. -/
def increment (f : Flags) (b : Byte) : Byte × Flags :=
  let result := b + 1
  (result,
    { f.withResult result with
      halfCarry := b.toNat % 16 == 15
      parityOverflow := b == 0x7F
      subtract := false })

def decrement (f : Flags) (b : Byte) : Byte × Flags :=
  let result := b - 1
  (result,
    { f.withResult result with
      halfCarry := b.toNat % 16 == 0
      parityOverflow := b == 0x80
      subtract := true })

/-- Sign, zero and parity are left alone, the undocumented flags come from the
high byte of the sum. -/
def addWords (f : Flags) (a b : Word) : Word × Flags :=
  let sum := a.toNat + b.toNat
  let result := UInt16.ofNat sum
  (result,
    { f.withUndocumented (Word.high result) with
      halfCarry := a.toNat % 4096 + b.toNat % 4096 > 4095
      subtract := false
      carry := sum > 65535 })

def withWordResult (f : Flags) (w : Word) : Flags :=
  { f.withUndocumented (Word.high w) with sign := isNegativeWord w, zero := w == 0 }

def addWordsWithCarry (f : Flags) (a b : Word) : Word × Flags :=
  let sum := a.toNat + b.toNat + f.carry.toNat
  let result := UInt16.ofNat sum
  (result,
    { withWordResult f result with
      halfCarry := a.toNat % 4096 + b.toNat % 4096 + f.carry.toNat > 4095
      parityOverflow :=
        isNegativeWord a == isNegativeWord b && isNegativeWord a != isNegativeWord result
      subtract := false
      carry := sum > 65535 })

def subtractWordsWithCarry (f : Flags) (a b : Word) : Word × Flags :=
  let result := a - b - UInt16.ofNat f.carry.toNat
  (result,
    { withWordResult f result with
      halfCarry := a.toNat % 4096 < b.toNat % 4096 + f.carry.toNat
      parityOverflow :=
        isNegativeWord a != isNegativeWord b && isNegativeWord a != isNegativeWord result
      subtract := true
      carry := a.toNat < b.toNat + f.carry.toNat })

/-- A signed offset added to the stack pointer: both carries come from the low
byte, taken as an unsigned addition. -/
def addOffset (f : Flags) (sp : Word) (offset : Byte) : Word × Flags :=
  (sp + signExtend offset,
    { f with
      zero := false
      subtract := false
      halfCarry := sp.toNat % 16 + offset.toNat % 16 > 15
      carry := sp.toNat % 256 + offset.toNat > 255 })

end Z80.Alu
