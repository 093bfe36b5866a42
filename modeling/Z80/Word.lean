/-!
Bytes and 16-bit words. A word travels through memory low byte first, and
every address calculation wraps at 65536 because the word type does.
-/

namespace Z80

abbrev Byte := UInt8

abbrev Word := UInt16

namespace Word

def ofBytes (low high : Byte) : Word :=
  high.toUInt16 <<< 8 ||| low.toUInt16

def low (w : Word) : Byte :=
  w.toUInt8

def high (w : Word) : Byte :=
  (w >>> 8).toUInt8

def withLow (w : Word) (b : Byte) : Word :=
  ofBytes b (high w)

def withHigh (w : Word) (b : Byte) : Word :=
  ofBytes (low w) b

end Word

/-- A displacement counts from -128 to 127; adding its extension to an address
moves forward or backward modulo 65536. -/
def signExtend (d : Byte) : Word :=
  if d < 0x80 then d.toUInt16 else d.toUInt16 ||| 0xFF00

/-- The top bit, read as the sign of a byte in two's complement. -/
def isNegative (b : Byte) : Bool :=
  0x80 ≤ b

def isNegativeWord (w : Word) : Bool :=
  0x8000 ≤ w

end Z80
