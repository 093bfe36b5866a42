import Z80.Memory.Map

/-!
A cursor reads a block's bytes forward, from its start address on and past the
top of memory. Its count of bytes read goes on where its address wraps.
-/

namespace Z80

structure Cursor where
  memory : Memory
  start : Word
  consumed : Nat

namespace Cursor

/-- A block is cut short once it has taken this many bytes. -/
def limit : Nat := 0xFFFF

def begin (memory : Memory) (start : Word) : Cursor :=
  ⟨memory, start, 0⟩

def address (c : Cursor) : Word :=
  c.start + .ofNat c.consumed

def limitReached (c : Cursor) : Bool :=
  limit ≤ c.consumed

def skip (c : Cursor) (count : Nat) : Cursor :=
  { c with consumed := c.consumed + count }

def byte (c : Cursor) : Byte × Cursor :=
  (c.memory.readByte c.address, c.skip 1)

/-- The byte as a displacement counts it, from -128 to 127. -/
def signedByte (c : Cursor) : Int8 × Cursor :=
  let (b, c) := c.byte
  (b.toInt8, c)

def word (c : Cursor) : Word × Cursor :=
  (c.memory.readWord c.address, c.skip 2)

def bytes (c : Cursor) (count : Nat) : Array Byte × Cursor :=
  (c.memory.readBytes c.address count, c.skip count)

end Cursor
end Z80
