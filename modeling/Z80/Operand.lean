import Z80.Registers

/-!
What an instruction can name: a byte register, a word register, an 8-bit operand
in a register, in the instruction or in memory, and a branch condition.
-/

namespace Z80

inductive ByteReg where
  | a | b | c | d | e | h | l | ixh | ixl | iyh | iyl
  deriving DecidableEq

namespace ByteReg

/-- Field 6 stands for the memory operand and names no register. -/
def ofField : Fin 8 → Option ByteReg
  | 0 => some b
  | 1 => some c
  | 2 => some d
  | 3 => some e
  | 4 => some h
  | 5 => some l
  | 6 => none
  | 7 => some a

def read : ByteReg → Registers → Byte
  | a, r => r.a
  | b, r => r.bank.b
  | c, r => r.bank.c
  | d, r => r.bank.d
  | e, r => r.bank.e
  | h, r => r.bank.h
  | l, r => r.bank.l
  | ixh, r => Word.high r.ix
  | ixl, r => Word.low r.ix
  | iyh, r => Word.high r.iy
  | iyl, r => Word.low r.iy

def write : ByteReg → Registers → Byte → Registers
  | a, r, v => r.setA v
  | b, r, v => { r with bank.b := v }
  | c, r, v => { r with bank.c := v }
  | d, r, v => { r with bank.d := v }
  | e, r, v => { r with bank.e := v }
  | h, r, v => { r with bank.h := v }
  | l, r, v => { r with bank.l := v }
  | ixh, r, v => { r with ix := .withHigh r.ix v }
  | ixl, r, v => { r with ix := .withLow r.ix v }
  | iyh, r, v => { r with iy := .withHigh r.iy v }
  | iyl, r, v => { r with iy := .withLow r.iy v }

end ByteReg

inductive WordReg where
  | af | bc | de | hl | sp | ix | iy
  deriving DecidableEq

namespace WordReg

def read : WordReg → Registers → Word
  | af, r => r.af
  | bc, r => r.bc
  | de, r => r.de
  | hl, r => r.hl
  | sp, r => r.sp
  | ix, r => r.ix
  | iy, r => r.iy

def write : WordReg → Registers → Word → Registers
  | af, r, w => r.setAF w
  | bc, r, w => r.setBC w
  | de, r, w => r.setDE w
  | hl, r, w => r.setHL w
  | sp, r, w => { r with sp := w }
  | ix, r, w => { r with ix := w }
  | iy, r, w => { r with iy := w }

end WordReg

inductive Operand where
  | register (reg : ByteReg)
  | immediate (value : Byte)
  | indirect (pointer : WordReg)
  /-- The byte at an index register plus a signed displacement. -/
  | indexed (pointer : WordReg) (displacement : Byte)
  | absolute (address : Word)
  /-- A byte of the page 0xFF00. -/
  | highPage (offset : Byte)
  /-- The byte of the page 0xFF00 that C selects. -/
  | highPageC
  deriving DecidableEq

namespace Operand

def address? : Operand → Registers → Option Word
  | register _, _ | immediate _, _ => none
  | indirect pointer, r => some (pointer.read r)
  | indexed pointer displacement, r => some (pointer.read r + signExtend displacement)
  | absolute address, _ => some address
  | highPage offset, _ => some (.ofBytes offset 0xFF)
  | highPageC, r => some (.ofBytes r.bank.c 0xFF)

def isMemory : Operand → Bool
  | register _ | immediate _ => false
  | _ => true

end Operand

inductive Condition where
  | nonZero | zero | noCarry | carry | parityOdd | parityEven | positive | minus
  deriving DecidableEq

namespace Condition

def ofField : Fin 8 → Condition
  | 0 => nonZero
  | 1 => zero
  | 2 => noCarry
  | 3 => carry
  | 4 => parityOdd
  | 5 => parityEven
  | 6 => positive
  | 7 => minus

def holds : Condition → Flags → Bool
  | nonZero, f => !f.zero
  | zero, f => f.zero
  | noCarry, f => !f.carry
  | carry, f => f.carry
  | parityOdd, f => !f.parityOverflow
  | parityEven, f => f.parityOverflow
  | positive, f => !f.sign
  | minus, f => f.sign

end Condition
end Z80
