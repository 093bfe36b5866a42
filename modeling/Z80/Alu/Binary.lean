import Z80.Alu.Arithmetic
import Z80.Alu.Logic

/-!
The eight operations between the accumulator and a byte, in the order of their
opcode field.
-/

namespace Z80

inductive Binary where
  | add | adc | sub | sbc | and | xor | or | cp
  deriving DecidableEq

namespace Binary

def ofField : Fin 8 → Binary
  | 0 => add
  | 1 => adc
  | 2 => sub
  | 3 => sbc
  | 4 => and
  | 5 => xor
  | 6 => or
  | 7 => cp

/-- The new accumulator and flags; a comparison keeps the accumulator. -/
def apply : Binary → Flags → Byte → Byte → Byte × Flags
  | add, f, a, b => Alu.add f a b
  | adc, f, a, b => Alu.addWithCarry f a b
  | sub, f, a, b => Alu.subtract f a b
  | sbc, f, a, b => Alu.subtractWithCarry f a b
  | and, f, a, b => Alu.and f a b
  | xor, f, a, b => Alu.xor f a b
  | or, f, a, b => Alu.or f a b
  | cp, f, a, b => (a, Alu.compare f a b)

end Binary
end Z80
