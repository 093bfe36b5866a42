import Z80.Decode.Fetch

/-!
The table behind the byte CB: shifts, and the test, reset and set of single bits.
-/

namespace Z80.Bit

/-- Field 6 shifts a one in on the Z80 and exchanges nibbles on the Game Boy. -/
def shift (mode : Mode) : Fin 8 → Shift
  | 0 => .rlc
  | 1 => .rrc
  | 2 => .rl
  | 3 => .rr
  | 4 => .sla
  | 5 => .sra
  | 6 => match mode with
    | .z80 => .sll
    | .gameBoy => .swap
  | 7 => .srl

def operation (mode : Mode) (opcode : Opcode) (operand : Operand) (copy : Option ByteReg) :
    Operation :=
  match opcode.x with
  | 0 => .shift (shift mode opcode.y) operand copy
  | 1 => .testBit opcode.y operand
  | 2 => .assignBit opcode.y false operand copy
  | 3 => .assignBit opcode.y true operand copy

/-- Costs include the byte CB. -/
def cost (mode : Mode) (opcode : Opcode) : Cost :=
  match mode with
  | .z80 => if opcode.z.val ≠ 6 then ⟨2, 8⟩ else if opcode.x.val = 1 then ⟨3, 12⟩ else ⟨4, 15⟩
  | .gameBoy => .ofMachine (if opcode.z.val ≠ 6 then 2 else if opcode.x.val = 1 then 3 else 4)

def decode (mode : Mode) : Fetch Instruction := do
  let opcode := Opcode.ofByte (← .nextByte)
  pure (.operation (operation mode opcode (plainOperand opcode.z) none) (cost mode opcode))

/-- In the indexed forms the displacement comes before the opcode, and every field
but 6 names a register that also receives the result. -/
def decodeIndexed (pointer : WordReg) : Fetch Instruction := do
  let operand := Operand.indexed pointer (← .nextByte)
  let opcode := Opcode.ofByte (← .nextByte)
  pure (.operation (operation .z80 opcode operand (ByteReg.ofField opcode.z))
    (if opcode.x.val = 1 then ⟨4, 16⟩ else ⟨5, 19⟩))

end Z80.Bit
