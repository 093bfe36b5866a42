import Z80.Decode.Fetch

/-!
The table behind the byte ED: 16-bit arithmetic with carry, the interrupt
registers, ports by register and the block instructions. An index register
selected before ED has no effect.
-/

namespace Z80.Extended

def interruptMode : Fin 8 → InterruptMode
  | 0 | 1 | 4 | 5 => .im0
  | 2 | 6 => .im1
  | 3 | 7 => .im2

def blockInstruction : Fin 4 → BlockInstruction
  | 0 => .load
  | 1 => .compare
  | 2 => .input
  | 3 => .output

/-- The opcodes 40 to 7F. -/
def general (byte : Byte) (y z : Fin 8) : Fetch Instruction :=
  let pair := Index.hl.pairOf (pairField y)
  match z with
  | 0 => pure (.operation (.input (ByteReg.ofField y)) ⟨3, 12⟩)
  | 1 => pure (.operation (.output (ByteReg.ofField y)) ⟨3, 12⟩)
  | 2 =>
    if y.val % 2 = 0 then pure (.operation (.subtractWordWithCarry pair) ⟨4, 15⟩)
    else pure (.operation (.addWordWithCarry pair) ⟨4, 15⟩)
  | 3 => do
    let address ← .nextWord
    if y.val % 2 = 0 then pure (.operation (.storeWord address pair) ⟨6, 20⟩)
    else pure (.operation (.fetchWord pair address) ⟨6, 20⟩)
  | 4 => pure (.operation .negate ⟨2, 8⟩)
  | 5 => pure (.exit .returnFromInterrupt ⟨4, 14⟩ false)
  | 6 => pure (.operation (.interruptMode (interruptMode y)) ⟨2, 8⟩)
  | 7 =>
    match y with
    | 0 => pure (.operation .loadIFromA ⟨2, 9⟩)
    | 1 => pure (.operation .loadRFromA ⟨2, 9⟩)
    | 2 => pure (.operation .loadAFromI ⟨2, 9⟩)
    | 3 => pure (.operation .loadAFromR ⟨2, 9⟩)
    | 4 => pure (.operation .rotateDigitRight ⟨5, 18⟩)
    | 5 => pure (.operation .rotateDigitLeft ⟨5, 18⟩)
    | 6 | 7 => .undefined .ed byte

/-- The opcodes 80 to BF. A repeating form ends its block, so that code which it
overwrites is decoded again. -/
def block (byte : Byte) (y z : Fin 8) : Fetch Instruction :=
  if h : z.val < 4 ∧ 4 ≤ y.val then
    let kind := blockInstruction ⟨z.val, h.1⟩
    let direction : Direction := if y.val % 2 = 0 then .up else .down
    if 6 ≤ y.val then pure (.exit (.repeatBlock kind direction) ⟨4, 16⟩ true)
    else pure (.operation (.block kind direction) ⟨4, 16⟩)
  else .undefined .ed byte

def decode : Fetch Instruction := do
  let byte ← .nextByte
  let opcode := Opcode.ofByte byte
  match opcode.x with
  | 1 => general byte opcode.y opcode.z
  | 2 => block byte opcode.y opcode.z
  | 0 | 3 => .undefined .ed byte

end Z80.Extended
