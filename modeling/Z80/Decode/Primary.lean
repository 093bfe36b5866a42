import Z80.Decode.Bit
import Z80.Decode.Extended

/-!
The first byte of a Z80 instruction. Under an index register H, L and the byte at
HL are replaced; the memory operand then has a displacement, whose fetch and
addition cost two machine cycles.
-/

namespace Z80

/-- What a first byte leads to: an instruction, or the choice of the register that
stands for HL in the instruction after it. -/
inductive Entry where
  | instruction (instruction : Instruction)
  | index (register : Index)

namespace Primary

def operation (op : Operation) (cost : Cost) : Fetch Instruction :=
  .done (.operation op cost)

/-- The flag is set where the exit may cost more when it runs. -/
def exit (e : Exit) (cost : Cost) (varies : Bool := false) : Fetch Instruction :=
  .done (.exit e cost varies)

def memoryOperand (index : Index) : Fetch Operand :=
  match index with
  | .hl => pure (.indirect .hl)
  | .ix | .iy => return .indexed index.pair (← .nextByte)

def operand (index : Index) : Fin 8 → Fetch Operand
  | 4 => pure (.register index.high)
  | 5 => pure (.register index.low)
  | 6 => memoryOperand index
  | field => pure (plainOperand field)

def addressing : Operand → Cost
  | .indexed _ _ => ⟨2, 8⟩
  | _ => 0

def costOf (o : Operand) (memory register : Cost) : Cost :=
  if o.isMemory then addressing o + memory else register

def jumps (y : Fin 8) : Fetch Instruction := do
  match y with
  | 0 => operation .nop ⟨1, 4⟩
  | 1 => operation .exchangeAccumulators ⟨1, 4⟩
  | 2 => exit (.decrementAndJump (.relative (← .nextByte)) ⟨1, 5⟩) ⟨2, 8⟩ true
  | 3 => exit (.jump (.relative (← .nextByte))) ⟨3, 12⟩
  | 4 => exit (.jumpIf .nonZero (.relative (← .nextByte)) ⟨1, 5⟩) ⟨2, 7⟩ true
  | 5 => exit (.jumpIf .zero (.relative (← .nextByte)) ⟨1, 5⟩) ⟨2, 7⟩ true
  | 6 => exit (.jumpIf .noCarry (.relative (← .nextByte)) ⟨1, 5⟩) ⟨2, 7⟩ true
  | 7 => exit (.jumpIf .carry (.relative (← .nextByte)) ⟨1, 5⟩) ⟨2, 7⟩ true

def loads (index : Index) (y : Fin 8) : Fetch Instruction := do
  let a := Operand.register .a
  match y with
  | 0 => operation (.load (.indirect .bc) a) ⟨2, 7⟩
  | 1 => operation (.load a (.indirect .bc)) ⟨2, 7⟩
  | 2 => operation (.load (.indirect .de) a) ⟨2, 7⟩
  | 3 => operation (.load a (.indirect .de)) ⟨2, 7⟩
  | 4 => operation (.storeWord (← .nextWord) index.pair) ⟨5, 16⟩
  | 5 => operation (.fetchWord index.pair (← .nextWord)) ⟨5, 16⟩
  | 6 => operation (.load (.absolute (← .nextWord)) a) ⟨4, 13⟩
  | 7 => operation (.load a (.absolute (← .nextWord))) ⟨4, 13⟩

def accumulator : Fin 8 → Operation
  | 0 => .shiftAccumulator .rlc .z80
  | 1 => .shiftAccumulator .rrc .z80
  | 2 => .shiftAccumulator .rl .z80
  | 3 => .shiftAccumulator .rr .z80
  | 4 => .decimalAdjust .z80
  | 5 => .complement
  | 6 => .setCarry
  | 7 => .invertCarry .z80

/-- The opcodes 00 to 3F. -/
def general (index : Index) (y z : Fin 8) : Fetch Instruction := do
  let pair := index.pairOf (pairField y)
  let even := y.val % 2 = 0
  match z with
  | 0 => jumps y
  | 1 =>
    if even then operation (.loadWord pair (← .nextWord)) ⟨3, 10⟩
    else operation (.addWord index.pair pair) ⟨3, 11⟩
  | 2 => loads index y
  | 3 =>
    if even then operation (.incrementWord pair) ⟨1, 6⟩
    else operation (.decrementWord pair) ⟨1, 6⟩
  | 4 =>
    let o ← operand index y
    operation (.increment o) (costOf o ⟨3, 11⟩ ⟨1, 4⟩)
  | 5 =>
    let o ← operand index y
    operation (.decrement o) (costOf o ⟨3, 11⟩ ⟨1, 4⟩)
  | 6 =>
    let o ← operand index y
    let value ← .nextByte
    let memory : Cost := match o with
      | .indexed _ _ => ⟨2, 7⟩
      | _ => ⟨3, 10⟩
    operation (.load o (.immediate value)) (costOf o memory ⟨2, 7⟩)
  | 7 => operation (accumulator y) ⟨1, 4⟩

/-- The opcodes 40 to 7F. Beside a memory operand H and L keep their meaning under
an index register. -/
def copies (index : Index) (y z : Fin 8) : Fetch Instruction := do
  if y.val = 6 ∧ z.val = 6 then exit .halt ⟨1, 4⟩
  else if y.val = 6 then
    let o ← memoryOperand index
    operation (.load o (plainOperand z)) (costOf o ⟨2, 7⟩ ⟨1, 4⟩)
  else if z.val = 6 then
    let o ← memoryOperand index
    operation (.load (plainOperand y) o) (costOf o ⟨2, 7⟩ ⟨1, 4⟩)
  else operation (.load (← operand index y) (← operand index z)) ⟨1, 4⟩

/-- The opcodes 80 to BF. -/
def arithmetic (index : Index) (y z : Fin 8) : Fetch Instruction := do
  let o ← operand index z
  operation (.binary (.ofField y) o) (costOf o ⟨2, 7⟩ ⟨1, 4⟩)

def bit : Index → Fetch Instruction
  | .hl => Bit.decode .z80
  | .ix => Bit.decodeIndexed .ix
  | .iy => Bit.decodeIndexed .iy

def returns (index : Index) : Fin 4 → Fetch Instruction
  | 0 => exit .ret ⟨3, 10⟩
  | 1 => operation .exchangeBanks ⟨1, 4⟩
  | 2 => exit (.jumpToRegister index.pair) ⟨1, 4⟩
  | 3 => operation (.copyWord .sp index.pair) ⟨1, 6⟩

/-- EX DE,HL is not affected by an index register. -/
def exchanges (index : Index) (y : Fin 8) : Fetch Instruction := do
  match y with
  | 0 => exit (.jump (.absolute (← .nextWord))) ⟨3, 10⟩
  | 1 => bit index
  | 2 => operation (.outputImmediate (← .nextByte)) ⟨3, 11⟩
  | 3 => operation (.inputImmediate (← .nextByte)) ⟨3, 11⟩
  | 4 => operation (.exchangeStackTop index.pair) ⟨5, 19⟩
  | 5 => operation .exchangeDEHL ⟨1, 4⟩
  | 6 => operation (.enableInterrupts false) ⟨1, 4⟩
  | 7 => operation (.enableInterrupts true) ⟨1, 4⟩

/-- The opcodes C0 to FF that are neither an index byte nor in the column of CALL. -/
def control (index : Index) (y z : Fin 8) : Fetch Instruction := do
  let condition := Condition.ofField y
  match z with
  | 0 => exit (.retIf condition ⟨2, 6⟩) ⟨1, 5⟩ true
  | 1 =>
    if y.val % 2 = 0 then operation (.pop (index.stackPairOf (pairField y))) ⟨3, 10⟩
    else returns index (pairField y)
  | 2 => exit (.jumpIf condition (.absolute (← .nextWord)) 0) ⟨3, 10⟩
  | 3 => exchanges index y
  | 4 => exit (.callIf condition (← .nextWord) ⟨2, 7⟩) ⟨3, 10⟩ true
  | 5 => operation (.push (index.stackPairOf (pairField y))) ⟨3, 11⟩
  | 6 => operation (.binary (.ofField y) (.immediate (← .nextByte))) ⟨2, 7⟩
  | 7 => exit (.call (.ofNat (8 * y.val))) ⟨3, 11⟩

def decode (index : Index) (byte : Byte) : Fetch Entry := do
  let opcode := Opcode.ofByte byte
  let y := opcode.y
  let z := opcode.z
  match opcode.x with
  | 0 => return .instruction (← general index y z)
  | 1 => return .instruction (← copies index y z)
  | 2 => return .instruction (← arithmetic index y z)
  | 3 =>
    if z.val = 5 ∧ y.val = 1 then
      return .instruction (.exit (.call (← .nextWord)) ⟨5, 17⟩ false)
    else if z.val = 5 ∧ y.val = 3 then return .index .ix
    else if z.val = 5 ∧ y.val = 5 then return .instruction (← Extended.decode)
    else if z.val = 5 ∧ y.val = 7 then return .index .iy
    else return .instruction (← control index y z)

end Primary
end Z80
