import Z80.Decode.Bit

/-!
The first byte of a Game Boy instruction. The table follows that of the Z80 where
the two agree; exchanges, ports, index registers and the conditions on sign and
parity are replaced or undefined. Every cost is in machine cycles.
-/

namespace Z80.GameBoy

def operation (op : Operation) (cycles : Nat) : Fetch Instruction :=
  .done (.operation op (.ofMachine cycles))

/-- The flag is set where the exit may cost more when it runs. -/
def exit (e : Exit) (cycles : Nat) (varies : Bool := false) : Fetch Instruction :=
  .done (.exit e (.ofMachine cycles) varies)

def costOf (o : Operand) (memory register : Nat) : Nat :=
  if o.isMemory then memory else register

def pair (y : Fin 8) : WordReg := Index.hl.pairOf (pairField y)

def stackPair (y : Fin 8) : WordReg := Index.hl.stackPairOf (pairField y)

/-- STOP takes a second byte along and halts. -/
def jumps (y : Fin 8) : Fetch Instruction := do
  let taken := Cost.ofMachine 1
  match y with
  | 0 => operation .nop 1
  | 1 => operation (.storeWord (← .nextWord) .sp) 5
  | 2 =>
    let _ ← .nextByte
    exit .halt 1
  | 3 => exit (.jump (.relative (← .nextByte))) 3
  | 4 => exit (.jumpIf .nonZero (.relative (← .nextByte)) taken) 2 true
  | 5 => exit (.jumpIf .zero (.relative (← .nextByte)) taken) 2 true
  | 6 => exit (.jumpIf .noCarry (.relative (← .nextByte)) taken) 2 true
  | 7 => exit (.jumpIf .carry (.relative (← .nextByte)) taken) 2 true

def loads : Fin 8 → Fetch Instruction
  | 0 => operation (.load (.indirect .bc) (.register .a)) 2
  | 1 => operation (.load (.register .a) (.indirect .bc)) 2
  | 2 => operation (.load (.indirect .de) (.register .a)) 2
  | 3 => operation (.load (.register .a) (.indirect .de)) 2
  | 4 => operation (.loadAndMove (.indirect .hl) (.register .a) .up) 2
  | 5 => operation (.loadAndMove (.register .a) (.indirect .hl) .up) 2
  | 6 => operation (.loadAndMove (.indirect .hl) (.register .a) .down) 2
  | 7 => operation (.loadAndMove (.register .a) (.indirect .hl) .down) 2

def accumulator : Fin 8 → Operation
  | 0 => .shiftAccumulator .rlc .gameBoy
  | 1 => .shiftAccumulator .rrc .gameBoy
  | 2 => .shiftAccumulator .rl .gameBoy
  | 3 => .shiftAccumulator .rr .gameBoy
  | 4 => .decimalAdjust .gameBoy
  | 5 => .complement
  | 6 => .setCarry
  | 7 => .invertCarry .gameBoy

/-- The opcodes 00 to 3F. -/
def general (y z : Fin 8) : Fetch Instruction := do
  let even := y.val % 2 = 0
  let o := plainOperand y
  match z with
  | 0 => jumps y
  | 1 =>
    if even then operation (.loadWord (pair y) (← .nextWord)) 3
    else operation (.addWord .hl (pair y)) 2
  | 2 => loads y
  | 3 =>
    if even then operation (.incrementWord (pair y)) 2
    else operation (.decrementWord (pair y)) 2
  | 4 => operation (.increment o) (costOf o 3 1)
  | 5 => operation (.decrement o) (costOf o 3 1)
  | 6 => operation (.load o (.immediate (← .nextByte))) (costOf o 3 2)
  | 7 => operation (accumulator y) 1

/-- The opcodes 40 to 7F. -/
def copies (y z : Fin 8) : Fetch Instruction :=
  if y.val = 6 ∧ z.val = 6 then exit .halt 1
  else
    let destination := plainOperand y
    let source := plainOperand z
    operation (.load destination source) (if destination.isMemory || source.isMemory then 2 else 1)

/-- The opcodes 80 to BF. -/
def arithmetic (y z : Fin 8) : Fetch Instruction :=
  let o := plainOperand z
  operation (.binary (.ofField y) o) (costOf o 2 1)

/-- Only the conditions on zero and carry are left; the opcodes of the others are
loads, stack arithmetic or undefined. -/
def conditional (byte : Byte) (y z : Fin 8) : Fetch Instruction := do
  let condition := Condition.ofField y
  let a := Operand.register .a
  if y.val < 4 then
    match z with
    | 0 => exit (.retIf condition (.ofMachine 3)) 2 true
    | 2 => exit (.jumpIf condition (.absolute (← .nextWord)) (.ofMachine 1)) 3 true
    | _ => exit (.callIf condition (← .nextWord) (.ofMachine 3)) 3 true
  else
    match z, y with
    | 0, 4 => operation (.load (.highPage (← .nextByte)) a) 3
    | 0, 5 => operation (.addToStack (← .nextByte)) 4
    | 0, 6 => operation (.load a (.highPage (← .nextByte))) 3
    | 0, 7 => operation (.loadHLFromStack (← .nextByte)) 3
    | 2, 4 => operation (.load .highPageC a) 2
    | 2, 5 => operation (.load (.absolute (← .nextWord)) a) 4
    | 2, 6 => operation (.load a .highPageC) 2
    | 2, 7 => operation (.load a (.absolute (← .nextWord))) 4
    | _, _ => .undefined .primary byte

def returns : Fin 4 → Fetch Instruction
  | 0 => exit .ret 4
  | 1 => exit .returnAndEnableInterrupts 4
  | 2 => exit (.jumpToRegister .hl) 1
  | 3 => operation (.copyWord .sp .hl) 2

/-- The opcodes C0 to FF. -/
def control (byte : Byte) (y z : Fin 8) : Fetch Instruction := do
  match z with
  | 0 | 2 | 4 => conditional byte y z
  | 1 =>
    if y.val % 2 = 0 then operation (.pop (stackPair y)) 3 else returns (pairField y)
  | 3 =>
    match y with
    | 0 => exit (.jump (.absolute (← .nextWord))) 4
    | 1 => Bit.decode .gameBoy
    | 6 => operation (.enableInterrupts false) 1
    | 7 => operation (.enableInterrupts true) 1
    | _ => .undefined .primary byte
  | 5 =>
    if y.val % 2 = 0 then operation (.push (stackPair y)) 4
    else if y.val = 1 then exit (.call (← .nextWord)) 6
    else .undefined .primary byte
  | 6 => operation (.binary (.ofField y) (.immediate (← .nextByte))) 2
  | 7 => exit (.call (.ofNat (8 * y.val))) 4

def decode (byte : Byte) : Fetch Instruction :=
  let opcode := Opcode.ofByte byte
  match opcode.x with
  | 0 => general opcode.y opcode.z
  | 1 => copies opcode.y opcode.z
  | 2 => arithmetic opcode.y opcode.z
  | 3 => control byte opcode.y opcode.z

end Z80.GameBoy
