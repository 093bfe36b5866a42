import Z80.Alu.Binary
import Z80.Alu.Shift
import Z80.Cost
import Z80.Operand

/-!
The instructions of both processors as data. An operation falls through to the
next instruction; an exit ends its block, because it chooses where execution goes
on, repeats itself or halts. Neither knows at which address it stands.
-/

namespace Z80

inductive Direction where
  | up
  | down
  deriving DecidableEq

/-- What is added to a pointer that moves in the direction. -/
def Direction.delta : Direction → Word
  | up => 1
  | down => 0xFFFF

/-- Instructions that move a pointer and a counter, once or until a stop condition. -/
inductive BlockInstruction where
  | load | compare | input | output
  deriving DecidableEq

inductive Operation where
  | nop
  | load (destination source : Operand)
  /-- A load, after which HL moves. -/
  | loadAndMove (destination source : Operand) (direction : Direction)
  | loadWord (destination : WordReg) (value : Word)
  | copyWord (destination source : WordReg)
  | fetchWord (destination : WordReg) (address : Word)
  | storeWord (address : Word) (source : WordReg)
  | loadAFromI
  | loadIFromA
  | loadAFromR
  | loadRFromA
  | loadHLFromStack (offset : Byte)
  | addToStack (offset : Byte)
  | binary (op : Binary) (source : Operand)
  | increment (operand : Operand)
  | decrement (operand : Operand)
  /-- The result is also copied to a register in the indexed forms. -/
  | shift (op : Shift) (operand : Operand) (copy : Option ByteReg)
  | shiftAccumulator (op : Shift) (mode : Mode)
  | incrementWord (register : WordReg)
  | decrementWord (register : WordReg)
  | addWord (destination source : WordReg)
  | addWordWithCarry (source : WordReg)
  | subtractWordWithCarry (source : WordReg)
  | decimalAdjust (mode : Mode)
  | negate
  | complement
  | setCarry
  | invertCarry (mode : Mode)
  | rotateDigitLeft
  | rotateDigitRight
  | testBit (bit : Fin 8) (operand : Operand)
  | assignBit (bit : Fin 8) (value : Bool) (operand : Operand) (copy : Option ByteReg)
  | push (register : WordReg)
  | pop (register : WordReg)
  | exchangeDEHL
  | exchangeAccumulators
  | exchangeBanks
  | exchangeStackTop (register : WordReg)
  | enableInterrupts (enabled : Bool)
  | interruptMode (mode : InterruptMode)
  | inputImmediate (port : Byte)
  | outputImmediate (port : Byte)
  /-- Without a register only the flags change. -/
  | input (destination : Option ByteReg)
  /-- Without a register a zero is written. -/
  | output (source : Option ByteReg)
  | block (kind : BlockInstruction) (direction : Direction)
  deriving DecidableEq

/-- Where a jump leads: to an address, or to a displacement from the next
instruction. -/
inductive Target where
  | absolute (address : Word)
  | relative (displacement : Byte)
  deriving DecidableEq

def Target.resolve : Target → Word → Word
  | absolute address, _ => address
  | relative displacement, next => next + signExtend displacement

/-- `taken` is what a conditional exit costs on top when it is taken. -/
inductive Exit where
  | jump (target : Target)
  | jumpIf (condition : Condition) (target : Target) (taken : Cost)
  | jumpToRegister (register : WordReg)
  | decrementAndJump (target : Target) (taken : Cost)
  | call (address : Word)
  | callIf (condition : Condition) (address : Word) (taken : Cost)
  | ret
  | retIf (condition : Condition) (taken : Cost)
  /-- Restores IFF1 from IFF2. -/
  | returnFromInterrupt
  | returnAndEnableInterrupts
  | repeatBlock (kind : BlockInstruction) (direction : Direction)
  | halt
  deriving DecidableEq

/-- An instruction with the cost it has at least. An exit that `varies` may ask for
more when it runs. -/
inductive Instruction where
  | operation (op : Operation) (cost : Cost)
  | exit (exit : Exit) (cost : Cost) (varies : Bool)
  deriving DecidableEq

namespace Instruction

def cost : Instruction → Cost
  | operation _ cost | exit _ cost _ => cost

def addCost (extra : Cost) : Instruction → Instruction
  | operation op cost => .operation op (extra + cost)
  | exit e cost varies => .exit e (extra + cost) varies

end Instruction
end Z80
