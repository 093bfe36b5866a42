import Z80.Alu.Block
import Z80.Alu.Decimal
import Z80.Machine
import Z80.Operation

/-!
What each instruction does to a machine. Operations leave PC alone; every exit
sets it, on each of its outcomes. The refresh counter is brought up to date once
a block, so the two loads that show it are told how many bytes of the block were
fetched so far.
-/

namespace Z80

variable {ω η : Type} [Observer ω] [Host η]

def Machine.transform (m : Machine ω η) (operand : Operand)
    (f : Flags → Byte → Byte × Flags) : Byte × Machine ω η :=
  let (result, flags) := f m.registers.flags (m.read operand)
  (result, (m.setFlags flags).write operand result)

def Machine.transformAccumulator (m : Machine ω η) (f : Flags → Byte → Byte × Flags) :
    Machine ω η :=
  m.modifyRegisters fun r => r.setAccumulator (f r.flags r.a)

def Machine.copyTo (m : Machine ω η) (register : Option ByteReg) (value : Byte) : Machine ω η :=
  match register with
  | some reg => m.modifyRegisters (reg.write · value)
  | none => m

/-- I and R are loaded with their flags; P/V reports IFF2. -/
def Registers.loadSpecial (r : Registers) (value : Byte) : Registers :=
  r.setAccumulator (value,
    { r.flags.withResult value with
      halfCarry := false
      subtract := false
      parityOverflow := r.iff2 })

def Machine.rotateDigit (m : Machine ω η) (f : Flags → Byte → Byte → Byte × Byte × Flags) :
    Machine ω η :=
  let address := m.registers.hl
  let (a, memory, flags) := f m.registers.flags m.registers.a (m.readByte address)
  (m.modifyRegisters (·.setAccumulator (a, flags))).writeByte address memory

namespace BlockInstruction

def round (kind : BlockInstruction) (direction : Direction) (m : Machine ω η) : Machine ω η :=
  let delta := direction.delta
  let hl := m.registers.hl
  match kind with
  | load =>
    let de := m.registers.de
    let value := m.readByte hl
    (m.writeByte de value).modifyRegisters fun r =>
      let bc := r.bc - 1
      (((r.setHL (hl + delta)).setDE (de + delta)).setBC bc).setFlags
        (Alu.blockTransfer r.flags r.a value bc)
  | compare =>
    let value := m.readByte hl
    m.modifyRegisters fun r =>
      let bc := r.bc - 1
      ((r.setHL (hl + delta)).setBC bc).setFlags (Alu.blockCompare r.flags r.a value bc)
  | input =>
    let b := m.registers.bank.b
    let (value, m) := m.readPort m.registers.bank.c b
    (m.writeByte hl value).modifyRegisters fun r =>
      let r := { r with bank.b := b - 1 }
      (r.setHL (hl + delta)).setFlags (Alu.blockPort r.flags (b - 1))
  | output =>
    let b := m.registers.bank.b - 1
    (m.writePort m.registers.bank.c b (m.readByte hl)).modifyRegisters fun r =>
      let r := { r with bank.b := b }
      (r.setHL (hl + delta)).setFlags (Alu.blockPort r.flags b)

def isFinished (kind : BlockInstruction) (r : Registers) : Bool :=
  match kind with
  | load => r.bc == 0
  | compare => r.bc == 0 || r.flags.zero
  | input | output => r.bank.b == 0

/-- What a round costs after which the instruction goes round again. -/
def repeatCost : Cost := ⟨5, 21⟩

/-- Rounds until the instruction is finished, at most `rounds`; the cost of those
that were not the last one is added up. -/
def iterate (kind : BlockInstruction) (direction : Direction) :
    (rounds : Nat) → Machine ω η → Cost → Machine ω η × Cost
  | 0, m, cost => (m, cost)
  | rounds + 1, m, cost =>
    let m := kind.round direction m
    if kind.isFinished m.registers then (m, cost)
    else iterate kind direction rounds m (cost + repeatCost)

end BlockInstruction

namespace Operation

/-- Runs an operation after which `fetched` bytes of its block have been fetched. -/
def execute (op : Operation) (fetched : Nat) (m : Machine ω η) : Machine ω η :=
  match op with
  | nop => m
  | load destination source => m.write destination (m.read source)
  | loadAndMove destination source direction =>
    (m.write destination (m.read source)).modifyRegisters fun r =>
      r.setHL (r.hl + direction.delta)
  | loadWord destination value => m.modifyRegisters (destination.write · value)
  | copyWord destination source =>
    m.modifyRegisters fun r => destination.write r (source.read r)
  | fetchWord destination address =>
    let value := m.readWord address
    m.modifyRegisters (destination.write · value)
  | storeWord address source => m.writeWord address (source.read m.registers)
  | loadAFromI => m.modifyRegisters fun r => r.loadSpecial r.i
  | loadIFromA => m.modifyRegisters fun r => { r with i := r.a }
  | loadAFromR => m.modifyRegisters fun r => r.loadSpecial (refreshAfter r.r fetched)
  | loadRFromA => m.modifyRegisters fun r => { r with r := refreshBefore r.a fetched }
  | loadHLFromStack offset =>
    m.modifyRegisters fun r =>
      let (value, flags) := Alu.addOffset r.flags r.sp offset
      (r.setFlags flags).setHL value
  | addToStack offset =>
    m.modifyRegisters fun r =>
      let (value, flags) := Alu.addOffset r.flags r.sp offset
      { r.setFlags flags with sp := value }
  | binary op source =>
    let value := m.read source
    m.transformAccumulator (op.apply · · value)
  | increment operand => (m.transform operand Alu.increment).2
  | decrement operand => (m.transform operand Alu.decrement).2
  | shift op operand copy =>
    let (result, m) := m.transform operand op.apply
    m.copyTo copy result
  | shiftAccumulator op mode =>
    let m := m.transformAccumulator op.applyAccumulator
    match mode with
    | .z80 => m
    | .gameBoy => m.setFlags { m.registers.flags with zero := false }
  | incrementWord register =>
    m.modifyRegisters fun r => register.write r (register.read r + 1)
  | decrementWord register =>
    m.modifyRegisters fun r => register.write r (register.read r - 1)
  | addWord destination source =>
    m.modifyRegisters fun r =>
      let (sum, flags) := Alu.addWords r.flags (destination.read r) (source.read r)
      destination.write (r.setFlags flags) sum
  | addWordWithCarry source =>
    m.modifyRegisters fun r =>
      let (sum, flags) := Alu.addWordsWithCarry r.flags r.hl (source.read r)
      (r.setFlags flags).setHL sum
  | subtractWordWithCarry source =>
    m.modifyRegisters fun r =>
      let (difference, flags) := Alu.subtractWordsWithCarry r.flags r.hl (source.read r)
      (r.setFlags flags).setHL difference
  | decimalAdjust mode =>
    match mode with
    | .z80 => m.transformAccumulator Alu.decimalAdjust
    | .gameBoy => m.transformAccumulator Alu.decimalAdjustGameBoy
  | negate => m.transformAccumulator Alu.negate
  | complement => m.transformAccumulator Alu.complement
  | setCarry => m.modifyRegisters fun r => r.setFlags (Alu.setCarry r.flags r.a)
  | invertCarry mode =>
    m.modifyRegisters fun r =>
      let flags := Alu.invertCarry r.flags r.a
      match mode with
      | .z80 => r.setFlags flags
      | .gameBoy => r.setFlags { flags with halfCarry := false }
  | rotateDigitLeft => m.rotateDigit Alu.rotateDigitLeft
  | rotateDigitRight => m.rotateDigit Alu.rotateDigitRight
  | testBit bit operand =>
    let flags := Alu.testBit m.registers.flags bit (m.read operand)
    match operand with
    | .indexed pointer displacement =>
      let address := pointer.read m.registers + signExtend displacement
      m.setFlags (flags.withUndocumented (Word.high address))
    | _ => m.setFlags flags
  | assignBit bit value operand copy =>
    let mask : Byte := .ofNat (1 <<< bit.val)
    let old := m.read operand
    let result := if value then old ||| mask else old &&& ~~~mask
    (m.write operand result).copyTo copy result
  | push register => m.push (register.read m.registers)
  | pop register =>
    let (value, m) := m.pop
    m.modifyRegisters (register.write · value)
  | exchangeDEHL => m.modifyRegisters Registers.exchangeDEHL
  | exchangeAccumulators => m.modifyRegisters Registers.exchangeAccumulators
  | exchangeBanks => m.modifyRegisters Registers.exchangeBanks
  | exchangeStackTop register =>
    let sp := m.registers.sp
    let top := m.readWord sp
    (m.writeWord sp (register.read m.registers)).modifyRegisters (register.write · top)
  | enableInterrupts enabled =>
    m.modifyRegisters fun r => { r with iff1 := enabled, iff2 := enabled }
  | interruptMode mode => m.modifyRegisters fun r => { r with interruptMode := mode }
  | inputImmediate port =>
    let (value, m) := m.readPort port m.registers.a
    m.modifyRegisters (·.setA value)
  | outputImmediate port => m.writePort port m.registers.a m.registers.a
  | input destination =>
    let (value, m) := m.readPort m.registers.bank.c m.registers.bank.b
    let flags :=
      { m.registers.flags.withParity value with halfCarry := false, subtract := false }
    (m.setFlags flags).copyTo destination value
  | output source =>
    let value := match source with
      | some reg => reg.read m.registers
      | none => 0
    m.writePort m.registers.bank.c m.registers.bank.b value
  | block kind direction => kind.round direction m

end Operation

namespace Exit

def transfer (m : Machine ω η) (address : Word) (extra : Cost) : Machine ω η × Cost :=
  (m.setPC address, extra)

/-- Runs an exit that is followed by the instruction at `next`; the result is what
it cost on top of its own cost. -/
def execute (e : Exit) (next : Word) (m : Machine ω η) : Machine ω η × Cost :=
  match e with
  | jump target => transfer m (target.resolve next) 0
  | jumpIf condition target taken =>
    if condition.holds m.registers.flags then transfer m (target.resolve next) taken
    else transfer m next 0
  | jumpToRegister register => transfer m (register.read m.registers) 0
  | decrementAndJump target taken =>
    let b := m.registers.bank.b - 1
    let m := m.modifyRegisters fun r => { r with bank.b := b }
    if b != 0 then transfer m (target.resolve next) taken else transfer m next 0
  | call address => transfer (m.push next) address 0
  | callIf condition address taken =>
    if condition.holds m.registers.flags then transfer (m.push next) address taken
    else transfer m next 0
  | ret =>
    let (address, m) := m.pop
    transfer m address 0
  | retIf condition taken =>
    if condition.holds m.registers.flags then
      let (address, m) := m.pop
      transfer m address taken
    else transfer m next 0
  | returnFromInterrupt =>
    let (address, m) := (m.modifyRegisters fun r => { r with iff1 := r.iff2 }).pop
    transfer m address 0
  | returnAndEnableInterrupts =>
    let (address, m) := (m.modifyRegisters fun r => { r with iff1 := true, iff2 := true }).pop
    transfer m address 0
  | repeatBlock kind direction =>
    let (m, extra) := kind.iterate direction 0x10000 m 0
    transfer m next extra
  | halt => transfer m next 0

end Exit
end Z80
