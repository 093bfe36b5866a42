import Z80.Block
import Z80.Decode.Fetch
import Z80.Proofs.Memory.Flat

/-!
HL and an index register trade places. An instruction that names its registers does the same
under the traded names, and the trade is undone by another one. The instructions that work
on HL without naming it do not follow.
-/

namespace Z80

variable {ω η : Type}

def Registers.exchangeHL (index : Index) (r : Registers) : Registers :=
  match index with
  | .hl => r
  | .ix => { r with bank := r.bank.setHL r.ix, ix := r.hl }
  | .iy => { r with bank := r.bank.setHL r.iy, iy := r.hl }

def Machine.exchangeHL (index : Index) (m : Machine ω η) : Machine ω η :=
  m.modifyRegisters (.exchangeHL index)

def ByteReg.exchangeHL : Index → ByteReg → ByteReg
  | .ix, h => ixh
  | .ix, l => ixl
  | .ix, ixh => h
  | .ix, ixl => l
  | .iy, h => iyh
  | .iy, l => iyl
  | .iy, iyh => h
  | .iy, iyl => l
  | _, reg => reg

def WordReg.exchangeHL : Index → WordReg → WordReg
  | .ix, hl => ix
  | .ix, ix => hl
  | .iy, hl => iy
  | .iy, iy => hl
  | _, reg => reg

def Operand.exchangeHL (index : Index) : Operand → Operand
  | register reg => .register (reg.exchangeHL index)
  | indirect pointer => .indirect (pointer.exchangeHL index)
  | indexed pointer displacement => .indexed (pointer.exchangeHL index) displacement
  | operand => operand

namespace Operation

/-- The operation under the traded names. -/
def exchangeHL (index : Index) : Operation → Operation
  | load destination source => .load (destination.exchangeHL index) (source.exchangeHL index)
  | loadWord destination value => .loadWord (destination.exchangeHL index) value
  | copyWord destination source =>
      .copyWord (destination.exchangeHL index) (source.exchangeHL index)
  | fetchWord destination address => .fetchWord (destination.exchangeHL index) address
  | storeWord address source => .storeWord address (source.exchangeHL index)
  | binary op source => .binary op (source.exchangeHL index)
  | increment operand => .increment (operand.exchangeHL index)
  | decrement operand => .decrement (operand.exchangeHL index)
  | shift op operand copy =>
      .shift op (operand.exchangeHL index) (copy.map (.exchangeHL index))
  | incrementWord register => .incrementWord (register.exchangeHL index)
  | decrementWord register => .decrementWord (register.exchangeHL index)
  | addWord destination source =>
      .addWord (destination.exchangeHL index) (source.exchangeHL index)
  | testBit bit operand => .testBit bit (operand.exchangeHL index)
  | assignBit bit value operand copy =>
      .assignBit bit value (operand.exchangeHL index) (copy.map (.exchangeHL index))
  | push register => .push (register.exchangeHL index)
  | pop register => .pop (register.exchangeHL index)
  | exchangeStackTop register => .exchangeStackTop (register.exchangeHL index)
  | input destination => .input (destination.map (.exchangeHL index))
  | output source => .output (source.map (.exchangeHL index))
  | op => op

/-- The operation names every register among HL, IX and IY that it works on. -/
def NamesRegisters : Operation → Prop
  | loadAndMove _ _ _ | loadHLFromStack _ | addWordWithCarry _ | subtractWordWithCarry _
  | rotateDigitLeft | rotateDigitRight | exchangeDEHL | exchangeBanks | block _ _ => False
  | _ => True

end Operation

namespace Exit

def exchangeHL (index : Index) : Exit → Exit
  | jumpToRegister register => .jumpToRegister (register.exchangeHL index)
  | e => e

def NamesRegisters : Exit → Prop
  | repeatBlock _ _ => False
  | _ => True

end Exit

variable {index : Index}

theorem Registers.exchangeHL_exchangeHL (index : Index) (r : Registers) :
    (r.exchangeHL index).exchangeHL index = r := by
  cases index with
  | hl => rfl
  | ix | iy =>
      simp only [exchangeHL, hl, Bank.hl, Bank.setHL, Word.low_ofBytes, Word.high_ofBytes,
        Word.ofBytes_low_high]

theorem ByteReg.read_exchangeHL (reg : ByteReg) (r : Registers) :
    (reg.exchangeHL index).read (r.exchangeHL index) = reg.read r := by
  cases reg with
  | a | b | c | d | e => cases index <;> rfl
  | h | l | ixh | ixl | iyh | iyl =>
      cases index <;> simp [exchangeHL, read, Registers.exchangeHL, Registers.hl, Bank.hl,
        Bank.setHL]

theorem ByteReg.write_exchangeHL (reg : ByteReg) (r : Registers) (value : Byte) :
    (reg.exchangeHL index).write (r.exchangeHL index) value =
      (reg.write r value).exchangeHL index := by
  cases reg with
  | a | b | c | d | e => cases index <;> rfl
  | h | l | ixh | ixl | iyh | iyl =>
      cases index <;> simp [exchangeHL, write, Registers.exchangeHL, Registers.hl, Bank.hl,
        Bank.setHL, Word.withLow, Word.withHigh]

theorem WordReg.read_exchangeHL (reg : WordReg) (r : Registers) :
    (reg.exchangeHL index).read (r.exchangeHL index) = reg.read r := by
  cases reg with
  | af | bc | de | sp => cases index <;> rfl
  | hl | ix | iy =>
      cases index <;> simp [exchangeHL, read, Registers.exchangeHL, Registers.hl, Bank.hl,
        Bank.setHL]

theorem WordReg.write_exchangeHL (reg : WordReg) (r : Registers) (value : Word) :
    (reg.exchangeHL index).write (r.exchangeHL index) value =
      (reg.write r value).exchangeHL index := by
  cases reg with
  | af | bc | de | sp => cases index <;> rfl
  | hl | ix | iy =>
      cases index <;> simp [exchangeHL, write, Registers.exchangeHL, Registers.setHL, Registers.hl,
        Bank.hl, Bank.setHL]

theorem Operand.address?_exchangeHL (index : Index) (operand : Operand) (r : Registers) :
    (operand.exchangeHL index).address? (r.exchangeHL index) = operand.address? r := by
  cases operand with
  | indirect _ | indexed _ _ => simp only [exchangeHL, address?, WordReg.read_exchangeHL]
  | register _ | immediate _ | absolute _ | highPage _ => rfl
  | highPageC => cases index <;> rfl

namespace Registers

@[simp] theorem flags_exchangeHL (r : Registers) : (r.exchangeHL index).flags = r.flags := by
  cases index <;> rfl

@[simp] theorem sp_exchangeHL (r : Registers) : (r.exchangeHL index).sp = r.sp := by
  cases index <;> rfl

@[simp] theorem b_exchangeHL (r : Registers) : (r.exchangeHL index).bank.b = r.bank.b := by
  cases index <;> rfl

@[simp] theorem c_exchangeHL (r : Registers) : (r.exchangeHL index).bank.c = r.bank.c := by
  cases index <;> rfl

theorem setFlags_exchangeHL (r : Registers) (f : Flags) :
    (r.exchangeHL index).setFlags f = (r.setFlags f).exchangeHL index := by
  cases index <;> rfl

end Registers

namespace Machine

theorem exchangeHL_exchangeHL (index : Index) (m : Machine ω η) :
    (m.exchangeHL index).exchangeHL index = m := by
  simp only [exchangeHL, modifyRegisters, Registers.exchangeHL_exchangeHL]

theorem registers_exchangeHL (m : Machine ω η) :
    (m.exchangeHL index).registers = m.registers.exchangeHL index := rfl

theorem modifyRegisters_exchangeHL (m : Machine ω η) (f g : Registers → Registers)
    (hf : ∀ r, f (r.exchangeHL index) = (g r).exchangeHL index) :
    (m.exchangeHL index).modifyRegisters f = (m.modifyRegisters g).exchangeHL index := by
  simp only [exchangeHL, modifyRegisters, hf]

theorem writeByteReg_exchangeHL (m : Machine ω η) (reg : ByteReg) (value : Byte) :
    (m.exchangeHL index).modifyRegisters ((reg.exchangeHL index).write · value) =
      (m.modifyRegisters (reg.write · value)).exchangeHL index :=
  m.modifyRegisters_exchangeHL _ _ (reg.write_exchangeHL · value)

theorem writeWordReg_exchangeHL (m : Machine ω η) (reg : WordReg) (value : Word) :
    (m.exchangeHL index).modifyRegisters ((reg.exchangeHL index).write · value) =
      (m.modifyRegisters (reg.write · value)).exchangeHL index :=
  m.modifyRegisters_exchangeHL _ _ (reg.write_exchangeHL · value)

theorem setFlags_exchangeHL (m : Machine ω η) (f : Flags) :
    (m.exchangeHL index).setFlags f = (m.setFlags f).exchangeHL index :=
  m.modifyRegisters_exchangeHL _ _ (·.setFlags_exchangeHL f)

theorem read_exchangeHL (index : Index) (m : Machine ω η) (operand : Operand) :
    (m.exchangeHL index).read (operand.exchangeHL index) = m.read operand := by
  have ha := operand.address?_exchangeHL index m.registers
  cases operand with
  | register reg => exact reg.read_exchangeHL m.registers
  | immediate _ | absolute _ | highPage _ => rfl
  | indirect _ | indexed _ _ | highPageC =>
      simp only [Operand.exchangeHL] at ha
      simp only [read, Operand.exchangeHL, registers_exchangeHL, ha]
      rfl

theorem copyTo_exchangeHL (m : Machine ω η) (register : Option ByteReg) (value : Byte) :
    (m.exchangeHL index).copyTo (register.map (.exchangeHL index)) value =
      (m.copyTo register value).exchangeHL index := by
  cases register with
  | none => rfl
  | some reg => exact m.writeByteReg_exchangeHL reg value

variable [Observer ω]

theorem write_exchangeHL (m : Machine ω η) (operand : Operand) (value : Byte) :
    (m.exchangeHL index).write (operand.exchangeHL index) value =
      (m.write operand value).exchangeHL index := by
  have ha := operand.address?_exchangeHL index m.registers
  cases operand with
  | register reg => exact m.writeByteReg_exchangeHL reg value
  | immediate _ | absolute _ | highPage _ => rfl
  | indirect _ | indexed _ _ | highPageC =>
      simp only [Operand.exchangeHL] at ha
      simp only [write, Operand.exchangeHL, registers_exchangeHL, ha]
      rfl

theorem transform_exchangeHL (m : Machine ω η) (operand : Operand)
    (f : Flags → Byte → Byte × Flags) :
    (m.exchangeHL index).transform (operand.exchangeHL index) f =
      ((m.transform operand f).1, (m.transform operand f).2.exchangeHL index) := by
  simp only [transform, read_exchangeHL, registers_exchangeHL, Registers.flags_exchangeHL,
    setFlags_exchangeHL, write_exchangeHL]

end Machine

variable [Observer ω] [Host η]

/-- An operation that names its registers follows the trade. -/
theorem Operation.execute_exchangeHL (op : Operation) (hn : op.NamesRegisters) (fetched : Nat)
    (m : Machine ω η) :
    (op.exchangeHL index).execute fetched (m.exchangeHL index) =
      (op.execute fetched m).exchangeHL index := by
  cases op with
  | load destination source =>
      simp only [exchangeHL, execute, Machine.read_exchangeHL, Machine.write_exchangeHL]
  | loadWord destination value =>
      exact m.writeWordReg_exchangeHL destination value
  | copyWord destination source =>
      simp only [exchangeHL, execute]
      refine m.modifyRegisters_exchangeHL _ _ fun r => ?_
      rw [source.read_exchangeHL, destination.write_exchangeHL]
  | fetchWord destination address =>
      exact m.writeWordReg_exchangeHL destination _
  | storeWord address source =>
      simp only [exchangeHL, execute, Machine.registers_exchangeHL, WordReg.read_exchangeHL]
      rfl
  | binary op source =>
      simp only [exchangeHL, execute, Machine.read_exchangeHL]
      refine m.modifyRegisters_exchangeHL _ _ fun r => ?_
      cases index <;> rfl
  | increment operand | decrement operand =>
      simp only [exchangeHL, execute, Machine.transform_exchangeHL]
  | shift op operand copy =>
      simp only [exchangeHL, execute, Machine.transform_exchangeHL, Machine.copyTo_exchangeHL]
  | incrementWord register | decrementWord register =>
      simp only [exchangeHL, execute]
      refine m.modifyRegisters_exchangeHL _ _ fun r => ?_
      rw [register.read_exchangeHL, register.write_exchangeHL]
  | addWord destination source =>
      simp only [exchangeHL, execute]
      refine m.modifyRegisters_exchangeHL _ _ fun r => ?_
      simp only [destination.read_exchangeHL, source.read_exchangeHL, Registers.flags_exchangeHL,
        Registers.setFlags_exchangeHL, destination.write_exchangeHL]
  | testBit bit operand =>
      have hr := m.read_exchangeHL index operand
      cases operand with
      | indexed pointer displacement =>
          simp only [Operand.exchangeHL] at hr
          simp only [exchangeHL, Operand.exchangeHL, execute, hr, Machine.registers_exchangeHL,
            WordReg.read_exchangeHL, Registers.flags_exchangeHL, Machine.setFlags_exchangeHL]
      | register _ | immediate _ | indirect _ | absolute _ | highPage _ | highPageC =>
          simp only [Operand.exchangeHL] at hr
          simp only [exchangeHL, Operand.exchangeHL, execute, hr, Machine.registers_exchangeHL,
            Registers.flags_exchangeHL, Machine.setFlags_exchangeHL]
  | assignBit bit value operand copy =>
      simp only [exchangeHL, execute, Machine.read_exchangeHL, Machine.write_exchangeHL,
        Machine.copyTo_exchangeHL]
  | push register =>
      simp only [exchangeHL, execute, Machine.registers_exchangeHL, WordReg.read_exchangeHL]
      cases index <;> rfl
  | pop register =>
      have hp : (m.exchangeHL index).pop = (m.pop.1, m.pop.2.exchangeHL index) := by
        cases index <;> rfl
      simp only [exchangeHL, execute, hp]
      exact m.pop.2.writeWordReg_exchangeHL register _
  | exchangeStackTop register =>
      simp only [exchangeHL, execute, Machine.registers_exchangeHL, Registers.sp_exchangeHL,
        WordReg.read_exchangeHL]
      exact (m.writeWord _ _).writeWordReg_exchangeHL register _
  | input destination =>
      have hp (port context : Byte) : (m.exchangeHL index).readPort port context =
          ((m.readPort port context).1, (m.readPort port context).2.exchangeHL index) := rfl
      simp only [exchangeHL, execute, Machine.registers_exchangeHL, Registers.b_exchangeHL,
        Registers.c_exchangeHL, hp, Registers.flags_exchangeHL, Machine.setFlags_exchangeHL,
        Machine.copyTo_exchangeHL]
  | output source =>
      simp only [exchangeHL, execute, Machine.registers_exchangeHL, Registers.b_exchangeHL,
        Registers.c_exchangeHL]
      cases source with
      | none => rfl
      | some reg =>
          simp only [Option.map, ByteReg.read_exchangeHL]
          rfl
  | loadAndMove _ _ _ | loadHLFromStack _ | addWordWithCarry _ | subtractWordWithCarry _
  | rotateDigitLeft | rotateDigitRight | exchangeDEHL | exchangeBanks | block _ _ => exact hn.elim
  | nop | loadAFromI | loadIFromA | loadAFromR | loadRFromA | addToStack _ | negate | complement
  | setCarry | exchangeAccumulators | enableInterrupts _ | interruptMode _ | inputImmediate _
  | outputImmediate _ => cases index <;> rfl
  | shiftAccumulator op mode => cases mode <;> cases index <;> rfl
  | decimalAdjust mode | invertCarry mode => cases mode <;> cases index <;> rfl

/-- An exit that names its registers follows the trade. -/
theorem Exit.execute_exchangeHL (e : Exit) (hn : e.NamesRegisters) (next : Word)
    (m : Machine ω η) :
    (e.exchangeHL index).execute next (m.exchangeHL index) =
      ((e.execute next m).1.exchangeHL index, (e.execute next m).2) := by
  cases e with
  | jumpToRegister register =>
      simp only [exchangeHL, execute, transfer, Machine.registers_exchangeHL,
        WordReg.read_exchangeHL]
      cases index <;> rfl
  | jumpIf condition target taken | callIf condition target taken | retIf condition taken =>
      simp only [exchangeHL, execute, Machine.registers_exchangeHL, Registers.flags_exchangeHL]
      split <;> cases index <;> rfl
  | decrementAndJump target taken =>
      simp only [exchangeHL, execute, Machine.registers_exchangeHL, Registers.b_exchangeHL]
      split <;> cases index <;> rfl
  | repeatBlock _ _ => exact hn.elim
  | jump _ | call _ | ret | returnFromInterrupt | returnAndEnableInterrupts | halt =>
      cases index <;> rfl

end Z80
