import Z80.Block

/-!
PC and the refresh counter are brought up to date once a block. This makes no difference to
what runs in the block: operations leave PC alone, exits overwrite it, and the two loads
that show the refresh counter are told how far it is behind.
-/

namespace Z80

variable {ω η : Type}

theorem refreshAfter_zero (r : Byte) : refreshAfter r 0 = r := by
  apply UInt8.toNat_inj.mp
  have := r.toNat_lt
  simp only [refreshAfter, UInt8.toNat_ofNat']
  omega

theorem refreshAfter_refreshAfter (r : Byte) (m n : Nat) :
    refreshAfter (refreshAfter r m) n = refreshAfter r (m + n) := by
  apply UInt8.toNat_inj.mp
  have := r.toNat_lt
  simp only [refreshAfter, UInt8.toNat_ofNat']
  omega

/-- The bytes by which the counter is set back are those that it counts later. -/
theorem refreshAfter_refreshBefore (r : Byte) (m n : Nat) :
    refreshAfter (refreshBefore r (m + n)) m = refreshBefore r n := by
  apply UInt8.toNat_inj.mp
  have := r.toNat_lt
  simp only [refreshAfter, refreshBefore, UInt8.toNat_ofNat']
  omega

/-- PC and the refresh counter as they are once so many more bytes were fetched. -/
def Registers.catchUp (pc : Word) (bytes : Nat) (r : Registers) : Registers :=
  { r with pc := pc, r := refreshAfter r.r bytes }

def Machine.catchUp (pc : Word) (bytes : Nat) (m : Machine ω η) : Machine ω η :=
  m.modifyRegisters (.catchUp pc bytes)

variable {pc : Word} {k : Nat}

theorem ByteReg.read_catchUp (reg : ByteReg) (r : Registers) :
    reg.read (r.catchUp pc k) = reg.read r := by
  cases reg <;> rfl

theorem ByteReg.write_catchUp (reg : ByteReg) (r : Registers) (value : Byte) :
    reg.write (r.catchUp pc k) value = (reg.write r value).catchUp pc k := by
  cases reg <;> rfl

theorem WordReg.read_catchUp (reg : WordReg) (r : Registers) :
    reg.read (r.catchUp pc k) = reg.read r := by
  cases reg <;> rfl

theorem WordReg.write_catchUp (reg : WordReg) (r : Registers) (value : Word) :
    reg.write (r.catchUp pc k) value = (reg.write r value).catchUp pc k := by
  cases reg <;> rfl

namespace Machine

theorem modifyRegisters_catchUp (m : Machine ω η) (f : Registers → Registers)
    (hf : ∀ r, f (r.catchUp pc k) = (f r).catchUp pc k) :
    (m.catchUp pc k).modifyRegisters f = (m.modifyRegisters f).catchUp pc k := by
  simp only [catchUp, modifyRegisters, hf]

theorem catchUp_catchUp (m : Machine ω η) (p q : Word) (j k : Nat) :
    (m.catchUp p j).catchUp q k = m.catchUp q (j + k) := by
  simp only [catchUp, modifyRegisters, Registers.catchUp, refreshAfter_refreshAfter]

theorem catchUp_zero (m : Machine ω η) : m.catchUp m.registers.pc 0 = m := by
  simp only [catchUp, modifyRegisters, Registers.catchUp, refreshAfter_zero]

theorem setPC_eq_catchUp (m : Machine ω η) : m.setPC pc = m.catchUp pc 0 := by
  simp only [setPC, catchUp, modifyRegisters, Registers.catchUp, refreshAfter_zero]

theorem registers_catchUp (m : Machine ω η) :
    (m.catchUp pc k).registers = m.registers.catchUp pc k := rfl

theorem read_catchUp (m : Machine ω η) (operand : Operand) :
    (m.catchUp pc k).read operand = m.read operand := by
  cases operand with
  | register reg => exact reg.read_catchUp m.registers
  | immediate _ | absolute _ | highPage _ | highPageC => rfl
  | indirect _ | indexed _ _ =>
      simp only [read, Operand.address?, registers_catchUp, WordReg.read_catchUp]
      rfl

theorem copyTo_catchUp (m : Machine ω η) (register : Option ByteReg) (value : Byte) :
    (m.catchUp pc k).copyTo register value = (m.copyTo register value).catchUp pc k := by
  cases register with
  | none => rfl
  | some reg => exact m.modifyRegisters_catchUp (reg.write · value) (reg.write_catchUp · value)

variable [Observer ω]

theorem write_catchUp (m : Machine ω η) (operand : Operand) (value : Byte) :
    (m.catchUp pc k).write operand value = (m.write operand value).catchUp pc k := by
  cases operand with
  | register reg => exact m.modifyRegisters_catchUp (reg.write · value) (reg.write_catchUp · value)
  | immediate _ | absolute _ | highPage _ | highPageC => rfl
  | indirect _ | indexed _ _ =>
      simp only [write, Operand.address?, registers_catchUp, WordReg.read_catchUp]
      rfl

theorem transform_catchUp (m : Machine ω η) (operand : Operand)
    (f : Flags → Byte → Byte × Flags) :
    (m.catchUp pc k).transform operand f =
      ((m.transform operand f).1, (m.transform operand f).2.catchUp pc k) := by
  simp only [transform, read_catchUp]
  exact congrArg (Prod.mk _) ((m.setFlags _).write_catchUp operand _)

end Machine

variable [Host η]

theorem BlockInstruction.round_catchUp (kind : BlockInstruction) (direction : Direction)
    [Observer ω] (m : Machine ω η) :
    kind.round direction (m.catchUp pc k) = (kind.round direction m).catchUp pc k := by
  cases kind <;> rfl

theorem BlockInstruction.iterate_catchUp (kind : BlockInstruction) (direction : Direction)
    [Observer ω] (rounds : Nat) (m : Machine ω η) (cost : Cost) :
    kind.iterate direction rounds (m.catchUp pc k) cost =
      ((kind.iterate direction rounds m cost).1.catchUp pc k,
        (kind.iterate direction rounds m cost).2) := by
  induction rounds generalizing m cost with
  | zero => rfl
  | succ rounds ih =>
      have hf : kind.isFinished ((kind.round direction m).catchUp pc k).registers =
          kind.isFinished (kind.round direction m).registers := by
        cases kind <;> rfl
      simp only [iterate, round_catchUp, hf]
      split
      · rfl
      · exact ih _ _

variable [Observer ω]

/-- It makes no difference whether PC and the refresh counter were brought up to date
before an operation or will be after it. -/
theorem Operation.execute_catchUp (op : Operation) (fetched : Nat) (m : Machine ω η) :
    op.execute fetched (m.catchUp pc k) = (op.execute (k + fetched) m).catchUp pc k := by
  cases op with
  | load destination source =>
      simp only [execute, Machine.read_catchUp]
      exact m.write_catchUp destination _
  | loadAndMove destination source direction =>
      simp only [execute, Machine.read_catchUp, Machine.write_catchUp]
      rfl
  | loadAFromR =>
      simp only [execute, Machine.catchUp, Machine.modifyRegisters, Registers.catchUp,
        refreshAfter_refreshAfter]
      rfl
  | loadRFromA =>
      simp only [execute, Machine.catchUp, Machine.modifyRegisters, Registers.catchUp,
        refreshAfter_refreshBefore]
      rfl
  | loadWord destination value =>
      exact m.modifyRegisters_catchUp (destination.write · value)
        (destination.write_catchUp · value)
  | copyWord destination source =>
      simp only [execute]
      refine m.modifyRegisters_catchUp _ fun r => ?_
      simp only [source.read_catchUp, destination.write_catchUp]
  | fetchWord destination address =>
      exact m.modifyRegisters_catchUp (destination.write · _) (destination.write_catchUp · _)
  | storeWord address source =>
      simp only [execute, Machine.registers_catchUp, WordReg.read_catchUp]
      rfl
  | binary op source =>
      simp only [execute, Machine.read_catchUp]
      rfl
  | increment operand | decrement operand =>
      simp only [execute, Machine.transform_catchUp]
  | shift op operand copy =>
      simp only [execute, Machine.transform_catchUp, Machine.copyTo_catchUp]
  | shiftAccumulator op mode => cases mode <;> rfl
  | incrementWord register | decrementWord register =>
      simp only [execute]
      refine m.modifyRegisters_catchUp _ fun r => ?_
      simp only [register.read_catchUp, register.write_catchUp]
  | addWord destination source =>
      simp only [execute]
      refine m.modifyRegisters_catchUp _ fun r => ?_
      simp only [destination.read_catchUp, source.read_catchUp]
      exact destination.write_catchUp
        (r.setFlags (Alu.addWords r.flags (destination.read r) (source.read r)).2) _
  | addWordWithCarry source | subtractWordWithCarry source =>
      simp only [execute]
      refine m.modifyRegisters_catchUp _ fun r => ?_
      simp only [source.read_catchUp]
      rfl
  | decimalAdjust mode => cases mode <;> rfl
  | invertCarry mode => cases mode <;> rfl
  | testBit bit operand =>
      cases operand with
      | indexed pointer displacement =>
          simp only [execute, Machine.read_catchUp, Machine.registers_catchUp, WordReg.read_catchUp]
          rfl
      | register _ | immediate _ | indirect _ | absolute _ | highPage _ | highPageC =>
          simp only [execute, Machine.read_catchUp]
          rfl
  | assignBit bit value operand copy =>
      simp only [execute, Machine.read_catchUp, Machine.write_catchUp, Machine.copyTo_catchUp]
  | push register =>
      simp only [execute, Machine.registers_catchUp, WordReg.read_catchUp]
      rfl
  | pop register =>
      exact m.pop.2.modifyRegisters_catchUp (register.write · _) (register.write_catchUp · _)
  | exchangeStackTop register =>
      simp only [execute, Machine.registers_catchUp, WordReg.read_catchUp]
      exact (m.writeWord _ _).modifyRegisters_catchUp (register.write · _)
        (register.write_catchUp · _)
  | input destination =>
      cases destination with
      | none => rfl
      | some reg => cases reg <;> rfl
  | output source =>
      cases source with
      | none => rfl
      | some reg =>
          simp only [execute, Machine.registers_catchUp, ByteReg.read_catchUp]
          rfl
  | block kind direction => exact kind.round_catchUp direction m
  | nop | loadAFromI | loadIFromA | loadHLFromStack _ | addToStack _ | negate | complement
  | setCarry | rotateDigitLeft | rotateDigitRight | exchangeDEHL | exchangeAccumulators
  | exchangeBanks | enableInterrupts _ | interruptMode _ | inputImmediate _
  | outputImmediate _ => rfl

namespace Exit

/-- An exit overwrites PC, so it does not matter what it was, and it keeps the refresh
counter. -/
theorem execute_catchUp (e : Exit) (next : Word) (m : Machine ω η) :
    e.execute next (m.catchUp pc k) =
      ((e.execute next m).1.modifyRegisters (·.refresh k), (e.execute next m).2) := by
  have hf : (m.catchUp pc k).registers.flags = m.registers.flags := rfl
  have hb : (m.catchUp pc k).registers.bank = m.registers.bank := rfl
  cases e with
  | jump target => rfl
  | jumpIf condition target taken | callIf condition target taken =>
      simp only [execute, hf]
      split <;> rfl
  | retIf condition taken =>
      simp only [execute, hf]
      split <;> rfl
  | jumpToRegister register =>
      simp only [execute, transfer, Machine.registers_catchUp, WordReg.read_catchUp]
      rfl
  | decrementAndJump target taken =>
      simp only [execute, hb]
      split <;> rfl
  | repeatBlock kind direction =>
      simp only [execute, kind.iterate_catchUp]
      rfl
  | call _ | ret | returnFromInterrupt | returnAndEnableInterrupts | halt => rfl

end Exit
end Z80
