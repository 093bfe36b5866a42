import Z80.Block

/-!
Relations between two machines that instructions cannot tell apart. The machines may
watch their buses with different observers and live in different surroundings; it is
enough that the registers are equal, that reads give equal values, and that equal accesses
keep the machines related. A property that accesses keep is the case of one machine.
-/

namespace Z80

variable {ω η ω' η' : Type} [Observer ω] [Host η] [Observer ω'] [Host η']

structure Machine.Simulation (R : Machine ω η → Machine ω' η' → Prop) : Prop where
  registers {m n} : R m n → m.registers = n.registers
  modifyRegisters {m n} : R m n → ∀ f, R (m.modifyRegisters f) (n.modifyRegisters f)
  readByte {m n} : R m n → ∀ address, m.readByte address = n.readByte address
  readWord {m n} : R m n → ∀ address, m.readWord address = n.readWord address
  writeByte {m n} : R m n → ∀ address value,
    R (m.writeByte address value) (n.writeByte address value)
  writeWord {m n} : R m n → ∀ address value,
    R (m.writeWord address value) (n.writeWord address value)
  readPort {m n} : R m n → ∀ port context,
    (m.readPort port context).1 = (n.readPort port context).1 ∧
      R (m.readPort port context).2 (n.readPort port context).2
  writePort {m n} : R m n → ∀ port context value,
    R (m.writePort port context value) (n.writePort port context value)

namespace Machine.Simulation

variable {R : Machine ω η → Machine ω' η' → Prop} {m : Machine ω η} {n : Machine ω' η'}

theorem read (S : Simulation R) (h : R m n) (operand : Operand) :
    m.read operand = n.read operand := by
  cases operand with
  | register _ | immediate _ => simp only [Machine.read, S.registers h]
  | indirect _ | indexed _ _ | absolute _ | highPage _ | highPageC =>
      simp only [Machine.read, Operand.address?, S.registers h, S.readByte h]

theorem write (S : Simulation R) (h : R m n) (operand : Operand) (value : Byte) :
    R (m.write operand value) (n.write operand value) := by
  cases operand with
  | register reg => exact S.modifyRegisters h (reg.write · value)
  | immediate _ => exact h
  | indirect _ | indexed _ _ | absolute _ | highPage _ | highPageC =>
      simp only [Machine.write, Operand.address?, S.registers h]
      exact S.writeByte h _ value

theorem push (S : Simulation R) (h : R m n) (value : Word) : R (m.push value) (n.push value) := by
  simp only [Machine.push, S.registers h]
  exact S.writeWord (S.modifyRegisters h _) _ value

theorem pop (S : Simulation R) (h : R m n) : m.pop.1 = n.pop.1 ∧ R m.pop.2 n.pop.2 := by
  simp only [Machine.pop, S.registers h]
  exact ⟨S.readWord h _, S.modifyRegisters h _⟩

theorem setFlags (S : Simulation R) (h : R m n) (f : Flags) : R (m.setFlags f) (n.setFlags f) :=
  S.modifyRegisters h (·.setFlags f)

theorem setPC (S : Simulation R) (h : R m n) (address : Word) :
    R (m.setPC address) (n.setPC address) :=
  S.modifyRegisters h fun r => { r with pc := address }

theorem transform (S : Simulation R) (h : R m n) (operand : Operand)
    (f : Flags → Byte → Byte × Flags) :
    (m.transform operand f).1 = (n.transform operand f).1 ∧
      R (m.transform operand f).2 (n.transform operand f).2 := by
  simp only [Machine.transform, S.registers h, S.read h, true_and]
  exact S.write (S.setFlags h _) operand _

theorem transformAccumulator (S : Simulation R) (h : R m n) (f : Flags → Byte → Byte × Flags) :
    R (m.transformAccumulator f) (n.transformAccumulator f) :=
  S.modifyRegisters h fun r => r.setAccumulator (f r.flags r.a)

theorem copyTo (S : Simulation R) (h : R m n) (register : Option ByteReg) (value : Byte) :
    R (m.copyTo register value) (n.copyTo register value) := by
  cases register with
  | none => exact h
  | some reg => exact S.modifyRegisters h (reg.write · value)

theorem rotateDigit (S : Simulation R) (h : R m n)
    (f : Flags → Byte → Byte → Byte × Byte × Flags) : R (m.rotateDigit f) (n.rotateDigit f) := by
  simp only [Machine.rotateDigit, S.registers h, S.readByte h]
  exact S.writeByte (S.modifyRegisters h _) _ _

theorem round (S : Simulation R) (h : R m n) (kind : BlockInstruction) (direction : Direction) :
    R (kind.round direction m) (kind.round direction n) := by
  cases kind with
  | load =>
      simp only [BlockInstruction.round, S.registers h, S.readByte h]
      exact S.modifyRegisters (S.writeByte h _ _) _
  | compare =>
      simp only [BlockInstruction.round, S.registers h, S.readByte h]
      exact S.modifyRegisters h _
  | input =>
      obtain ⟨hv, hm⟩ := S.readPort h n.registers.bank.c n.registers.bank.b
      simp only [BlockInstruction.round, S.registers h, hv]
      exact S.modifyRegisters (S.writeByte hm _ _) _
  | output =>
      simp only [BlockInstruction.round, S.registers h, S.readByte h]
      exact S.modifyRegisters (S.writePort h _ _ _) _

theorem iterate (S : Simulation R) (h : R m n) (kind : BlockInstruction) (direction : Direction)
    (rounds : Nat) (cost : Cost) :
    R (kind.iterate direction rounds m cost).1 (kind.iterate direction rounds n cost).1 ∧
      (kind.iterate direction rounds m cost).2 = (kind.iterate direction rounds n cost).2 := by
  induction rounds generalizing m n cost with
  | zero => exact ⟨h, rfl⟩
  | succ rounds ih =>
      have hr := S.round h kind direction
      simp only [BlockInstruction.iterate, S.registers hr]
      split
      · exact ⟨hr, rfl⟩
      · exact ih hr _

theorem operation (S : Simulation R) (h : R m n) (op : Operation) (fetched : Nat) :
    R (op.execute fetched m) (op.execute fetched n) := by
  cases op with
  | nop => exact h
  | load destination source =>
      simp only [Operation.execute, S.read h]
      exact S.write h destination _
  | loadAndMove destination source direction =>
      simp only [Operation.execute, S.read h]
      exact S.modifyRegisters (S.write h destination _) _
  | fetchWord destination address =>
      simp only [Operation.execute, S.readWord h]
      exact S.modifyRegisters h _
  | storeWord address source =>
      simp only [Operation.execute, S.registers h]
      exact S.writeWord h address _
  | binary op source =>
      simp only [Operation.execute, S.read h]
      exact S.transformAccumulator h _
  | increment operand | decrement operand => exact (S.transform h operand _).2
  | shift op operand copy =>
      obtain ⟨hv, hm⟩ := S.transform h operand op.apply
      simp only [Operation.execute, hv]
      exact S.copyTo hm copy _
  | shiftAccumulator op mode =>
      have hm := S.transformAccumulator h op.applyAccumulator
      cases mode with
      | z80 => exact hm
      | gameBoy =>
          simp only [Operation.execute, S.registers hm]
          exact S.setFlags hm _
  | decimalAdjust mode => cases mode <;> exact S.transformAccumulator h _
  | negate | complement => exact S.transformAccumulator h _
  | rotateDigitLeft => exact S.rotateDigit h Alu.rotateDigitLeft
  | rotateDigitRight => exact S.rotateDigit h Alu.rotateDigitRight
  | testBit bit operand =>
      cases operand <;> simp only [Operation.execute, S.registers h, S.read h] <;>
        exact S.setFlags h _
  | assignBit bit value operand copy =>
      simp only [Operation.execute, S.read h]
      exact S.copyTo (S.write h operand _) copy _
  | push register =>
      simp only [Operation.execute, S.registers h]
      exact S.push h _
  | pop register =>
      obtain ⟨hv, hm⟩ := S.pop h
      simp only [Operation.execute, hv]
      exact S.modifyRegisters hm _
  | exchangeStackTop register =>
      simp only [Operation.execute, S.registers h, S.readWord h]
      exact S.modifyRegisters (S.writeWord h _ _) _
  | inputImmediate port =>
      obtain ⟨hv, hm⟩ := S.readPort h port n.registers.a
      simp only [Operation.execute, S.registers h, hv]
      exact S.modifyRegisters hm _
  | outputImmediate port =>
      simp only [Operation.execute, S.registers h]
      exact S.writePort h port _ _
  | input destination =>
      obtain ⟨hv, hm⟩ := S.readPort h n.registers.bank.c n.registers.bank.b
      simp only [Operation.execute, S.registers h, hv, S.registers hm]
      exact S.copyTo (S.setFlags hm _) destination _
  | output source =>
      simp only [Operation.execute, S.registers h]
      exact S.writePort h _ _ _
  | block kind direction => exact S.round h kind direction
  -- The others change registers only.
  | loadWord _ _ | copyWord _ _ | loadAFromI | loadIFromA | loadAFromR | loadRFromA
  | loadHLFromStack _ | addToStack _ | incrementWord _ | decrementWord _ | addWord _ _
  | addWordWithCarry _ | subtractWordWithCarry _ | setCarry | invertCarry _ | exchangeDEHL
  | exchangeAccumulators | exchangeBanks | enableInterrupts _ | interruptMode _ =>
      simp only [Operation.execute]
      exact S.modifyRegisters h _

theorem exit (S : Simulation R) (h : R m n) (e : Exit) (next : Word) :
    R (e.execute next m).1 (e.execute next n).1 ∧ (e.execute next m).2 = (e.execute next n).2 := by
  cases e with
  | jump _ | halt => exact ⟨S.setPC h _, rfl⟩
  | jumpIf condition target taken =>
      simp only [Exit.execute, S.registers h]
      split <;> exact ⟨S.setPC h _, rfl⟩
  | jumpToRegister register =>
      simp only [Exit.execute, S.registers h]
      exact ⟨S.setPC h _, rfl⟩
  | decrementAndJump target taken =>
      simp only [Exit.execute, S.registers h]
      split <;> exact ⟨S.setPC (S.modifyRegisters h _) _, rfl⟩
  | call address => exact ⟨S.setPC (S.push h next) address, rfl⟩
  | callIf condition address taken =>
      simp only [Exit.execute, S.registers h]
      split
      · exact ⟨S.setPC (S.push h next) address, rfl⟩
      · exact ⟨S.setPC h next, rfl⟩
  | ret =>
      obtain ⟨hv, hm⟩ := S.pop h
      simp only [Exit.execute, hv]
      exact ⟨S.setPC hm _, rfl⟩
  | retIf condition taken =>
      obtain ⟨hv, hm⟩ := S.pop h
      simp only [Exit.execute, S.registers h, hv]
      split
      · exact ⟨S.setPC hm _, rfl⟩
      · exact ⟨S.setPC h next, rfl⟩
  | returnFromInterrupt =>
      obtain ⟨hv, hm⟩ := S.pop (S.modifyRegisters h fun r => { r with iff1 := r.iff2 })
      simp only [Exit.execute, hv]
      exact ⟨S.setPC hm _, rfl⟩
  | returnAndEnableInterrupts =>
      obtain ⟨hv, hm⟩ := S.pop (S.modifyRegisters h fun r => { r with iff1 := true, iff2 := true })
      simp only [Exit.execute, hv]
      exact ⟨S.setPC hm _, rfl⟩
  | repeatBlock kind direction =>
      obtain ⟨hm, hc⟩ := S.iterate h kind direction 0x10000 0
      exact ⟨S.setPC hm next, hc⟩

theorem lines (S : Simulation R) (lines : List Line) (h : R m n) :
    R (lines.foldl (fun m line => line.operation.execute line.fetched m) m)
      (lines.foldl (fun m line => line.operation.execute line.fetched m) n) := by
  induction lines generalizing m n with
  | nil => exact h
  | cons line rest ih => exact ih (S.operation h line.operation line.fetched)

/-- A block runs alike on related machines, and it costs the same. -/
theorem block (S : Simulation R) (h : R m n) (b : Block) :
    R (b.execute m).1 (b.execute n).1 ∧ (b.execute m).2 = (b.execute n).2 := by
  have hl := S.lines b.lines.toList h
  simp only [Array.foldl_toList] at hl
  cases he : b.exit? with
  | none =>
      simp only [Block.execute, he, and_true]
      exact S.modifyRegisters (S.setPC hl _) _
  | some e =>
      obtain ⟨hm, hc⟩ := S.exit hl e b.next
      simp only [Block.execute, he, hc, and_true]
      exact S.modifyRegisters hm _

end Machine.Simulation

/-- Each access of an instruction keeps the property. -/
structure Machine.Keeps (I : Machine ω η → Prop) : Prop where
  modifyRegisters {m} : I m → ∀ f, I (m.modifyRegisters f)
  writeByte {m} : I m → ∀ address value, I (m.writeByte address value)
  writeWord {m} : I m → ∀ address value, I (m.writeWord address value)
  readPort {m} : I m → ∀ port context, I (m.readPort port context).2
  writePort {m} : I m → ∀ port context value, I (m.writePort port context value)

namespace Machine.Keeps

variable {I : Machine ω η → Prop} {m : Machine ω η}

theorem simulation (K : Keeps I) : Simulation fun m n => m = n ∧ I m where
  registers h := congrArg registers h.1
  modifyRegisters h f := ⟨congrArg (·.modifyRegisters f) h.1, K.modifyRegisters h.2 f⟩
  readByte h a := congrArg (·.readByte a) h.1
  readWord h a := congrArg (·.readWord a) h.1
  writeByte h a value := ⟨congrArg (·.writeByte a value) h.1, K.writeByte h.2 a value⟩
  writeWord h a value := ⟨congrArg (·.writeWord a value) h.1, K.writeWord h.2 a value⟩
  readPort h port context :=
    ⟨congrArg (·.readPort port context |>.1) h.1, congrArg (·.readPort port context |>.2) h.1,
      K.readPort h.2 port context⟩
  writePort h port context value :=
    ⟨congrArg (·.writePort port context value) h.1, K.writePort h.2 port context value⟩

theorem block (K : Keeps I) (h : I m) (b : Block) : I (b.execute m).1 :=
  (K.simulation.block ⟨rfl, h⟩ b).1.2

end Machine.Keeps

/-- A block reaches its surroundings through the ports only: what these keep, it keeps. -/
theorem Block.keeps_execute {J : η → Interrupts η → Prop}
    (hr : ∀ port context h i, J h i →
      J ((Host.readPort port context h).run i).1.2 ((Host.readPort port context h).run i).2)
    (hw : ∀ port context value h i, J h i →
      J ((Host.writePort port context value h).run i).1
        ((Host.writePort port context value h).run i).2)
    (b : Block) {m : Machine ω η} (h : J m.host m.interrupts) :
    J (b.execute m).1.host (b.execute m).1.interrupts := by
  have hk : Machine.Keeps fun m : Machine ω η => J m.host m.interrupts := {
    modifyRegisters := fun h _ => h
    writeByte := fun h _ _ => h
    writeWord := fun h _ _ => h
    readPort := fun h port context => hr port context _ _ h
    writePort := fun h port context value => hw port context value _ _ h }
  exact hk.block h b

end Z80
