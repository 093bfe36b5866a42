import Z80.Block

/-!
How the flags are packed shows only where AF is moved as a word. Every other instruction
does the same in either layout and leaves it as it is.
-/

namespace Z80

variable {ω η : Type}

def Registers.withLayout (layout : FlagLayout) (r : Registers) : Registers :=
  { r with layout := layout }

def Machine.withLayout (layout : FlagLayout) (m : Machine ω η) : Machine ω η :=
  m.modifyRegisters (.withLayout layout)

namespace Operand

def sparesAF : Operand → Bool
  | indirect pointer | indexed pointer _ => pointer != .af
  | _ => true

end Operand

namespace Operation

/-- The operation does not name AF. -/
def sparesAF : Operation → Bool
  | load destination source | loadAndMove destination source _ =>
      destination.sparesAF && source.sparesAF
  | loadWord register _ | fetchWord register _ | storeWord _ register | incrementWord register
  | decrementWord register | addWordWithCarry register | subtractWordWithCarry register
  | push register | pop register | exchangeStackTop register => register != .af
  | copyWord destination source | addWord destination source =>
      destination != .af && source != .af
  | binary _ operand | increment operand | decrement operand | shift _ operand _
  | testBit _ operand | assignBit _ _ operand _ => operand.sparesAF
  | _ => true

end Operation

namespace Exit

def sparesAF : Exit → Bool
  | jumpToRegister register => register != .af
  | _ => true

end Exit

variable {layout : FlagLayout}

theorem ByteReg.read_withLayout (reg : ByteReg) (r : Registers) :
    reg.read (r.withLayout layout) = reg.read r := by
  cases reg <;> rfl

theorem ByteReg.write_withLayout (reg : ByteReg) (r : Registers) (value : Byte) :
    reg.write (r.withLayout layout) value = (reg.write r value).withLayout layout := by
  cases reg <;> rfl

theorem WordReg.read_withLayout {reg : WordReg} (h : reg ≠ .af) (r : Registers) :
    reg.read (r.withLayout layout) = reg.read r := by
  cases reg with
  | af => exact absurd rfl h
  | bc | de | hl | sp | ix | iy => rfl

theorem WordReg.write_withLayout {reg : WordReg} (h : reg ≠ .af) (r : Registers) (value : Word) :
    reg.write (r.withLayout layout) value = (reg.write r value).withLayout layout := by
  cases reg with
  | af => exact absurd rfl h
  | bc | de | hl | sp | ix | iy => rfl

theorem Operand.address?_withLayout {operand : Operand} (h : operand.sparesAF = true)
    (r : Registers) : operand.address? (r.withLayout layout) = operand.address? r := by
  cases operand with
  | register _ | immediate _ | absolute _ | highPage _ | highPageC => rfl
  | indirect pointer | indexed pointer _ =>
      simp only [address?, WordReg.read_withLayout (bne_iff_ne.mp h)]

namespace Machine

theorem modifyRegisters_withLayout (m : Machine ω η) (f : Registers → Registers)
    (hf : ∀ r, f (r.withLayout layout) = (f r).withLayout layout) :
    (m.withLayout layout).modifyRegisters f = (m.modifyRegisters f).withLayout layout := by
  simp only [withLayout, modifyRegisters, hf]

theorem registers_withLayout (m : Machine ω η) :
    (m.withLayout layout).registers = m.registers.withLayout layout := rfl

theorem read_withLayout {operand : Operand} (h : operand.sparesAF = true) (m : Machine ω η) :
    (m.withLayout layout).read operand = m.read operand := by
  have ha : operand.address? (m.registers.withLayout layout) = operand.address? m.registers :=
    Operand.address?_withLayout h m.registers
  cases operand with
  | register reg => exact reg.read_withLayout m.registers
  | immediate _ => rfl
  | indirect _ | indexed _ _ | absolute _ | highPage _ | highPageC =>
      simp only [read, registers_withLayout, ha]
      rfl

theorem copyTo_withLayout (m : Machine ω η) (register : Option ByteReg) (value : Byte) :
    (m.withLayout layout).copyTo register value = (m.copyTo register value).withLayout layout := by
  cases register with
  | none => rfl
  | some reg =>
      exact m.modifyRegisters_withLayout (reg.write · value) (reg.write_withLayout · value)

variable [Observer ω]

theorem write_withLayout {operand : Operand} (h : operand.sparesAF = true) (m : Machine ω η)
    (value : Byte) :
    (m.withLayout layout).write operand value = (m.write operand value).withLayout layout := by
  have ha : operand.address? (m.registers.withLayout layout) = operand.address? m.registers :=
    Operand.address?_withLayout h m.registers
  cases operand with
  | register reg =>
      exact m.modifyRegisters_withLayout (reg.write · value) (reg.write_withLayout · value)
  | immediate _ => rfl
  | indirect _ | indexed _ _ | absolute _ | highPage _ | highPageC =>
      simp only [write, registers_withLayout, ha]
      rfl

theorem transform_withLayout {operand : Operand} (h : operand.sparesAF = true) (m : Machine ω η)
    (f : Flags → Byte → Byte × Flags) :
    (m.withLayout layout).transform operand f =
      ((m.transform operand f).1, (m.transform operand f).2.withLayout layout) := by
  simp only [transform, read_withLayout h]
  exact congrArg (Prod.mk _) (write_withLayout h (m.setFlags _) _)

end Machine

variable [Host η] [Observer ω]

theorem BlockInstruction.iterate_withLayout (kind : BlockInstruction) (direction : Direction)
    (rounds : Nat) (m : Machine ω η) (cost : Cost) :
    kind.iterate direction rounds (m.withLayout layout) cost =
      ((kind.iterate direction rounds m cost).1.withLayout layout,
        (kind.iterate direction rounds m cost).2) := by
  induction rounds generalizing m cost with
  | zero => rfl
  | succ rounds ih =>
      have hr : kind.round direction (m.withLayout layout) =
          (kind.round direction m).withLayout layout := by
        cases kind <;> rfl
      have hf : kind.isFinished ((kind.round direction m).withLayout layout).registers =
          kind.isFinished (kind.round direction m).registers := by
        cases kind <;> rfl
      simp only [iterate, hr, hf]
      split
      · rfl
      · exact ih _ _

/-- An operation that does not name AF keeps to itself how the flags are packed. -/
theorem Operation.execute_withLayout {op : Operation} (h : op.sparesAF = true) (fetched : Nat)
    (m : Machine ω η) :
    op.execute fetched (m.withLayout layout) = (op.execute fetched m).withLayout layout := by
  cases op with
  | load destination source =>
      obtain ⟨hd, hs⟩ := Bool.and_eq_true_iff.mp h
      simp only [execute, Machine.read_withLayout hs, Machine.write_withLayout hd]
  | loadAndMove destination source direction =>
      obtain ⟨hd, hs⟩ := Bool.and_eq_true_iff.mp h
      simp only [execute, Machine.read_withLayout hs, Machine.write_withLayout hd]
      rfl
  | loadWord register _ | fetchWord register _ =>
      exact m.modifyRegisters_withLayout (register.write · _)
        (WordReg.write_withLayout (bne_iff_ne.mp h) · _)
  | copyWord destination source =>
      obtain ⟨hd, hs⟩ := Bool.and_eq_true_iff.mp h
      simp only [execute]
      refine m.modifyRegisters_withLayout _ fun r => ?_
      rw [WordReg.read_withLayout (bne_iff_ne.mp hs), WordReg.write_withLayout (bne_iff_ne.mp hd)]
  | storeWord _ register | push register =>
      simp only [execute, Machine.registers_withLayout,
        WordReg.read_withLayout (bne_iff_ne.mp h)]
      rfl
  | binary op source =>
      have hs : source.sparesAF = true := h
      simp only [execute, Machine.read_withLayout hs]
      rfl
  | increment operand | decrement operand =>
      have ho : operand.sparesAF = true := h
      simp only [execute, Machine.transform_withLayout ho]
  | shift op operand copy =>
      have ho : operand.sparesAF = true := h
      simp only [execute, Machine.transform_withLayout ho, Machine.copyTo_withLayout]
  | incrementWord register | decrementWord register =>
      have hr := bne_iff_ne.mp h
      simp only [execute]
      refine m.modifyRegisters_withLayout _ fun r => ?_
      rw [WordReg.read_withLayout hr, WordReg.write_withLayout hr]
  | addWord destination source =>
      obtain ⟨hd, hs⟩ := Bool.and_eq_true_iff.mp h
      simp only [execute]
      refine m.modifyRegisters_withLayout _ fun r => ?_
      simp only [WordReg.read_withLayout (bne_iff_ne.mp hd),
        WordReg.read_withLayout (bne_iff_ne.mp hs)]
      exact WordReg.write_withLayout (bne_iff_ne.mp hd)
        (r.setFlags (Alu.addWords r.flags (destination.read r) (source.read r)).2) _
  | addWordWithCarry source | subtractWordWithCarry source =>
      simp only [execute]
      refine m.modifyRegisters_withLayout _ fun r => ?_
      rw [WordReg.read_withLayout (bne_iff_ne.mp h)]
      rfl
  | testBit bit operand =>
      have hr : (m.withLayout layout).read operand = m.read operand := Machine.read_withLayout h m
      cases operand with
      | indexed pointer displacement =>
          simp only [execute, hr, Machine.registers_withLayout,
            WordReg.read_withLayout (bne_iff_ne.mp h)]
          rfl
      | register _ | immediate _ | indirect _ | absolute _ | highPage _ | highPageC =>
          simp only [execute, hr]
          rfl
  | assignBit bit value operand copy =>
      have ho : operand.sparesAF = true := h
      simp only [execute, Machine.read_withLayout ho, Machine.write_withLayout ho,
        Machine.copyTo_withLayout]
  | pop register =>
      exact m.pop.2.modifyRegisters_withLayout (register.write · _)
        (WordReg.write_withLayout (bne_iff_ne.mp h) · _)
  | exchangeStackTop register =>
      simp only [execute, Machine.registers_withLayout,
        WordReg.read_withLayout (bne_iff_ne.mp h)]
      exact (m.writeWord _ _).modifyRegisters_withLayout (register.write · _)
        (WordReg.write_withLayout (bne_iff_ne.mp h) · _)
  | input destination =>
      cases destination with
      | none => rfl
      | some reg => cases reg <;> rfl
  | output source =>
      cases source with
      | none => rfl
      | some reg =>
          simp only [execute, Machine.registers_withLayout, ByteReg.read_withLayout]
          rfl
  | shiftAccumulator _ mode | decimalAdjust mode | invertCarry mode => cases mode <;> rfl
  | block kind direction => cases kind <;> rfl
  | nop | loadAFromI | loadIFromA | loadAFromR | loadRFromA | loadHLFromStack _ | addToStack _
  | negate | complement | setCarry | rotateDigitLeft | rotateDigitRight | exchangeDEHL
  | exchangeAccumulators | exchangeBanks | enableInterrupts _ | interruptMode _
  | inputImmediate _ | outputImmediate _ => rfl

theorem Exit.execute_withLayout {e : Exit} (h : e.sparesAF = true) (next : Word)
    (m : Machine ω η) :
    e.execute next (m.withLayout layout) =
      ((e.execute next m).1.withLayout layout, (e.execute next m).2) := by
  have hf : (m.withLayout layout).registers.flags = m.registers.flags := rfl
  have hb : (m.withLayout layout).registers.bank = m.registers.bank := rfl
  cases e with
  | jumpIf condition target taken | callIf condition target taken =>
      simp only [execute, hf]
      split <;> rfl
  | retIf condition taken =>
      simp only [execute, hf]
      split <;> rfl
  | jumpToRegister register =>
      simp only [execute, Machine.registers_withLayout,
        WordReg.read_withLayout (bne_iff_ne.mp h)]
      rfl
  | decrementAndJump target taken =>
      simp only [execute, hb]
      split <;> rfl
  | repeatBlock kind direction =>
      simp only [execute, kind.iterate_withLayout]
      rfl
  | jump _ | call _ | ret | returnFromInterrupt | returnAndEnableInterrupts | halt => rfl

end Z80
