import Z80.Block

/-!
The state that a Game Boy does not have: index registers, I and R, the interrupt mode, IFF2,
the alternate banks and four of the flags. Its instructions compute some of it along the way
but never look at it, so that a machine in which it is blanked shows the same afterwards; and
of the rest they change none.
-/

namespace Z80

variable {ω η : Type}

namespace Flags

/-- S, P/V and the two undocumented flags are clear. -/
def blank (f : Flags) : Flags :=
  { f with sign := false, five := false, three := false, parityOverflow := false }

end Flags

/-- What a Game Boy neither reads nor writes, and the layout of its flags. -/
structure Idle where
  layout : FlagLayout
  ix : Word
  iy : Word
  i : Byte
  interruptMode : InterruptMode
  accumulator : Accumulator
  bank : Bank

namespace Registers

def idle (r : Registers) : Idle where
  layout := r.layout
  ix := r.ix
  iy := r.iy
  i := r.i
  interruptMode := r.interruptMode
  accumulator := r.alternateAccumulator
  bank := r.alternateBank

/-- The registers as a Game Boy shows them. -/
def blank (r : Registers) : Registers :=
  { r with
    accumulator := ⟨r.accumulator.a, r.accumulator.flags.blank⟩
    alternateAccumulator := ⟨0, .clear⟩
    alternateBank := ⟨0, 0, 0, 0, 0, 0⟩
    ix := 0
    iy := 0
    i := 0
    r := 0
    iff2 := false
    interruptMode := .im0 }

end Registers

def Machine.blank (m : Machine ω η) : Machine ω η :=
  m.modifyRegisters .blank

namespace ByteReg

def onGameBoy : ByteReg → Bool
  | a | b | c | d | e | h | l => true
  | ixh | ixl | iyh | iyl => false

end ByteReg

namespace WordReg

def onGameBoy : WordReg → Bool
  | af | bc | de | hl | sp => true
  | ix | iy => false

end WordReg

namespace Operand

def onGameBoy : Operand → Bool
  | register reg => reg.onGameBoy
  | indirect pointer => pointer.onGameBoy && pointer != .af
  | immediate _ | absolute _ | highPage _ | highPageC => true
  | indexed _ _ => false

end Operand

namespace Operation

/-- True of the operations that a Game Boy has. -/
def onGameBoy : Operation → Bool
  | load destination source | loadAndMove destination source _ =>
      destination.onGameBoy && source.onGameBoy
  | loadWord register _ | storeWord _ register | incrementWord register
  | decrementWord register | push register | pop register => register.onGameBoy
  | copyWord destination source | addWord destination source =>
      destination.onGameBoy && source.onGameBoy
  | binary _ operand | increment operand | decrement operand | testBit _ operand =>
      operand.onGameBoy
  | shift _ operand copy | assignBit _ _ operand copy => operand.onGameBoy && copy.isNone
  | nop | loadHLFromStack _ | addToStack _ | shiftAccumulator _ _ | decimalAdjust _
  | complement | setCarry | invertCarry _ | enableInterrupts _ => true
  | _ => false

end Operation

namespace Condition

def onGameBoy : Condition → Bool
  | nonZero | zero | noCarry | carry => true
  | parityOdd | parityEven | positive | minus => false

end Condition

namespace Exit

def onGameBoy : Exit → Bool
  | jumpIf condition _ _ | callIf condition _ _ | retIf condition _ => condition.onGameBoy
  | jumpToRegister register => register.onGameBoy && register != .af
  | jump _ | call _ | ret | returnAndEnableInterrupts | halt => true
  | decrementAndJump _ _ | returnFromInterrupt | repeatBlock _ _ => false

end Exit

/-- The function looks at no flag that a Game Boy does not have. -/
def ShownOnly {α : Type} (f : Flags → α × Flags) : Prop :=
  ∀ flags, (f flags.blank).1 = (f flags).1 ∧ (f flags.blank).2.blank = (f flags).2.blank

theorem ByteReg.read_blank {reg : ByteReg} (h : reg.onGameBoy = true) (r : Registers) :
    reg.read r.blank = reg.read r := by
  cases reg with
  | a | b | c | d | e | h | l => rfl
  | ixh | ixl | iyh | iyl => cases h

theorem ByteReg.blank_write (reg : ByteReg) (r : Registers) (value : Byte) :
    (reg.write r.blank value).blank = (reg.write r value).blank := by
  cases reg <;> rfl

theorem ByteReg.idle_write {reg : ByteReg} (h : reg.onGameBoy = true) (r : Registers)
    (value : Byte) : (reg.write r value).idle = r.idle := by
  cases reg with
  | a | b | c | d | e | h | l => rfl
  | ixh | ixl | iyh | iyl => cases h

theorem pack_blank (f : Flags) :
    FlagLayout.gameBoy.pack f.blank = FlagLayout.gameBoy.pack f := rfl

theorem WordReg.read_blank {reg : WordReg} (h : reg.onGameBoy = true) {r : Registers}
    (hl : r.layout = .gameBoy) : reg.read r.blank = reg.read r := by
  cases reg with
  | af =>
      simp only [read, Registers.af, Accumulator.toWord, Registers.blank, hl, pack_blank]
  | bc | de | hl | sp => rfl
  | ix | iy => cases h

theorem WordReg.read_blank_of_ne {reg : WordReg} (h : reg.onGameBoy = true) (ha : reg ≠ .af)
    (r : Registers) : reg.read r.blank = reg.read r := by
  cases reg with
  | af => exact absurd rfl ha
  | bc | de | hl | sp => rfl
  | ix | iy => cases h

theorem WordReg.blank_write (reg : WordReg) (r : Registers) (value : Word) :
    (reg.write r.blank value).blank = (reg.write r value).blank := by
  cases reg <;> rfl

theorem WordReg.idle_write {reg : WordReg} (h : reg.onGameBoy = true) (r : Registers)
    (value : Word) : (reg.write r value).idle = r.idle := by
  cases reg with
  | af | bc | de | hl | sp => rfl
  | ix | iy => cases h

theorem Operand.address?_blank {operand : Operand} (h : operand.onGameBoy = true)
    (r : Registers) : operand.address? r.blank = operand.address? r := by
  cases operand with
  | indirect pointer =>
      simp only [onGameBoy, Bool.and_eq_true, bne_iff_ne] at h
      simp only [address?, WordReg.read_blank_of_ne h.1 h.2]
  | register _ | immediate _ | absolute _ | highPage _ | highPageC => rfl
  | indexed _ _ => cases h

theorem Condition.holds_blank {condition : Condition} (h : condition.onGameBoy = true)
    (f : Flags) : condition.holds f.blank = condition.holds f := by
  cases condition with
  | nonZero | zero | noCarry | carry => rfl
  | parityOdd | parityEven | positive | minus => cases h

theorem Binary.shownOnly_apply (op : Binary) (a value : Byte) :
    ShownOnly fun f => op.apply f a value := by
  cases op <;> exact fun _ => ⟨rfl, rfl⟩

theorem Shift.shownOnly_apply (op : Shift) (value : Byte) :
    ShownOnly fun f => op.apply f value := by
  cases op <;> exact fun _ => ⟨rfl, rfl⟩

theorem Shift.shownOnly_applyAccumulator (op : Shift) (value : Byte) :
    ShownOnly fun f => op.applyAccumulator f value := by
  cases op <;> exact fun _ => ⟨rfl, rfl⟩

namespace Machine

theorem registers_blank (m : Machine ω η) : m.blank.registers = m.registers.blank := rfl

theorem modifyRegisters_blank (m : Machine ω η) (f : Registers → Registers)
    (hf : (f m.registers.blank).blank = (f m.registers).blank) :
    (m.blank.modifyRegisters f).blank = (m.modifyRegisters f).blank := by
  simp only [blank, modifyRegisters, hf]

theorem modifyRegisters_congr {m n : Machine ω η} (h : m.blank = n.blank)
    (f : Registers → Registers) (hf : ∀ r, (f r.blank).blank = (f r).blank) :
    (m.modifyRegisters f).blank = (n.modifyRegisters f).blank := by
  rw [← m.modifyRegisters_blank f (hf _), h, n.modifyRegisters_blank f (hf _)]

theorem read_blank (m : Machine ω η) {operand : Operand} (h : operand.onGameBoy = true) :
    m.blank.read operand = m.read operand := by
  have ha := operand.address?_blank h m.registers
  cases operand with
  | register reg => exact reg.read_blank h m.registers
  | immediate _ | absolute _ | highPage _ => rfl
  | indirect _ | highPageC =>
      simp only [read, registers_blank, ha]
      rfl
  | indexed _ _ => cases h

theorem transformAccumulator_blank (m : Machine ω η) {f : Flags → Byte → Byte × Flags}
    (hf : ∀ value, ShownOnly fun flags => f flags value) :
    (m.blank.transformAccumulator f).blank = (m.transformAccumulator f).blank := by
  refine m.modifyRegisters_blank _ ?_
  obtain ⟨hv, hg⟩ := hf m.registers.a m.registers.flags
  simp only [Registers.setAccumulator, Registers.blank, Registers.flags, Registers.a] at hv hg ⊢
  rw [hv, hg]

variable [Observer ω]

theorem write_blank (m : Machine ω η) {operand : Operand} (h : operand.onGameBoy = true)
    (value : Byte) : (m.blank.write operand value).blank = (m.write operand value).blank := by
  have ha := operand.address?_blank h m.registers
  cases operand with
  | register reg => exact m.modifyRegisters_blank (reg.write · value) (reg.blank_write _ value)
  | immediate _ | absolute _ | highPage _ => rfl
  | indirect _ | highPageC =>
      simp only [write, registers_blank, ha]
      rfl
  | indexed _ _ => cases h

theorem write_congr {m n : Machine ω η} (hmn : m.blank = n.blank) {operand : Operand}
    (h : operand.onGameBoy = true) (value : Byte) :
    (m.write operand value).blank = (n.write operand value).blank := by
  rw [← m.write_blank h, hmn, n.write_blank h]

theorem transform_blank (m : Machine ω η) {operand : Operand} (h : operand.onGameBoy = true)
    {f : Flags → Byte → Byte × Flags} (hf : ∀ value, ShownOnly fun flags => f flags value) :
    (m.blank.transform operand f).2.blank = (m.transform operand f).2.blank := by
  obtain ⟨hv, hg⟩ := hf (m.read operand) m.registers.flags
  have hs : (m.blank.setFlags (f m.registers.flags.blank (m.read operand)).2).blank =
      (m.setFlags (f m.registers.flags (m.read operand)).2).blank := by
    simp only [blank, setFlags, modifyRegisters, Registers.setFlags, Registers.blank] at hg ⊢
    rw [hg]
  simp only [transform, m.read_blank h]
  refine (write_congr hs h _).trans ?_
  exact congrArg (fun value => ((m.setFlags _).write operand value).blank) hv

theorem idle_write (m : Machine ω η) {operand : Operand} (h : operand.onGameBoy = true)
    (value : Byte) : (m.write operand value).registers.idle = m.registers.idle := by
  cases operand with
  | register reg => exact reg.idle_write h m.registers value
  | immediate _ | absolute _ | highPage _ | indirect _ | highPageC => rfl
  | indexed _ _ => cases h

end Machine

variable [Observer ω] [Host η]

theorem Operation.blank_execute {op : Operation} (h : op.onGameBoy = true) (fetched : Nat)
    {m : Machine ω η} (hl : m.registers.layout = .gameBoy) :
    (op.execute fetched m.blank).blank = (op.execute fetched m).blank := by
  cases op with
  | load destination source =>
      replace h := Bool.and_eq_true_iff.mp h
      simp only [execute, m.read_blank h.2]
      exact m.write_blank h.1 _
  | loadAndMove destination source direction =>
      replace h := Bool.and_eq_true_iff.mp h
      simp only [execute, m.read_blank h.2]
      exact Machine.modifyRegisters_congr (m.write_blank h.1 _) _ fun _ => rfl
  | loadWord register value =>
      exact m.modifyRegisters_blank (register.write · value) (register.blank_write _ value)
  | copyWord destination source =>
      replace h := Bool.and_eq_true_iff.mp h
      refine m.modifyRegisters_blank (fun r => destination.write r (source.read r)) ?_
      simp only [source.read_blank h.2 hl, destination.blank_write]
  | storeWord address register =>
      simp only [execute, Machine.registers_blank, register.read_blank h hl]
      rfl
  | incrementWord register =>
      refine m.modifyRegisters_blank (fun r => register.write r (register.read r + 1)) ?_
      simp only [register.read_blank h hl, register.blank_write]
  | decrementWord register =>
      refine m.modifyRegisters_blank (fun r => register.write r (register.read r - 1)) ?_
      simp only [register.read_blank h hl, register.blank_write]
  | addWord destination source =>
      replace h := Bool.and_eq_true_iff.mp h
      refine m.modifyRegisters_blank _ ?_
      simp only [destination.read_blank h.1 hl, source.read_blank h.2 hl]
      rw [← destination.blank_write, ← destination.blank_write (m.registers.setFlags _)]
      rfl
  | push register =>
      simp only [execute, Machine.registers_blank, register.read_blank h hl]
      rfl
  | pop register =>
      exact Machine.modifyRegisters_congr (m := m.blank.pop.2) (n := m.pop.2) rfl _
        (register.blank_write · _)
  | binary op operand =>
      simp only [execute, m.read_blank h]
      exact m.transformAccumulator_blank (op.shownOnly_apply · _)
  | increment operand | decrement operand =>
      exact m.transform_blank h fun _ _ => ⟨rfl, rfl⟩
  | shift op operand copy =>
      replace h := Bool.and_eq_true_iff.mp h
      rw [Option.isNone_iff_eq_none] at h
      obtain ⟨h, rfl⟩ := h
      exact m.transform_blank h op.shownOnly_apply
  | shiftAccumulator op mode =>
      have ha := m.transformAccumulator_blank op.shownOnly_applyAccumulator
      cases mode with
      | z80 => exact ha
      | gameBoy =>
          exact Machine.modifyRegisters_congr ha
            (fun r => r.setFlags { r.flags with zero := false }) fun _ => rfl
  | decimalAdjust mode =>
      cases mode <;> exact m.transformAccumulator_blank fun _ _ => ⟨rfl, rfl⟩
  | complement => exact m.transformAccumulator_blank fun _ _ => ⟨rfl, rfl⟩
  | testBit bit operand =>
      have hr : m.blank.read operand = m.read operand := m.read_blank h
      cases operand with
      | indexed _ _ => cases h
      | register _ | immediate _ | indirect _ | absolute _ | highPage _ | highPageC =>
          simp only [execute, hr]
          rfl
  | assignBit bit value operand copy =>
      replace h := Bool.and_eq_true_iff.mp h
      rw [Option.isNone_iff_eq_none] at h
      obtain ⟨h, rfl⟩ := h
      simp only [execute, m.read_blank h]
      exact m.write_blank h _
  | invertCarry mode => cases mode <;> rfl
  | nop | loadHLFromStack _ | addToStack _ | setCarry | enableInterrupts _ => rfl
  | _ => cases h

/-- Machines that show the same to a Game Boy do so behind an operation. -/
theorem Operation.execute_congr {op : Operation} (h : op.onGameBoy = true) (fetched : Nat)
    {m n : Machine ω η} (hmn : m.blank = n.blank) (hl : m.registers.layout = .gameBoy) :
    (op.execute fetched m).blank = (op.execute fetched n).blank := by
  have hn : n.registers.layout = .gameBoy :=
    (congrArg (fun k : Machine ω η => k.registers.layout) hmn).symm.trans hl
  rw [← blank_execute h fetched hl, hmn, blank_execute h fetched hn]

theorem Operation.idle_execute {op : Operation} (h : op.onGameBoy = true) (fetched : Nat)
    (m : Machine ω η) : (op.execute fetched m).registers.idle = m.registers.idle := by
  cases op with
  | load destination source =>
      replace h := Bool.and_eq_true_iff.mp h
      exact m.idle_write h.1 _
  | loadAndMove destination source direction =>
      replace h := Bool.and_eq_true_iff.mp h
      exact m.idle_write h.1 _
  | loadWord register _ | incrementWord register | decrementWord register =>
      exact register.idle_write h m.registers _
  | copyWord destination source =>
      replace h := Bool.and_eq_true_iff.mp h
      exact destination.idle_write h.1 m.registers _
  | addWord destination source =>
      replace h := Bool.and_eq_true_iff.mp h
      exact destination.idle_write h.1 (m.registers.setFlags _) _
  | pop register => exact register.idle_write h m.pop.2.registers _
  | increment operand | decrement operand => exact (m.setFlags _).idle_write h _
  | shift op operand copy =>
      replace h := Bool.and_eq_true_iff.mp h
      rw [Option.isNone_iff_eq_none] at h
      obtain ⟨h, rfl⟩ := h
      exact (m.setFlags _).idle_write h _
  | assignBit bit value operand copy =>
      replace h := Bool.and_eq_true_iff.mp h
      rw [Option.isNone_iff_eq_none] at h
      obtain ⟨h, rfl⟩ := h
      exact m.idle_write h _
  | testBit bit operand => cases operand <;> rfl
  | shiftAccumulator op mode => cases mode <;> rfl
  | decimalAdjust mode | invertCarry mode => cases mode <;> rfl
  | nop | storeWord _ _ | loadHLFromStack _ | addToStack _ | push _ | binary _ _ | complement
  | setCarry | enableInterrupts _ => rfl
  | _ => cases h

namespace Exit

theorem blank_execute {e : Exit} (h : e.onGameBoy = true) (next : Word) (m : Machine ω η) :
    (e.execute next m.blank).1.blank = (e.execute next m).1.blank ∧
      (e.execute next m.blank).2 = (e.execute next m).2 := by
  cases e with
  | jumpIf condition target taken | callIf condition target taken =>
      have hc : condition.holds m.blank.registers.flags = condition.holds m.registers.flags :=
        Condition.holds_blank h m.registers.flags
      simp only [execute, hc]
      split <;> exact ⟨rfl, rfl⟩
  | retIf condition taken =>
      have hc : condition.holds m.blank.registers.flags = condition.holds m.registers.flags :=
        Condition.holds_blank h m.registers.flags
      simp only [execute, hc]
      split <;> exact ⟨rfl, rfl⟩
  | jumpToRegister register =>
      simp only [onGameBoy, Bool.and_eq_true, bne_iff_ne] at h
      simp only [execute, transfer, Machine.registers_blank, register.read_blank_of_ne h.1 h.2]
      exact ⟨rfl, trivial⟩
  | jump _ | call _ | ret | returnAndEnableInterrupts | halt => exact ⟨rfl, rfl⟩
  | decrementAndJump _ _ | returnFromInterrupt | repeatBlock _ _ => cases h

theorem execute_congr {e : Exit} (h : e.onGameBoy = true) (next : Word) {m n : Machine ω η}
    (hmn : m.blank = n.blank) :
    (e.execute next m).1.blank = (e.execute next n).1.blank ∧
      (e.execute next m).2 = (e.execute next n).2 := by
  rw [← (blank_execute h next m).1, ← (blank_execute h next m).2, hmn]
  exact blank_execute h next n

theorem idle_execute {e : Exit} (h : e.onGameBoy = true) (next : Word) (m : Machine ω η) :
    (e.execute next m).1.registers.idle = m.registers.idle := by
  cases e with
  | jumpIf _ _ _ | callIf _ _ _ | retIf _ _ =>
      simp only [execute]
      split <;> rfl
  | jump _ | jumpToRegister _ | call _ | ret | returnAndEnableInterrupts | halt => rfl
  | decrementAndJump _ _ | returnFromInterrupt | repeatBlock _ _ => cases h

end Exit

end Z80
