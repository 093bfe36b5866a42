import Mathlib.Logic.Function.Iterate
import Z80.Proofs.Block.Prefix

/-!
The repeating block instructions are their single forms in a loop. What ends the loop is the
counter, which every round moves towards zero, or the comparison that finds its byte; so the
loop ends, and a counter that starts at zero goes all the way round.
-/

namespace Z80

variable {ω η : Type}

namespace BlockInstruction

/-- After a round there is nothing left to repeat: the counter is used up, or the byte that
was compared, from which HL has just moved away, is the one in A. -/
def Done (kind : BlockInstruction) (direction : Direction) (m : Machine ω η) : Prop :=
  match kind with
  | load => m.registers.bc = 0
  | compare =>
    m.registers.bc = 0 ∨ m.readByte (m.registers.hl - direction.delta) = m.registers.a
  | input | output => m.registers.bank.b = 0

/-- The rounds until the counter is zero again. -/
def roundsLeft (kind : BlockInstruction) (r : Registers) : Nat :=
  match kind with
  | load | compare => (r.bc - 1).toNat + 1
  | input | output => (r.bank.b - 1).toNat + 1

/-- The rounds of a counter that starts at zero. -/
def mostRounds : BlockInstruction → Nat
  | load | compare => 0x10000
  | input | output => 0x100

theorem roundsLeft_le (kind : BlockInstruction) (r : Registers) :
    kind.roundsLeft r ≤ kind.mostRounds := by
  cases kind with
  | load | compare => exact (r.bc - 1).toNat_lt
  | input | output => exact (r.bank.b - 1).toNat_lt

theorem mostRounds_le (kind : BlockInstruction) : kind.mostRounds ≤ 0x10000 := by
  cases kind <;> decide

variable [Observer ω] [Host η] {kind : BlockInstruction} {direction : Direction}
  {m : Machine ω η}

theorem bc_round (direction : Direction) (m : Machine ω η) :
    (load.round direction m).registers.bc = m.registers.bc - 1 ∧
      (compare.round direction m).registers.bc = m.registers.bc - 1 :=
  ⟨Word.ofBytes_low_high _, Word.ofBytes_low_high _⟩

theorem b_round (direction : Direction) (m : Machine ω η) :
    (input.round direction m).registers.bank.b = m.registers.bank.b - 1 ∧
      (output.round direction m).registers.bank.b = m.registers.bank.b - 1 :=
  ⟨rfl, rfl⟩

/-- The comparison looks at memory only, which it leaves as it is. -/
theorem compared_round (direction : Direction) (m : Machine ω η) :
    (compare.round direction m).readByte
        ((compare.round direction m).registers.hl - direction.delta) =
      m.readByte m.registers.hl := by
  have h : (compare.round direction m).registers.hl = m.registers.hl + direction.delta :=
    Word.ofBytes_low_high _
  have hb : m.registers.hl + direction.delta - direction.delta = m.registers.hl := by grind
  rw [h, hb]
  rfl

theorem isFinished_round :
    kind.isFinished (kind.round direction m).registers = true ↔
      kind.Done direction (kind.round direction m) := by
  cases kind with
  | load | input | output => exact beq_iff_eq
  | compare =>
      have hz : (compare.round direction m).registers.flags.zero =
          (m.registers.a - m.readByte m.registers.hl == 0) := rfl
      have ha : (compare.round direction m).registers.a = m.registers.a := rfl
      simp only [isFinished, Done, compared_round, hz, ha, Bool.or_eq_true, beq_iff_eq]
      exact or_congr_right (by grind)

/-- A round that does not end the loop takes one from the counter. -/
theorem roundsLeft_round (h : ¬ kind.Done direction (kind.round direction m)) :
    kind.roundsLeft (kind.round direction m).registers + 1 = kind.roundsLeft m.registers := by
  have word {w : Word} (hw : w ≠ 0) : (w - 1).toNat + 1 = w.toNat := by
    have h0 : w.toNat ≠ 0 := fun h => hw (UInt16.toNat_inj.mp h)
    have hl := w.toNat_lt
    rw [UInt16.toNat_sub, UInt16.toNat_one]
    omega
  have byte {b : Byte} (hb : b ≠ 0) : (b - 1).toNat + 1 = b.toNat := by
    have h0 : b.toNat ≠ 0 := fun h => hb (UInt8.toNat_inj.mp h)
    have hl := b.toNat_lt
    rw [UInt8.toNat_sub, UInt8.toNat_one]
    omega
  cases kind with
  | load =>
      simp only [Done, roundsLeft, (bc_round direction m).1] at h ⊢
      rw [word h]
  | compare =>
      simp only [Done, roundsLeft, (bc_round direction m).2, not_or] at h ⊢
      rw [word h.1]
  | input =>
      simp only [Done, roundsLeft, (b_round direction m).1] at h ⊢
      rw [byte h]
  | output =>
      simp only [Done, roundsLeft, (b_round direction m).2] at h ⊢
      rw [byte h]

/-- Only a comparison ends the loop before its counter does. -/
theorem roundsLeft_eq_one (hk : kind ≠ .compare)
    (h : kind.Done direction (kind.round direction m)) : kind.roundsLeft m.registers = 1 := by
  cases kind with
  | compare => exact absurd rfl hk
  | load =>
      simp only [Done, (bc_round direction m).1] at h
      simp [roundsLeft, h]
  | input =>
      simp only [Done, (b_round direction m).1] at h
      simp [roundsLeft, h]
  | output =>
      simp only [Done, (b_round direction m).2] at h
      simp [roundsLeft, h]

/-- The first number of rounds behind which nothing is left to repeat. -/
structure Takes (kind : BlockInstruction) (direction : Direction) (m : Machine ω η)
    (rounds : Nat) : Prop where
  pos : 0 < rounds
  done : kind.Done direction ((kind.round direction)^[rounds] m)
  first : ∀ j, 0 < j → j < rounds → ¬ kind.Done direction ((kind.round direction)^[j] m)

namespace Takes

theorem one (h : kind.Done direction (kind.round direction m)) : kind.Takes direction m 1 where
  pos := Nat.one_pos
  done := h
  first _ h0 h1 := absurd h1 (Nat.not_lt.mpr h0)

theorem succ {k : Nat} (hn : ¬ kind.Done direction (kind.round direction m))
    (h : kind.Takes direction (kind.round direction m) k) : kind.Takes direction m (k + 1) where
  pos := Nat.succ_pos k
  done := h.done
  first j h0 h1 := by
    obtain ⟨j, rfl⟩ := Nat.exists_eq_succ_of_ne_zero (Nat.ne_of_gt h0)
    cases j with
    | zero => exact hn
    | succ j => exact h.first (j + 1) (Nat.succ_pos j) (Nat.succ_lt_succ_iff.mp h1)

theorem behind {k : Nat} (h : kind.Takes direction m (k + 2)) :
    kind.Takes direction (kind.round direction m) (k + 1) where
  pos := Nat.succ_pos k
  done := h.done
  first j _ h1 := h.first (j + 1) (Nat.succ_pos j) (Nat.succ_lt_succ h1)

/-- The loop ends, at the latest when the counter does. -/
theorem exists_takes (kind : BlockInstruction) (direction : Direction) (m : Machine ω η) :
    ∃ k, kind.Takes direction m k ∧ k ≤ kind.roundsLeft m.registers ∧
      (kind ≠ .compare → k = kind.roundsLeft m.registers) := by
  induction hn : kind.roundsLeft m.registers generalizing m with
  | zero => cases kind <;> exact absurd hn (Nat.succ_ne_zero _)
  | succ n ih =>
      by_cases h : kind.Done direction (kind.round direction m)
      · exact ⟨1, one h, by omega, fun hk => (roundsLeft_eq_one hk h).symm.trans hn⟩
      · have hl := roundsLeft_round h
        obtain ⟨k, hk, hle, he⟩ := ih (kind.round direction m) (by omega)
        exact ⟨k + 1, succ h hk, by omega, fun hc => congrArg (· + 1) (he hc)⟩

theorem unique {j k : Nat} (h : kind.Takes direction m j) (h' : kind.Takes direction m k) :
    j = k := by
  obtain hl | he | hl := Nat.lt_trichotomy j k
  · exact absurd h.done (h'.first j h.pos hl)
  · exact he
  · exact absurd h'.done (h.first k h'.pos hl)

theorem le_mostRounds {k : Nat} (h : kind.Takes direction m k) : k ≤ kind.mostRounds := by
  obtain ⟨j, hj, hle, -⟩ := exists_takes kind direction m
  exact unique h hj ▸ Nat.le_trans hle (kind.roundsLeft_le _)

theorem le {k : Nat} (h : kind.Takes direction m k) : k ≤ 0x10000 :=
  Nat.le_trans h.le_mostRounds kind.mostRounds_le

/-- The loop does its rounds and no more, however many it may. Those that it goes round again
after are paid for on top. -/
theorem iterate_eq {k : Nat} (h : kind.Takes direction m k) (rounds : Nat) (cost : Cost) :
    kind.iterate direction rounds m cost =
      ((kind.round direction)^[min rounds k] m,
        cost + ⟨5 * min rounds (k - 1), 21 * min rounds (k - 1)⟩) := by
  induction rounds generalizing m k cost with
  | zero =>
      rw [Nat.zero_min, Nat.zero_min]
      rfl
  | succ rounds ih =>
      obtain ⟨j, rfl⟩ := Nat.exists_eq_succ_of_ne_zero (Nat.ne_of_gt h.pos)
      simp only [iterate]
      cases j with
      | zero =>
          rw [if_pos (isFinished_round.mpr h.done), Nat.succ_min_succ, Nat.min_zero, Nat.min_zero]
          rfl
      | succ j =>
          have hn := h.first 1 Nat.one_pos (Nat.succ_lt_succ (Nat.succ_pos j))
          have hcost (n : Nat) : cost + repeatCost + ⟨5 * n, 21 * n⟩ =
              cost + ⟨5 * (n + 1), 21 * (n + 1)⟩ := by
            rw [Cost.add_assoc, Nat.mul_succ, Nat.mul_succ, Nat.add_comm, Nat.add_comm (21 * n)]
            rfl
          rw [if_neg (fun hf => hn (isFinished_round.mp hf)), ih h.behind, hcost]
          simp only [Nat.succ_eq_add_one, Nat.add_sub_cancel, Nat.add_min_add_right]
          rfl

end Takes

/-- The byte behind ED that selects the single form. -/
def opcode : BlockInstruction → Direction → Byte
  | load, .up => 0xA0
  | compare, .up => 0xA1
  | input, .up => 0xA2
  | output, .up => 0xA3
  | load, .down => 0xA8
  | compare, .down => 0xA9
  | input, .down => 0xAA
  | output, .down => 0xAB

def repeatingOpcode (kind : BlockInstruction) (direction : Direction) : Byte :=
  kind.opcode direction + 0x10

end BlockInstruction

variable [Observer ω] [Host η]

/-- The loop is never cut off before its end. -/
theorem Exit.execute_repeatBlock {kind : BlockInstruction} {direction : Direction}
    {m : Machine ω η} {k : Nat} (h : kind.Takes direction m k) (next : Word) :
    (repeatBlock kind direction).execute next m =
      (((kind.round direction)^[k] m).setPC next, ⟨5 * (k - 1), 21 * (k - 1)⟩) := by
  have hl := h.le
  have hc : min 0x10000 (k - 1) = k - 1 := Nat.min_eq_right (by omega)
  simp only [execute, h.iterate_eq, Nat.min_eq_right hl, hc, Cost.zero_add]
  rfl

namespace Block

variable {memory : Memory} {a : Word}

theorem instruction_of_extended {opcode : Byte} {i : Instruction}
    (h0 : memory.readByte a = 0xED) (h1 : memory.readByte (a + 1) = opcode)
    (hd : ∀ c : Cursor, c.peek 0 = opcode → Extended.decode.run c = .ok (i, c.skip 1)) :
    (Cursor.begin memory a).instruction .z80 = .ok (i, (Cursor.begin memory a).skip 2) := by
  have ha : a + .ofNat 0 = a := by grind
  have hp : ((Cursor.begin memory a).skip 1).peek 0 = opcode := (peek_behind memory a).trans h1
  have hr : (Primary.decode .hl 0xED).run ((Cursor.begin memory a).skip 1) =
      .ok (.instruction i, (Cursor.begin memory a).skip 2) := by
    have hb : Primary.decode .hl 0xED = Extended.decode >>= fun i => pure (.instruction i) := rfl
    rw [hb, Fetch.run_bind, hd _ hp, Cursor.skip_skip]
    rfl
  rw [Cursor.instruction, Cursor.indexedInstruction_eq, Cursor.peek_begin, ha, h0, hr]
  simp only [Cursor.locate, Instruction.addCost_zero]

theorem instruction_of_opcode {kind : BlockInstruction} {direction : Direction}
    (h0 : memory.readByte a = 0xED) (h1 : memory.readByte (a + 1) = kind.opcode direction) :
    (Cursor.begin memory a).instruction .z80 =
      .ok (.operation (.block kind direction) ⟨4, 16⟩, (Cursor.begin memory a).skip 2) := by
  refine instruction_of_extended h0 h1 fun c hc => ?_
  refine (Fetch.run_byte _ c).trans ?_
  rw [hc]
  cases kind <;> cases direction <;> rfl

theorem instruction_of_repeatingOpcode {kind : BlockInstruction} {direction : Direction}
    (h0 : memory.readByte a = 0xED)
    (h1 : memory.readByte (a + 1) = kind.repeatingOpcode direction) :
    (Cursor.begin memory a).instruction .z80 =
      .ok (.exit (.repeatBlock kind direction) ⟨4, 16⟩ true, (Cursor.begin memory a).skip 2) := by
  refine instruction_of_extended h0 h1 fun c hc => ?_
  refine (Fetch.run_byte _ c).trans ?_
  rw [hc]
  cases kind <;> cases direction <;> rfl

/-- The single form does one round and moves on. The repeating form does as many rounds as it
takes until its counter is zero or its byte is found, one at least, and moves on then. All
that a round reads and writes, on the bus and at the ports, it does in the same order. -/
theorem repeating_form_iterates_single_form (h0 : memory.readByte a = 0xED)
    (kind : BlockInstruction) (direction : Direction) :
    (memory.readByte (a + 1) = kind.opcode direction →
      ∃ b, compileOne .z80 memory a = .ok b ∧ ∀ m : Machine ω η,
        b.execute m = ((kind.round direction m).catchUp (a + 2) 2, ⟨4, 16⟩)) ∧
    (memory.readByte (a + 1) = kind.repeatingOpcode direction →
      ∃ b, compile .z80 memory a = .ok b ∧ ∀ m : Machine ω η,
        ∃ k, kind.Takes direction m k ∧ k ≤ kind.mostRounds ∧
          (kind ≠ .compare → k = kind.roundsLeft m.registers) ∧
          b.execute m = (((kind.round direction)^[k] m).catchUp (a + 2) 2,
            ⟨4 + 5 * (k - 1), 16 + 21 * (k - 1)⟩)) := by
  constructor
  · intro h1
    refine ⟨⟨a, 2, #[⟨.block kind direction, 2⟩], none, ⟨4, 16⟩, false⟩, ?_, fun m => rfl⟩
    rw [compileOne, instruction_of_opcode h0 h1]
    rfl
  · intro h1
    refine ⟨⟨a, 2, #[], some (.repeatBlock kind direction), ⟨4, 16⟩, true⟩, ?_, fun m => ?_⟩
    · rw [compile, compileFrom_eq, instruction_of_repeatingOpcode h0 h1]
      rfl
    · obtain ⟨k, hk, -, he⟩ := BlockInstruction.Takes.exists_takes kind direction m
      refine ⟨k, hk, hk.le_mostRounds, he, ?_⟩
      rw [execute_eq]
      simp only [leave]
      have hx := Exit.execute_repeatBlock hk (a + 2)
      exact congrArg (fun r : Machine ω η × Cost =>
        (r.1.modifyRegisters (·.refresh 2), (⟨4, 16⟩ : Cost) + r.2)) hx

/-- `OTIR` with B at zero. -/
theorem otir_from_zero :
    ∃ memory, Memory.ofSegments [.ram 0 0x10000 #[0xED, 0xB3]] = .ok memory ∧
      let m : Machine (Listeners Unit) NoPorts :=
        ⟨({} : Snapshot).toRegisters .z80, ⟨memory, (), []⟩, {}, .idle⟩
      memory.readByte 0 = 0xED ∧
      memory.readByte 1 = BlockInstruction.repeatingOpcode .output .up ∧
      ∃ b, compile .z80 memory 0 = .ok b ∧
        b.execute m = (((BlockInstruction.output.round .up)^[256] m).catchUp 2 2, ⟨1279, 5371⟩) := by
  obtain ⟨memory, hm, ho⟩ := Memory.exists_ofSegments_ram #[0xED, 0xB3]
  refine ⟨memory, hm, ?_⟩
  intro m
  have hb (a : Word) (ha : a.toNat < 2) :
      memory.readByte a = (#[0xED, 0xB3] : Array Byte)[a.toNat]?.getD 0xFF := by
    have hs : a.toNat < min 0x10000 (#[0xED, 0xB3] : Array Byte).size := ha
    rw [Memory.readByte, ho, Segment.readByte_ram _ _ hs]
  have h0 : memory.readByte 0 = 0xED := hb 0 (by decide)
  have h1 : memory.readByte 1 = BlockInstruction.repeatingOpcode .output .up := hb 1 (by decide)
  obtain ⟨b, hc, hr⟩ := (repeating_form_iterates_single_form (ω := Listeners Unit)
    (η := NoPorts) h0 .output .up).2 h1
  obtain ⟨k, -, -, he, hx⟩ := hr m
  obtain rfl : k = 256 := he (by decide)
  exact ⟨h0, h1, b, hc, hx⟩

end Block
end Z80
