import Z80.Proofs.Block.Prefix
import Z80.Proofs.Decode.Shared

/-!
An instruction that both processors have, compiled for either of them and run as a block of
its own: it takes the same bytes, ends its block or not, and leaves the same machine behind.
Only the price may differ, and with five opcodes one flag.
-/

namespace Z80

namespace Block

/-- The second block takes the same bytes and ends alike. -/
structure SameShape (b other : Block) : Prop where
  length : other.length = b.length
  exit : other.exit?.isSome = b.exit?.isSome
  halts : other.halts = b.halts

end Block

variable {ω η : Type}

variable [Observer ω] [Host η]

theorem Exit.execute_free (e : Exit) (next : Word) (m : Machine ω η) :
    (e.free.execute next m).1 = (e.execute next m).1 := by
  cases e with
  | jumpIf condition _ _ | callIf condition _ _ | retIf condition _ =>
      simp only [free, execute]
      split <;> rfl
  | decrementAndJump _ _ =>
      simp only [free, execute]
      split <;> rfl
  | jump _ | jumpToRegister _ | call _ | ret | returnFromInterrupt | returnAndEnableInterrupts
  | repeatBlock _ _ | halt => rfl

theorem Exit.free_eq_halt_iff (e : Exit) : e.free = .halt ↔ e = .halt := by
  cases e <;> simp [free]

namespace Instruction

theorem execute_withLayout {i : Instruction} (h : i.sparesAF = true) (layout : FlagLayout)
    (a : Word) (n : Nat) (m : Machine ω η) :
    ((i.toBlock a n).execute (m.withLayout layout)).1 =
      ((i.toBlock a n).execute m).1.withLayout layout := by
  cases i with
  | operation op cost =>
      simp only [toBlock, Block.execute_eq, Block.runLines_addLine, Block.leave,
        Operation.execute_withLayout h]
      rfl
  | exit e cost varies =>
      simp only [toBlock, Block.execute_eq, Machine.runLines, List.foldl_nil, Block.leave,
        Exit.execute_withLayout h]
      rfl

theorem Alike.execute {i j : Instruction} (h : i.Alike j) (a : Word) (n : Nat)
    (m : Machine ω η) : ((j.toBlock a n).execute m).1 = ((i.toBlock a n).execute m).1 := by
  obtain ⟨op, cost, price, rfl, rfl⟩ | ⟨e, other, cost, price, _, _, rfl, rfl, he⟩ := h.cases
  · rfl
  · have hx := other.execute_free (a + .ofNat n) m
    rw [← he, e.execute_free] at hx
    simp only [toBlock, Block.execute_eq, Machine.runLines, List.foldl_nil, Block.leave,
      Block.next, hx]

theorem Alike.sameShape {i j : Instruction} (h : i.Alike j) (a : Word) (n : Nat) :
    (i.toBlock a n).SameShape (j.toBlock a n) := by
  obtain ⟨op, cost, price, rfl, rfl⟩ | ⟨e, other, cost, price, _, _, rfl, rfl, he⟩ := h.cases
  · exact ⟨rfl, rfl, rfl⟩
  · have hh : other = .halt ↔ e = .halt := by
      rw [← other.free_eq_halt_iff, ← he, e.free_eq_halt_iff]
    refine ⟨rfl, rfl, ?_⟩
    rw [Bool.eq_iff_iff]
    simpa [toBlock, Block.halts] using hh

end Instruction

namespace GameBoy

/-- What the Game Boy does to the flags on top of an instruction of the Z80. -/
def adjust (opcode : Byte) (f : Flags) : Flags :=
  if opcode ∈ [0x07, 0x0F, 0x17, 0x1F] then { f with zero := false }
  else if opcode = 0x3F then { f with halfCarry := false }
  else f

theorem adjust_of_not_mem {b : Byte} (h : b ∉ adjusted) (f : Flags) : adjust b f = f := by
  have hz : b ∉ [0x07, 0x0F, 0x17, 0x1F] := fun hb => h (List.mem_append_left [0x3F] hb)
  have hh : b ≠ 0x3F := fun hb => h (by simp [adjusted, hb])
  rw [adjust, if_neg hz, if_neg hh]

end GameBoy

namespace Block

variable {memory : Memory} {a : Word}

theorem compileOne_of_run_gameBoy {i : Instruction} {n : Nat}
    (h : (GameBoy.decode (memory.readByte a)).run ((Cursor.begin memory a).skip 1) =
      .ok (i, (Cursor.begin memory a).skip n)) :
    compileOne .gameBoy memory a = .ok (i.toBlock a n) := by
  have h0 : a + .ofNat 0 = a := by grind
  rw [compileOne, Cursor.instruction, Cursor.byte_eq, Cursor.peek_begin, h0, h]
  simp only [Cursor.locate, Cursor.consumed_skip, Cursor.begin, Nat.zero_add]

/-- The block of the Game Boy leaves the machine that the block of the Z80 leaves, with its
flags adjusted. -/
def AgreesAt (adjust : Flags → Flags) (b other : Block) (m : Machine ω η) : Prop :=
  let after := (b.execute (m.withLayout .z80)).1.withLayout .gameBoy
  (other.execute (m.withLayout .gameBoy)).1 = after.setFlags (adjust after.registers.flags)

theorem agreesAt_of_shared {i j : Instruction} (h : i.Shared j) (n : Nat) (m : Machine ω η) :
    AgreesAt id (i.toBlock a n) (j.toBlock a n) m := by
  simp only [AgreesAt]
  rw [h.1.execute, Instruction.execute_withLayout h.2, Instruction.execute_withLayout h.2]
  rfl

theorem agreesAt_of_operation {op other : Operation} {adjust : Flags → Flags} {n : Nat}
    {m : Machine ω η}
    (h : let after := (op.execute n (m.withLayout .z80)).withLayout .gameBoy
      other.execute n (m.withLayout .gameBoy) = after.setFlags (adjust after.registers.flags))
    (cost price : Cost) :
    AgreesAt adjust ((Instruction.operation op cost).toBlock a n)
      ((Instruction.operation other price).toBlock a n) m := by
  simp only at h
  simp only [AgreesAt, Instruction.toBlock, execute_eq, runLines_addLine, leave, h]
  rfl

theorem exists_of_adjusted (h : memory.readByte a ∈ GameBoy.adjusted) :
    ∃ b other, compileOne .z80 memory a = .ok b ∧ compileOne .gameBoy memory a = .ok other ∧
      b.SameShape other ∧
      ∀ m : Machine ω η, AgreesAt (GameBoy.adjust (memory.readByte a)) b other m := by
  have of_entries {op other : Operation} {cost price : Cost}
      (hd : Primary.decode .hl (memory.readByte a) = .done (.instruction (.operation op cost)))
      (hg : GameBoy.decode (memory.readByte a) = .done (.operation other price)) :
      compileOne .z80 memory a = .ok ((Instruction.operation op cost).toBlock a 1) ∧
        compileOne .gameBoy memory a = .ok ((Instruction.operation other price).toBlock a 1) :=
    ⟨compileOne_of_run (by rw [hd]; rfl), compileOne_of_run_gameBoy (by rw [hg]; rfl)⟩
  simp only [GameBoy.adjusted, List.mem_cons, List.not_mem_nil, or_false] at h
  obtain h | h | h | h | h := h <;> rw [h] at of_entries ⊢ <;>
  · obtain ⟨hb, ho⟩ := of_entries rfl rfl
    exact ⟨_, _, hb, ho, ⟨rfl, rfl, rfl⟩, fun m => agreesAt_of_operation rfl _ _⟩

theorem exists_of_prefix (h : memory.readByte a = 0xCB)
    (hb : ¬ (0x30 ≤ memory.readByte (a + 1) ∧ memory.readByte (a + 1) ≤ 0x37)) :
    ∃ b other, compileOne .z80 memory a = .ok b ∧ compileOne .gameBoy memory a = .ok other ∧
      b.SameShape other ∧ ∀ m : Machine ω η, AgreesAt id b other m := by
  have hz := Primary.run_decode_prefix ((Cursor.begin memory a).skip 1)
  have hg := Bit.run_decode .gameBoy ((Cursor.begin memory a).skip 1)
  rw [peek_behind, Cursor.skip_skip, ← h] at hz
  rw [peek_behind, Cursor.skip_skip, show Bit.decode .gameBoy = GameBoy.decode 0xCB from rfl,
    ← h] at hg
  have hs := GameBoy.shared_bit hb
  exact ⟨_, _, compileOne_of_run hz, compileOne_of_run_gameBoy hg, hs.1.sameShape a 2,
    agreesAt_of_shared hs 2⟩

/-- Outside the opcodes that the Game Boy replaced, the two processors compile the same
instruction: it takes the same bytes and ends its block alike, and run on machines that
differ only in how they pack their flags it leaves machines that differ only in that, but
for the flags that the Game Boy adjusts. -/
theorem shared_instructions_agree (h : memory.readByte a ∉ GameBoy.replaced)
    (hb : memory.readByte a = 0xCB →
      ¬ (0x30 ≤ memory.readByte (a + 1) ∧ memory.readByte (a + 1) ≤ 0x37)) :
    ∃ b other, compileOne .z80 memory a = .ok b ∧ compileOne .gameBoy memory a = .ok other ∧
      b.SameShape other ∧
      ∀ m : Machine ω η, AgreesAt (GameBoy.adjust (memory.readByte a)) b other m := by
  by_cases ha : memory.readByte a ∈ GameBoy.adjusted
  · exact exists_of_adjusted ha
  · have hf : GameBoy.adjust (memory.readByte a) = id := funext (GameBoy.adjust_of_not_mem ha)
    rw [hf]
    by_cases hc : memory.readByte a = 0xCB
    · exact exists_of_prefix hc (hb hc)
    · have hm := GameBoy.shared_decode h ha hc
      obtain ⟨_, j, n, hz, hg, i, rfl, hs⟩ := hm.exists_run
        (c := (Cursor.begin memory a).skip 1) fun _ => rfl
      rw [Cursor.skip_skip] at hz hg
      exact ⟨_, _, compileOne_of_run hz, compileOne_of_run_gameBoy hg, hs.1.sameShape a _,
        agreesAt_of_shared hs _⟩

/-- `SRL (HL)`, right behind the opcodes that shift ones in or exchange nibbles. -/
theorem shared_shift_beside_replaced :
    ∃ memory, Memory.ofSegments [.ram 0 0x10000 #[0xCB, 0x3E]] = .ok memory ∧
      memory.readByte 0 ∉ GameBoy.replaced ∧
      ¬ (0x30 ≤ memory.readByte (0 + 1) ∧ memory.readByte (0 + 1) ≤ 0x37) ∧
      let m : Machine (Listeners Unit) NoPorts :=
        ⟨({ hl := 0x1000 } : Snapshot).toRegisters .z80, ⟨memory, (), []⟩, {}, .idle⟩
      ∃ b other, compileOne .z80 memory 0 = .ok b ∧ compileOne .gameBoy memory 0 = .ok other ∧
        other.length = b.length ∧
        (other.execute (m.withLayout .gameBoy)).1 =
          (b.execute (m.withLayout .z80)).1.withLayout .gameBoy := by
  obtain ⟨memory, hm, ho⟩ := Memory.exists_ofSegments_ram #[0xCB, 0x3E]
  have hb (a : Word) (ha : a.toNat < 2) :
      memory.readByte a = (#[0xCB, 0x3E] : Array Byte)[a.toNat]?.getD 0xFF := by
    have hs : a.toNat < min 0x10000 (#[0xCB, 0x3E] : Array Byte).size := ha
    rw [Memory.readByte, ho, Segment.readByte_ram _ _ hs]
  have h0 : memory.readByte 0 = 0xCB := hb 0 (by decide)
  have h1 : memory.readByte (0 + 1) = 0x3E := hb 1 (by decide)
  have hr : memory.readByte 0 ∉ GameBoy.replaced := by
    rw [h0]
    decide
  have hp : ¬ (0x30 ≤ memory.readByte (0 + 1) ∧ memory.readByte (0 + 1) ≤ 0x37) := by
    rw [h1]
    decide
  refine ⟨memory, hm, hr, hp, ?_⟩
  intro m
  obtain ⟨b, other, hz, hg, hs, hx⟩ :=
    shared_instructions_agree (ω := Listeners Unit) (η := NoPorts) hr fun _ => hp
  refine ⟨b, other, hz, hg, hs.length, (hx m).trans ?_⟩
  rw [h0]
  rfl

end Block
end Z80
