import Z80.Proofs.Block.Sequential
import Z80.Proofs.Decode.Index

/-!
An instruction behind a byte that selects an index register. The byte itself costs a NOP and
one step of the refresh counter; what else it changes is that the register stands for HL, or
that the memory operand lies at the register plus a displacement.
-/

namespace Z80

variable {ω η : Type}

/-- What the instructions with a memory operand do with the byte there: the registers after
it, and the byte that is stored in its place. H and L are the register halves themselves. -/
def Opcode.effect (o : Opcode) (immediate : Byte) (r : Registers) (value : Byte) :
    Registers × Option Byte :=
  match o.x with
  | 0 =>
    if o.z.val = 4 then
      let (result, flags) := Alu.increment r.flags value
      (r.setFlags flags, some result)
    else if o.z.val = 5 then
      let (result, flags) := Alu.decrement r.flags value
      (r.setFlags flags, some result)
    else (r, some immediate)
  | 1 =>
    if o.y.val = 6 then (r, (ByteReg.ofField o.z).map (·.read r))
    else match ByteReg.ofField o.y with
      | some reg => (reg.write r value, none)
      | none => (r, none)
  | 2 | 3 => (r.setAccumulator ((Binary.ofField o.y).apply r.flags r.a value), none)

/-- Reads one byte of memory, changes the registers, and stores at most one byte there. -/
def Machine.applyAt [Observer ω] (address : Word)
    (effect : Registers → Byte → Registers × Option Byte) (m : Machine ω η) : Machine ω η :=
  let (r, stored) := effect m.registers (m.readByte address)
  let m := m.modifyRegisters fun _ => r
  match stored with
  | some value => m.writeByte address value
  | none => m

/-- Where the memory operand lies. -/
def Index.operandAddress (displacement : Byte) (r : Registers) : Index → Word
  | hl => r.hl
  | ix => r.ix + signExtend displacement
  | iy => r.iy + signExtend displacement

variable [Observer ω] [Host η]

/-- Field 6 alone does not name a register. -/
theorem ByteReg.exists_ofField {y : Fin 8} (hy : y ≠ 6) : ∃ reg, ofField y = some reg := by
  refine Option.isSome_iff_exists.mp ?_
  revert y
  decide

theorem Opcode.execute_onOperand {o : Opcode} (h : o.hasMemoryOperand = true) (index : Index)
    (displacement immediate : Byte) (fetched : Nat) (m : Machine ω η) :
    (o.onOperand immediate (index.operand displacement)).execute fetched m =
      m.applyAt (index.operandAddress displacement m.registers) (o.effect immediate) := by
  obtain ⟨z, hz, rfl⟩ | ⟨z, hz, rfl⟩ | ⟨y, hy, rfl⟩ | ⟨y, rfl⟩ := cases_of_hasMemoryOperand h
  · obtain rfl | rfl | rfl := hz <;> cases index <;> rfl
  · obtain ⟨reg, hr⟩ := ByteReg.exists_ofField hz
    simp only [onOperand, effect, Machine.applyAt, plainOperand, hr]
    cases index <;> rfl
  · obtain ⟨reg, hr⟩ := ByteReg.exists_ofField hy
    have hy' : ¬ y.val = 6 := fun hv => hy (Fin.ext hv)
    simp only [onOperand, effect, Machine.applyAt, plainOperand, hr, hy', if_false]
    cases index <;> rfl
  · cases index <;> rfl

namespace Instruction

theorem addCost_zero (i : Instruction) : i.addCost 0 = i := by
  cases i <;> simp only [addCost, Cost.zero_add]

theorem execute_addCost (i : Instruction) (extra : Cost) (a : Word) (n : Nat) (m : Machine ω η) :
    ((i.addCost extra).toBlock a n).execute m =
      (((i.toBlock a n).execute m).1, extra + ((i.toBlock a n).execute m).2) := by
  cases i <;>
    simp only [addCost, toBlock, Block.execute_eq, Block.charged, Block.next, Cost.add_assoc]

/-- Bytes in front of an instruction move PC and the refresh counter on before it runs. -/
theorem execute_toBlock (i : Instruction) (a : Word) (k n : Nat) (m : Machine ω η) :
    (i.toBlock a (k + n)).execute m =
      (i.toBlock (a + .ofNat k) n).execute (m.catchUp (a + .ofNat k) k) := by
  have hn : a + .ofNat k + .ofNat n = a + .ofNat (k + n) := by
    rw [UInt16.ofNat_add]
    grind
  symm
  cases i with
  | exit e cost varies => exact Block.execute_catchUp rfl rfl hn rfl rfl rfl
  | operation op cost =>
      refine Block.execute_catchUp ?_ rfl hn rfl rfl rfl
      simp only [toBlock, Block.runLines_addLine, Operation.execute_catchUp]

/-- An instruction that names its registers follows the trade as a block of its own. -/
theorem execute_exchangeHL {i : Instruction} (hn : i.NamesRegisters) (index : Index) (a : Word)
    (n : Nat) (m : Machine ω η) :
    ((i.exchangeHL index).toBlock a n).execute (m.exchangeHL index) =
      (((i.toBlock a n).execute m).1.exchangeHL index, ((i.toBlock a n).execute m).2) := by
  have hr (m : Machine ω η) : (m.exchangeHL index).modifyRegisters (·.refresh n) =
      (m.modifyRegisters (·.refresh n)).exchangeHL index :=
    m.modifyRegisters_exchangeHL _ _ fun r => by cases index <;> rfl
  have hpc (m : Machine ω η) (pc : Word) :
      (m.exchangeHL index).setPC pc = (m.setPC pc).exchangeHL index :=
    m.modifyRegisters_exchangeHL _ _ fun r => by cases index <;> rfl
  cases i with
  | exit e cost varies =>
      simp only [exchangeHL, toBlock, Block.execute_eq, Block.charged, Block.leave, Block.next]
      simp only [Machine.runLines, List.foldl_nil, e.execute_exchangeHL hn, hr]
  | operation op cost =>
      simp only [exchangeHL, toBlock, Block.execute_eq, Block.charged, Block.runLines_addLine,
        Block.leave, Block.next, op.execute_exchangeHL hn, hpc, hr]

theorem halts_addCost (i : Instruction) (extra : Cost) (a c : Word) (n k : Nat) :
    ((i.addCost extra).toBlock a n).halts = (i.toBlock c k).halts := by
  cases i <;> rfl

theorem halts_exchangeHL (i : Instruction) (index : Index) (a c : Word) (n k : Nat) :
    ((i.exchangeHL index).toBlock a n).halts = (i.toBlock c k).halts := by
  cases i with
  | operation op cost => rfl
  | exit e cost varies => cases e <;> rfl

end Instruction

namespace Block

variable {memory : Memory} {a : Word} {index : Index} {i : Instruction} {n : Nat}

theorem compileOne_of_run_error {e : OpcodeTable × Byte}
    (h : (Primary.decode .hl (memory.readByte a)).run ((Cursor.begin memory a).skip 1) =
      .error e) :
    compileOne .z80 memory a = .error ⟨e.1, e.2, a⟩ := by
  have h0 : a + .ofNat 0 = a := by grind
  rw [compileOne, Cursor.instruction, Cursor.address_begin, Cursor.indexedInstruction_eq,
    Cursor.peek_begin, h0, h]
  rfl

theorem compileOne_of_run
    (h : (Primary.decode .hl (memory.readByte a)).run ((Cursor.begin memory a).skip 1) =
      .ok (.instruction i, (Cursor.begin memory a).skip n)) :
    compileOne .z80 memory a = .ok (i.toBlock a n) := by
  have h0 : a + .ofNat 0 = a := by grind
  rw [compileOne, Cursor.instruction, Cursor.address_begin, Cursor.indexedInstruction_eq,
    Cursor.peek_begin, h0, h]
  simp only [Cursor.locate, Instruction.addCost_zero, Cursor.consumed_skip, Cursor.begin,
    Nat.zero_add]

/-- Behind the selecting byte the decoder goes on with the register in effect. -/
theorem instruction_of_selected (h : index.SelectedBy (memory.readByte a)) :
    (Cursor.begin memory a).instruction .z80 =
      Cursor.indexedInstruction a index ⟨1, 4⟩ ((Cursor.begin memory a).skip 1) := by
  have h0 : a + .ofNat 0 = a := by grind
  have hl : ¬ ((Cursor.begin memory a).skip 1).limitReached = true := by
    simp [Cursor.limitReached_iff, Cursor.begin, Cursor.limit]
  have hd : (Primary.decode .hl (memory.readByte a)).run ((Cursor.begin memory a).skip 1) =
      .ok (.index index, (Cursor.begin memory a).skip 1) := by
    cases index with
    | hl => exact h.elim
    | ix | iy =>
        rw [h]
        rfl
  rw [Cursor.instruction, Cursor.address_begin, Cursor.indexedInstruction_eq, Cursor.peek_begin,
    h0, hd]
  simp only [Cursor.locate, if_neg hl, Cost.zero_add]

theorem peek_behind (memory : Memory) (a : Word) :
    ((Cursor.begin memory a).skip 1).peek 0 = memory.readByte (a + 1) := by
  rw [Cursor.peek_skip, Cursor.peek_begin]
  rfl

theorem compileOne_of_selected (hs : index.SelectedBy (memory.readByte a))
    (h : (Primary.decode index (memory.readByte (a + 1))).run ((Cursor.begin memory a).skip 2) =
      .ok (.instruction i, (Cursor.begin memory a).skip n)) :
    compileOne .z80 memory a = .ok ((i.addCost ⟨1, 4⟩).toBlock a n) := by
  rw [compileOne, instruction_of_selected hs, Cursor.indexedInstruction_eq, peek_behind,
    Cursor.skip_skip, h]
  simp only [Cursor.locate, Cursor.consumed_skip, Cursor.begin, Nat.zero_add]

theorem compileOne_of_selected_error {e : OpcodeTable × Byte}
    (hs : index.SelectedBy (memory.readByte a))
    (h : (Primary.decode index (memory.readByte (a + 1))).run ((Cursor.begin memory a).skip 2) =
      .error e) :
    compileOne .z80 memory a = .error ⟨e.1, e.2, a⟩ := by
  rw [compileOne, instruction_of_selected hs, Cursor.indexedInstruction_eq, peek_behind,
    Cursor.skip_skip, h]
  rfl

/-- The bytes from the next address on, seen from there or from here. -/
theorem peek_succ (memory : Memory) (a : Word) (k i : Nat) :
    ((Cursor.begin memory a).skip (k + 1)).peek i =
      ((Cursor.begin memory (a + 1)).skip k).peek i := by
  rw [Cursor.peek_skip, Cursor.peek_skip, Cursor.peek_begin, Cursor.peek_begin]
  congr 1
  rw [show k + 1 + i = 1 + (k + i) by omega, UInt16.ofNat_add]
  grind

theorem exists_of_traded (hs : index.SelectedBy (memory.readByte a))
    (hp : memory.readByte (a + 1) ∉ [0xCB, 0xDD, 0xED, 0xFD])
    (hm : (Opcode.ofByte (memory.readByte (a + 1))).hasMemoryOperand = false)
    (he : memory.readByte (a + 1) ∉ [0xEB, 0xD9]) :
    ∃ b plain, compileOne .z80 memory a = .ok b ∧ compileOne .z80 memory (a + 1) = .ok plain ∧
      b.halts = plain.halts ∧ ∀ m : Machine ω η,
        let (m', cost) := plain.execute ((m.catchUp (a + 1) 1).exchangeHL index)
        b.execute m = (m'.exchangeHL index, ⟨1, 4⟩ + cost) := by
  have ht := Primary.traded_decode index hp hm he
  obtain ⟨_, _, n, hf, hg, i, j, rfl, rfl, hn, rfl⟩ := ht.exists_run
    (c := (Cursor.begin memory (a + 1)).skip 1) (peek_succ memory a 1)
  rw [Cursor.skip_skip] at hf hg
  refine ⟨_, _, compileOne_of_selected hs hg, compileOne_of_run hf,
    (Instruction.halts_addCost _ _ _ (a + 1) _ n).trans (i.halts_exchangeHL index _ _ _ _),
    fun m => ?_⟩
  have hx := Instruction.execute_exchangeHL hn index (a + 1) (1 + n)
    ((m.catchUp (a + 1) 1).exchangeHL index)
  rw [Machine.exchangeHL_exchangeHL] at hx
  have hb := (i.exchangeHL index).execute_toBlock a 1 (1 + n) m
  rw [← Nat.add_assoc] at hb
  rw [Instruction.execute_addCost, hb]
  exact congrArg (fun r : Machine ω η × Cost => (r.1, (⟨1, 4⟩ : Cost) + r.2)) hx

theorem exists_of_unaffected (hs : index.SelectedBy (memory.readByte a))
    (h : memory.readByte (a + 1) ∈ [0xEB, 0xD9, 0xED]) :
    match compileOne .z80 memory (a + 1) with
    | .ok plain => ∃ b, compileOne .z80 memory a = .ok b ∧ b.halts = plain.halts ∧
        ∀ m : Machine ω η,
          let (m', cost) := plain.execute (m.catchUp (a + 1) 1)
          b.execute m = (m', ⟨1, 4⟩ + cost)
    | .error fault => compileOne .z80 memory a = .error { fault with address := a } := by
  have hd := Primary.decode_of_unaffected index h
  cases hr : (Primary.decode .hl (memory.readByte (a + 1))).run
      ((Cursor.begin memory (a + 1)).skip 1) with
  | error e =>
      have hr' := Fetch.run_eq_error hr (peek_succ memory a 1)
      rw [← hd] at hr'
      rw [compileOne_of_run_error hr]
      exact compileOne_of_selected_error hs hr'
  | ok r =>
      obtain ⟨entry, d⟩ := r
      obtain ⟨n, rfl, hn⟩ := Fetch.exists_skip_of_run hr
      have hr' := hn ((Cursor.begin memory a).skip 2) fun i _ => peek_succ memory a 1 i
      cases entry with
      | index register =>
          have hb := (Primary.isIndexByte_of_run hr).1
          simp only [List.mem_cons, List.not_mem_nil, or_false] at h
          obtain h | h | h := h <;> rw [h] at hb <;> cases hb
      | instruction i =>
          rw [Cursor.skip_skip] at hr hr'
          rw [← hd] at hr'
          rw [compileOne_of_run hr]
          refine ⟨_, compileOne_of_selected hs hr', i.halts_addCost _ _ _ _ _, fun m => ?_⟩
          have hb := i.execute_toBlock a 1 (1 + n) m
          rw [← Nat.add_assoc] at hb
          rw [Instruction.execute_addCost, hb]
          rfl

/-- EX DE,HL and EXX are complete instructions. -/
theorem exists_compileOne_of_exchange (h : memory.readByte a ∈ [0xEB, 0xD9]) :
    ∃ b, compileOne .z80 memory a = .ok b := by
  simp only [List.mem_cons, List.not_mem_nil, or_false] at h
  obtain h | h := h
  · exact ⟨_, compileOne_of_run (i := .operation .exchangeDEHL ⟨1, 4⟩) (n := 1) (by rw [h]; rfl)⟩
  · exact ⟨_, compileOne_of_run (i := .operation .exchangeBanks ⟨1, 4⟩) (n := 1) (by rw [h]; rfl)⟩

/-- With or without an index register an instruction with a memory operand does the same to
the byte there, and then goes on behind itself. -/
theorem execute_onOperand {o : Opcode} (h : o.hasMemoryOperand = true) (index : Index)
    (displacement immediate : Byte) (cost : Cost) {m : Machine ω η} (hm : m.registers.pc = a) :
    ((Instruction.operation (o.onOperand immediate (index.operand displacement)) cost).toBlock
        a n).execute m =
      ((m.applyAt (index.operandAddress displacement m.registers) (o.effect immediate)).catchUp
        (a + .ofNat n) n, cost) := by
  have he := execute_operation (o.onOperand immediate (index.operand displacement)) cost a n 0 m
  have h0 : m.catchUp a 0 = m := hm ▸ m.catchUp_zero
  rw [h0, Nat.zero_add, o.execute_onOperand h] at he
  exact he

theorem compileOne_of_hasMemoryOperand
    (h : (Opcode.ofByte (memory.readByte a)).hasMemoryOperand = true) :
    let o := Opcode.ofByte (memory.readByte a)
    compileOne .z80 memory a = .ok ((Instruction.operation
      (o.onOperand (memory.readByte (a + 1)) (Index.hl.operand 0))
      (o.memoryCost (.indirect .hl))).toBlock a (1 + o.immediates)) := by
  intro o
  have hr := Primary.run_of_hasMemoryOperand .hl h ((Cursor.begin memory a).skip 1)
  simp only [Index.displacements, peek_behind, Cursor.skip_skip, Nat.zero_add] at hr
  exact compileOne_of_run hr

theorem compileOne_of_selected_of_hasMemoryOperand
    (hs : index.SelectedBy (memory.readByte a))
    (h : (Opcode.ofByte (memory.readByte (a + 1))).hasMemoryOperand = true) :
    let o := Opcode.ofByte (memory.readByte (a + 1))
    let operand := index.operand (memory.readByte (a + 2))
    compileOne .z80 memory a = .ok ((Instruction.operation
      (o.onOperand (memory.readByte (a + 3)) operand)
      (⟨1, 4⟩ + o.memoryCost operand)).toBlock a (3 + o.immediates)) := by
  intro o operand
  have hr := Primary.run_of_hasMemoryOperand index h ((Cursor.begin memory a).skip 2)
  have h2 : ((Cursor.begin memory a).skip 2).peek 0 = memory.readByte (a + 2) := by
    rw [Cursor.peek_skip, Cursor.peek_begin]
    rfl
  have h3 : ((Cursor.begin memory a).skip 2).peek 1 = memory.readByte (a + 3) := by
    rw [Cursor.peek_skip, Cursor.peek_begin]
    rfl
  have hn : index.displacements = 1 := by
    cases index with
    | hl => exact hs.elim
    | ix | iy => rfl
  simp only [hn, h2, h3, Cursor.skip_skip, ← Nat.add_assoc] at hr
  exact compileOne_of_selected hs hr

/-- An index byte puts its register in the place of HL and does nothing else. Opcodes without
a memory operand run as if the two had traded places; EX DE,HL, EXX and the opcodes behind ED
run as they are; and those with a memory operand work on the byte at the register plus the
displacement as they do on the byte at HL. What halts, halts behind an index byte too. -/
theorem index_byte_substitutes {m : Machine ω η} {index : Index}
    (hs : index.SelectedBy (m.readByte m.registers.pc)) :
    let memory := m.bus.memory
    let a := m.registers.pc
    let opcode := m.readByte (a + 1)
    let o := Opcode.ofByte opcode
    let behind := m.catchUp (a + 1) 1
    (opcode ∉ [0xCB, 0xDD, 0xED, 0xFD] → o.hasMemoryOperand = false → opcode ∉ [0xEB, 0xD9] →
      ∃ b plain, compileOne .z80 memory a = .ok b ∧ compileOne .z80 memory (a + 1) = .ok plain ∧
        b.halts = plain.halts ∧
        let (n, cost) := plain.execute (behind.exchangeHL index)
        b.execute m = (n.exchangeHL index, ⟨1, 4⟩ + cost)) ∧
    (opcode ∈ [0xEB, 0xD9] →
      ∃ b plain, compileOne .z80 memory a = .ok b ∧ compileOne .z80 memory (a + 1) = .ok plain ∧
        b.halts = plain.halts ∧
        let (n, cost) := plain.execute behind
        b.execute m = (n, ⟨1, 4⟩ + cost)) ∧
    (opcode = 0xED →
      match compileOne .z80 memory (a + 1) with
      | .ok plain => ∃ b, compileOne .z80 memory a = .ok b ∧ b.halts = plain.halts ∧
          let (n, cost) := plain.execute behind
          b.execute m = (n, ⟨1, 4⟩ + cost)
      | .error fault => compileOne .z80 memory a = .error { fault with address := a }) ∧
    (o.hasMemoryOperand = true →
      (∃ b, compileOne .z80 memory a = .ok b ∧ b.halts = false ∧
        let address := index.operandAddress (m.readByte (a + 2)) m.registers
        let length := 3 + o.immediates
        b.execute m =
          ((m.applyAt address (o.effect (m.readByte (a + 3)))).catchUp (a + .ofNat length) length,
            ⟨1, 4⟩ + o.memoryCost (index.operand (m.readByte (a + 2))))) ∧
      ∀ n : Machine ω η, n.readByte n.registers.pc = opcode →
        ∃ plain, compileOne .z80 n.bus.memory n.registers.pc = .ok plain ∧ plain.halts = false ∧
          let length := 1 + o.immediates
          plain.execute n =
            ((n.applyAt n.registers.hl (o.effect (n.readByte (n.registers.pc + 1)))).catchUp
              (n.registers.pc + .ofNat length) length, o.memoryCost (.indirect .hl))) := by
  intro memory a opcode o behind
  refine ⟨?_, ?_, ?_, ?_⟩
  · intro hp hm he
    obtain ⟨b, plain, hb, hplain, hh, hx⟩ := exists_of_traded (ω := ω) (η := η) hs hp hm he
    exact ⟨b, plain, hb, hplain, hh, hx m⟩
  · intro hx
    have hu : opcode ∈ [0xEB, 0xD9, 0xED] := List.mem_append_left [0xED] hx
    obtain ⟨plain, hplain⟩ := exists_compileOne_of_exchange hx
    have he := exists_of_unaffected (ω := ω) (η := η) hs hu
    rw [hplain] at he
    obtain ⟨b, hb, hh, hr⟩ := he
    exact ⟨b, plain, hb, hplain, hh, hr m⟩
  · intro he
    have hu : opcode ∈ [0xEB, 0xD9, 0xED] := by simp [he]
    have hr := exists_of_unaffected (ω := ω) (η := η) hs hu
    generalize compileOne .z80 memory (a + 1) = compiled at hr ⊢
    cases compiled with
    | error fault => exact hr
    | ok plain =>
        obtain ⟨b, hb, hh, hr⟩ := hr
        exact ⟨b, hb, hh, hr m⟩
  · intro hm
    refine ⟨?_, ?_⟩
    · have hc := compileOne_of_selected_of_hasMemoryOperand hs hm
      exact ⟨_, hc, rfl, execute_onOperand hm index _ _ _ rfl⟩
    · intro n hn
      have ho : Opcode.ofByte (n.bus.memory.readByte n.registers.pc) = o := congrArg _ hn
      have hc := compileOne_of_hasMemoryOperand (ho ▸ hm)
      rw [ho] at hc
      exact ⟨_, hc, rfl, execute_onOperand hm .hl 0 _ _ rfl⟩

/-- `LD A,(IX+5)` -/
theorem index_byte_before_load :
    ∃ memory, Memory.ofSegments [.ram 0 0x10000 #[0xDD, 0x7E, 0x05]] = .ok memory ∧
      let m : Machine (Listeners Unit) NoPorts :=
        ⟨({ ix := 0x1000 } : Snapshot).toRegisters .z80, ⟨memory, (), []⟩, {}, .idle⟩
      Index.ix.SelectedBy (m.readByte 0) ∧
      ∃ b, compileOne .z80 memory 0 = .ok b ∧ b.halts = false ∧
        (b.execute m).1.registers.a = m.readByte 0x1005 ∧ (b.execute m).2 = ⟨5, 19⟩ := by
  obtain ⟨memory, hm, ho⟩ := Memory.exists_ofSegments_ram #[0xDD, 0x7E, 0x05]
  refine ⟨memory, hm, ?_⟩
  intro m
  have hb (a : Word) (ha : a.toNat < 3) :
      m.readByte a = (#[0xDD, 0x7E, 0x05] : Array Byte)[a.toNat]?.getD 0xFF := by
    have hs : a.toNat < min 0x10000 (#[0xDD, 0x7E, 0x05] : Array Byte).size := ha
    rw [Machine.readByte, Bus.readByte, Memory.readByte, ho, Segment.readByte_ram _ _ hs]
  have h0 : Index.ix.SelectedBy (m.readByte 0) := hb 0 (by decide)
  have h1 : m.readByte 1 = 0x7E := hb 1 (by decide)
  have h2 : m.readByte 2 = 0x05 := hb 2 (by decide)
  have hmem : (Opcode.ofByte (m.readByte 1)).hasMemoryOperand = true := by
    rw [h1]
    decide
  obtain ⟨b, hc, hh, hr⟩ := ((index_byte_substitutes h0).2.2.2 hmem).1
  have h1' : m.readByte (m.registers.pc + 1) = 0x7E := h1
  have h2' : m.readByte (m.registers.pc + 2) = 0x05 := h2
  rw [h1', h2'] at hr
  refine ⟨h0, b, hc, hh, ?_, ?_⟩
  · rw [hr]
    rfl
  · rw [hr]
    rfl

end Block
end Z80
