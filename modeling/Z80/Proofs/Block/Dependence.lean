import Z80.Proofs.Decode.Locality
import Z80.Proofs.Execution.Simulation
import Z80.Proofs.Memory.Equivalence
import Z80.Snapshot

/-!
A block depends on its own bytes and on no others. Decoded from another memory, which need
have no more in common with the first than these bytes, it is the same block, and machines
that cannot be told apart run it alike. How the memories are cut into segments makes no
difference to either.
-/

namespace Z80

namespace Machine

variable {ω η : Type}

/-- Machines that have everything in common but the segments of their memories. -/
structure Equivalent (m n : Machine ω η) : Prop where
  registers : m.registers = n.registers
  memory : m.bus.memory.Equivalent n.bus.memory
  observer : m.bus.observer = n.bus.observer
  host : m.host = n.host
  interrupts : m.interrupts = n.interrupts

namespace Equivalent

variable {m n : Machine ω η}

theorem modifyRegisters (h : m.Equivalent n) (f : Registers → Registers) :
    (m.modifyRegisters f).Equivalent (n.modifyRegisters f) :=
  { h with registers := congrArg f h.registers }

theorem writeByte [Observer ω] (h : m.Equivalent n) (a : Word) (value : Byte) :
    (m.writeByte a value).Equivalent (n.writeByte a value) where
  registers := h.registers
  memory := h.memory.writeByte a value
  observer := congrArg (Observer.written · a 1) h.observer
  host := h.host
  interrupts := h.interrupts

theorem writeWord [Observer ω] (h : m.Equivalent n) (a value : Word) :
    (m.writeWord a value).Equivalent (n.writeWord a value) where
  registers := h.registers
  memory := h.memory.writeWord a value
  observer := congrArg (Observer.written · a 2) h.observer
  host := h.host
  interrupts := h.interrupts

theorem react (h : m.Equivalent n) (reaction : η → Reaction η) :
    (m.react reaction).Equivalent (n.react reaction) := by
  have hr : (reaction m.host).run m.interrupts = (reaction n.host).run n.interrupts := by
    rw [h.host, h.interrupts]
  exact {
    h with
    host := congrArg Prod.fst hr
    interrupts := congrArg Prod.snd hr }

theorem readPort [Host η] (h : m.Equivalent n) (port context : Byte) :
    (m.readPort port context).1 = (n.readPort port context).1 ∧
      (m.readPort port context).2.Equivalent (n.readPort port context).2 := by
  have hr : (Host.readPort port context m.host).run m.interrupts =
      (Host.readPort port context n.host).run n.interrupts := by
    rw [h.host, h.interrupts]
  refine ⟨congrArg (·.1.1) hr, ?_⟩
  exact {
    h with
    host := congrArg (·.1.2) hr
    interrupts := congrArg Prod.snd hr }

theorem simulation [Observer ω] [Host η] : Simulation (Equivalent (ω := ω) (η := η)) where
  registers h := h.registers
  modifyRegisters h f := h.modifyRegisters f
  readByte h a := h.memory.readByte a
  readWord h a := h.memory.readWord a
  writeByte h a value := h.writeByte a value
  writeWord h a value := h.writeWord a value
  readPort h port context := h.readPort port context
  writePort h port context value := h.react (Host.writePort port context value)

end Equivalent
end Machine

namespace Block

/-- A Game Boy block of a single call. -/
theorem compile_of_call {memory : Memory} {a target : Word} (hb : memory.readByte a = 0xCD)
    (hw : memory.readWord (a + 1) = target) :
    compile .gameBoy memory a = .ok ⟨a, 3, #[], some (.call target), .ofMachine 6, false⟩ := by
  have h0 : a + .ofNat 0 = a := by grind
  have hi : (Cursor.begin memory a).instruction .gameBoy =
      .ok (.exit (.call target) (.ofMachine 6) false, (Cursor.begin memory a).skip 3) := by
    simp only [Cursor.instruction, Cursor.byte_eq, Cursor.peek_begin, h0, hb]
    rw [← hw]
    rfl
  rw [compile, compileFrom_eq, hi]
  simp only [Cursor.start_skip, Cursor.consumed_skip, Cursor.begin, Nat.zero_add, Cost.zero_add]

variable {ω η : Type} [Observer ω] [Host η]

/-- Two memories with the same bytes where one of them holds a block hold the same block. It
has the same effect on a machine, and it has equal effects on equivalent ones. -/
theorem depends_on_own_bytes {mode : Mode} {m n : Memory} {a : Word} {b : Block}
    (hb : compile mode m a = .ok b)
    (h : ∀ i < b.length, n.readByte (a + .ofNat i) = m.readByte (a + .ofNat i)) :
    ∃ c, compile mode n a = .ok c ∧
      c.address = b.address ∧ c.length = b.length ∧ c.stop = b.stop ∧
      c.varies = b.varies ∧ c.cost = b.cost ∧ c.halts = b.halts ∧
      (∀ s : Machine ω η, c.execute s = b.execute s) ∧
      ∀ s t : Machine ω η, s.Equivalent t →
        (b.execute s).1.Equivalent (c.execute t).1 ∧ (b.execute s).2 = (c.execute t).2 := by
  refine ⟨b, compile_congr hb h, rfl, rfl, rfl, rfl, rfl, rfl, fun _ => rfl, ?_⟩
  intro s t hst
  exact Machine.Equivalent.simulation.block hst b

/-- A call that goes over the top of memory, once in RAM and once in three pieces of ROM with
a latch among them. Its push meets a border of segments in one of the two machines. -/
theorem call_depends_on_own_bytes :
    let plain := [Segment.ram 0 2 #[0x34, 0x12], .ram 2 0xFFFD #[], .ram 0xFFFF 1 #[0xCD]]
    let mixed := [Segment.rom 0 1 #[0x34], .rom 1 1 #[0x12], .latch 2 0xFFFD,
      .rom 0xFFFF 1 #[0xCD]]
    ∃ m n whole halves, Memory.ofSegments plain = .ok m ∧ Memory.ofSegments mixed = .ok n ∧
      Memory.ofSegments [.ram 0 0x10000 #[]] = .ok whole ∧
      Memory.ofSegments [.ram 0 0x8000 #[], .ram 0x8000 0x8000 #[]] = .ok halves ∧
      let machine (memory : Memory) : Machine (Listeners Unit) NoPorts :=
        ⟨({ sp := 0x8001 } : Snapshot).toRegisters .gameBoy, ⟨memory, (), []⟩, {}, .idle⟩
      (machine whole).Equivalent (machine halves) ∧
      ∃ b, compile .gameBoy m 0xFFFF = .ok b ∧ b.length = 3 ∧
        (∀ i < 3, n.readByte (0xFFFF + .ofNat i) = m.readByte (0xFFFF + .ofNat i)) ∧
        ∃ c, compile .gameBoy n 0xFFFF = .ok c ∧ c.length = 3 ∧ c.stop = 0x10002 ∧
          (b.execute (machine whole)).1.Equivalent (c.execute (machine halves)).1 ∧
          (c.execute (machine halves)).1.registers.pc = 0x1234 ∧
          (c.execute (machine halves)).2 = .ofMachine 6 := by
  intro plain mixed
  have hplain : Tiles 0 plain := by
    refine ⟨rfl, ?_, ?_, ?_, ?_, ?_, rfl⟩
    · decide
    · decide
    · rw [Segment.length_ram]; decide
    · rw [Segment.stop_ram]; rfl
    · decide
  have hmixed : Tiles 0 mixed := by
    refine ⟨rfl, ?_, ?_, ?_, ?_, ?_, ?_, ?_, rfl⟩
    · decide
    · decide
    · decide
    · decide
    · rw [Segment.length_latch]; decide
    · rw [Segment.stop_latch]; rfl
    · decide
  have hhalves : Tiles 0 [.ram 0 0x8000 #[], .ram 0x8000 0x8000 #[]] := by
    refine ⟨rfl, ?_, ?_, ?_, ?_⟩
    · rw [Segment.length_ram]; decide
    · rw [Segment.stop_ram]; rfl
    · rw [Segment.length_ram]; decide
    · rw [Tiles, Segment.stop_ram]; rfl
  obtain ⟨m, hm⟩ := Memory.exists_ofSegments hplain
  obtain ⟨n, hn⟩ := Memory.exists_ofSegments hmixed
  obtain ⟨whole, hwhole, -⟩ := Memory.exists_ofSegments_ram #[]
  obtain ⟨halves, hh⟩ := Memory.exists_ofSegments hhalves
  refine ⟨m, n, whole, halves, hm, hn, hwhole, hh, ?_⟩
  intro machine
  have hs : (machine whole).Equivalent (machine halves) := by
    refine ⟨rfl, Memory.equivalent_of_isBlank hwhole hh ?_ ?_, rfl, rfl, rfl⟩
    · intro s h
      exact ⟨_, _, List.mem_singleton.mp h⟩
    · intro s h
      simp only [List.mem_cons, List.not_mem_nil, or_false] at h
      obtain h | h := h <;> exact ⟨_, _, h⟩
  have hm0 : m.readByte 0 = 0x34 :=
    Memory.readByte_of_ofSegments hm (s := .ram 0 2 #[0x34, 0x12]) (by simp [plain]) (by decide)
  have hm1 : m.readByte 1 = 0x12 :=
    Memory.readByte_of_ofSegments hm (s := .ram 0 2 #[0x34, 0x12]) (by simp [plain]) (by decide)
  have hm2 : m.readByte 0xFFFF = 0xCD :=
    Memory.readByte_of_ofSegments hm (s := .ram 0xFFFF 1 #[0xCD]) (by simp [plain]) (by decide)
  have hn0 : n.readByte 0 = 0x34 :=
    Memory.readByte_of_ofSegments hn (s := .rom 0 1 #[0x34]) (by simp [mixed]) (by decide)
  have hn1 : n.readByte 1 = 0x12 :=
    Memory.readByte_of_ofSegments hn (s := .rom 1 1 #[0x12]) (by simp [mixed]) (by decide)
  have hn2 : n.readByte 0xFFFF = 0xCD :=
    Memory.readByte_of_ofSegments hn (s := .rom 0xFFFF 1 #[0xCD]) (by simp [mixed]) (by decide)
  have hw : m.readWord (0xFFFF + 1) = 0x1234 := by
    change m.readWord 0 = _
    rw [Memory.readWord_eq, hm0, show (0 : Word) + 1 = 1 from rfl, hm1]
    rfl
  have hb := compile_of_call hm2 hw
  have h : ∀ i < 3, n.readByte (0xFFFF + .ofNat i) = m.readByte (0xFFFF + .ofNat i) := by
    intro i hi
    obtain rfl | rfl | rfl : i = 0 ∨ i = 1 ∨ i = 2 := by omega
    · exact hn2.trans hm2.symm
    · exact hn0.trans hm0.symm
    · exact hn1.trans hm1.symm
  obtain ⟨c, hc, -, hl, ht, -, -, -, hx, he⟩ :=
    depends_on_own_bytes (ω := Listeners Unit) (η := NoPorts) hb h
  refine ⟨hs, _, hb, rfl, h, c, hc, hl, ht, (he _ _ hs).1, ?_, ?_⟩
  · rw [hx]
    rfl
  · rw [hx]
    rfl

end Block
end Z80
