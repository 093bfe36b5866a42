import Z80.Proofs.Core.Orderly

/-!
What all blocks have that the decoder of a core can compile, all blocks in its cache have: a
core never changes its mode, and nothing else puts a block there.
-/

namespace Z80

variable {η : Type}

/-- What invalidation keeps of a cache, execution keeps. -/
theorem Machine.keeps_cache [Host η] {I : Cache → Prop}
    (hI : ∀ cache a n, I cache → I (cache.invalidate a n).2) :
    Machine.Keeps fun m : Machine Cache η => I m.bus.observer where
  modifyRegisters h _ := h
  writeByte h a _ := hI _ a 1 h
  writeWord h a _ := hI _ a 2 h
  readPort h _ _ := h
  writePort h _ _ _ := h

namespace Core

/-- A core of a mode whose cache holds only blocks with a property. -/
structure Stocked (mode : Mode) (P : Block → Prop) (c : Core η) : Prop where
  mode_eq : c.mode = mode
  holds : c.cache.Holds P

namespace Stocked

variable {mode : Mode} {P : Block → Prop} {c d : Core η}

theorem of_bus (h : c.Stocked mode P) (hm : d.mode = c.mode)
    (hb : d.machine.bus = c.machine.bus) : d.Stocked mode P :=
  ⟨hm.trans h.mode_eq, by rw [cache, hb]; exact h.holds⟩

theorem advance (h : c.Stocked mode P) (cost : Cost) : (c.advance cost).Stocked mode P :=
  h.of_bus (mode_advance c cost) (bus_advance c cost)

theorem accept (h : c.Stocked mode P) (value : Word) : (c.accept value).Stocked mode P :=
  ⟨h.mode_eq, h.holds.invalidate _ 2⟩

theorem store (h : c.Stocked mode P) (s : Store) : (c.modifyBus (·.store s)).Stocked mode P := by
  refine ⟨h.mode_eq, ?_⟩
  change (c.machine.bus.store s).observer.Holds P
  rw [Bus.store_eq]
  exact h.holds.invalidate s.address s.length

theorem fetch (hP : ∀ memory a b, Block.compile mode memory a = .ok b → P b)
    (h : c.Stocked mode P) :
    (∀ b, c.fetch.1 = .ok b → P b) ∧ c.fetch.2.Stocked mode P := by
  rw [← h.mode_eq] at hP
  obtain ⟨⟨registers, ⟨memory, cache⟩, host, interrupts⟩, own, strategy, sinks, clock, parked⟩ := c
  obtain ⟨rfl, hh⟩ := h
  cases strategy with
  | caching =>
      have hg := Cache.Holds.getOrCompile hh registers.pc
        (fun _ => Block.compile own memory registers.pc) (hP memory registers.pc)
      exact ⟨hg.1, ⟨rfl, hg.2⟩⟩
  | uncached => exact ⟨fun b hb => hP memory registers.pc b hb, ⟨rfl, hh⟩⟩

variable [Host η]

theorem leaveHalt (h : c.Stocked mode P) (cost : Cost) : (c.leaveHalt cost).Stocked mode P :=
  h.of_bus (mode_leaveHalt c cost) (bus_leaveHalt c cost)

theorem behindBlock (h : c.Stocked mode P) (b : Block) : (c.behindBlock b).Stocked mode P := by
  have hb : (c.modifyMachine fun m => (b.execute m).1).Stocked mode P :=
    ⟨h.mode_eq, (Machine.keeps_cache fun _ a n hc => hc.invalidate a n).block h.holds b⟩
  simp only [Core.behindBlock]
  split
  · exact hb.of_bus rfl rfl
  · exact hb

theorem services (h : c.Stocked mode P) {s : Step η} (hs : c.Services s) :
    s.answer.2.Stocked mode P := by
  cases hs with
  | skip _ _ => exact (h.of_bus (d := c.acknowledge) rfl rfl).leaveHalt 0
  | wait _ _ => exact h.of_bus rfl rfl
  | @spend _ i _ _ _ =>
      exact (h.of_bus (d := c.acknowledge.modifyInterrupts fun _ => i) rfl rfl).leaveHalt 0
  | @accept value i _ _ _ _ =>
      exact ((h.of_bus (d := c.acknowledge.modifyInterrupts fun _ => i) rfl rfl).accept
        value).leaveHalt _

variable (hP : ∀ memory a b, Block.compile mode memory a = .ok b → P b)
include hP

theorem step (h : c.Stocked mode P) : c.step.answer.2.Stocked mode P := by
  have hm := c.moves_step
  generalize c.step = s at hm ⊢
  cases hm with
  | fault _ _ => exact (h.fetch hP).2
  | block _ _ _ => exact ((h.fetch hP).2.behindBlock _).advance _
  | service _ hs => exact h.services hs

theorem runUntil (h : c.Stocked mode P) (target steps : Nat) :
    (c.runUntil target steps).answer.2.Stocked mode P :=
  keeps_runUntil (fun _ he => he.step hP) h target steps

theorem call (h : c.Stocked mode P) (call : Call) : (c.call call).2.Stocked mode P := by
  cases call with
  | step => exact h.step hP
  | runFor cycles => exact h.runUntil hP _ _
  | runUntil target steps => exact h.runUntil hP target steps
  | writeByte a value => exact h.store (.byte a value)
  | writeWord a value => exact h.store (.word a value)
  | writeBytes a values => exact h.store (.bytes a values)
  | transfer source destination => exact h.store (.transfer source destination)
  | request address => exact h.of_bus rfl rfl
  | invalidate a n => exact ⟨h.mode_eq, h.holds.invalidate a n⟩
  | clear => exact ⟨h.mode_eq, c.cache.holds_clear P⟩
  | modifyRegisters f => exact h.of_bus rfl rfl

end Stocked

theorem Reachable.stocked [Host η] {P : Mode → Block → Prop}
    (hP : ∀ mode memory a b, Block.compile mode memory a = .ok b → P mode b) {p : Producer}
    {c : Core η} (h : Reachable p c) : c.Stocked c.mode (P c.mode) := by
  -- The mode is that of the core before, where the hypothesis of the induction applies.
  have go {c d : Core η} (hd : d.Stocked c.mode (P c.mode)) : d.Stocked d.mode (P d.mode) := by
    rw [hd.mode_eq]
    exact hd
  induction h with
  | new hc =>
      obtain ⟨memory, rfl⟩ := exists_initial_of_new hc
      exact ⟨rfl, Cache.holds_empty _⟩
  | addSink _ _ ih => exact ih.of_bus rfl rfl
  | call call _ ih => exact go (ih.call (hP _) call)
  | wait _ ih => exact go (ih.services (services_wait _))
  | change _ _ ih => exact ih.of_bus rfl rfl
  | verdict _ _ ih => exact ih.of_bus rfl rfl
  | events _ _ ih => exact ih.of_bus rfl rfl

end Core
end Z80
