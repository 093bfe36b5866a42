import Z80.Proofs.Cache.Invalidation
import Z80.Proofs.Core.Moves
import Z80.Proofs.Execution.Simulation
import Z80.Proofs.Interrupt.Licence
import Z80.Proofs.Memory.Flat

/-!
What holds of a core whatever happens around it: the fields of its handshake are tied, all
tasks in its queue are of the kind that its host and sinks queue, and its cache contains
nothing that was not compiled.
-/

namespace Z80

def Block.IsCompiled (b : Block) : Prop :=
  ∃ mode memory address, compile mode memory address = .ok b

namespace Cache

def Compiled (c : Cache) : Prop :=
  ∀ k b, c.get? k = some b → b.IsCompiled

theorem compiled_empty : Compiled empty :=
  holds_empty _

theorem compiled_clear (c : Cache) : c.clear.Compiled :=
  holds_clear _ c

namespace Compiled

variable {c : Cache}

theorem invalidate (h : c.Compiled) (a : Word) (n : Nat) : (c.invalidate a n).2.Compiled :=
  Holds.invalidate h a n

theorem getOrCompile (h : c.Compiled) (mode : Mode) (memory : Memory) (a : Word) :
    (∀ b, (c.getOrCompile a fun _ => Block.compile mode memory a).1 = .ok b → b.IsCompiled) ∧
      (c.getOrCompile a fun _ => Block.compile mode memory a).2.Compiled :=
  Holds.getOrCompile h a _ fun _ hb => ⟨mode, memory, a, hb⟩

end Compiled
end Cache

variable {η : Type} {T : ResumeTask η → Prop} {p : Producer}

/-- The calls of a host keep to the licence, wherever it is called. -/
structure Host.Within (η : Type) [Host η] (L : Licence η) : Prop where
  readPort : ∀ port context (h : η), (Host.readPort port context h).Within L
  writePort : ∀ port context value (h : η), (Host.writePort port context value h).Within L
  halted : ∀ h : η, (Host.halted h).Within L
  resumed : ∀ h : η, (Host.resumed h).Within L

theorem Host.within_any [Host η] : Host.Within η (.queueing fun _ => True) where
  readPort _ _ _ := Reaction.within_any _
  writePort _ _ _ _ := Reaction.within_any _
  halted _ := Reaction.within_any _
  resumed _ := Reaction.within_any _

namespace Machine

structure Orderly (T : ResumeTask η → Prop) (p : Producer) (m : Machine Cache η) : Prop where
  interrupts : m.interrupts.Orderly T p
  compiled : m.bus.observer.Compiled

namespace Orderly

variable {m : Machine Cache η}

theorem react (h : m.Orderly T p) {reaction : η → Reaction η}
    (hr : ∀ s, (reaction s).Within (.queueing T)) : (m.react reaction).Orderly T p :=
  ⟨(hr m.host).keeps (Interrupts.Orderly.keeps T p) h.interrupts, h.compiled⟩

theorem keeps [Host η] (hh : Host.Within η (.queueing T)) (p : Producer) :
    Machine.Keeps fun m : Machine Cache η => m.Orderly T p where
  modifyRegisters h _ := ⟨h.interrupts, h.compiled⟩
  writeByte h a _ := ⟨h.interrupts, h.compiled.invalidate a 1⟩
  writeWord h a _ := ⟨h.interrupts, h.compiled.invalidate a 2⟩
  readPort h port context :=
    ⟨(hh.readPort port context _).keeps (Interrupts.Orderly.keeps T p) h.interrupts, h.compiled⟩
  writePort h port context value := h.react (hh.writePort port context value)

theorem execute [Host η] (hh : Host.Within η (.queueing T)) (h : m.Orderly T p) (b : Block) :
    (b.execute m).1.Orderly T p :=
  (keeps hh p).block h b

end Orderly
end Machine

namespace Core

/-- What the reactions of all sinks keep, advancing keeps. -/
theorem keeps_advance_of_run {c : Core η} {J : Interrupts η → Prop}
    (hs : ∀ sink ∈ c.sinks, ∀ cost h i, J i → J ((sink cost h).run i).2) (h : J c.interrupts)
    (cost : Cost) : J (c.advance cost).interrupts := by
  have hf (sinks : List (Sink η)) {m : Machine Cache η} (hm : J m.interrupts)
      (hw : ∀ sink ∈ sinks, ∀ cost h i, J i → J ((sink cost h).run i).2) :
      J (sinks.foldl (fun m sink => m.react (sink cost)) m).interrupts := by
    induction sinks generalizing m with
    | nil => exact hm
    | cons sink rest ih =>
        rw [List.forall_mem_cons] at hw
        exact ih (m := m.react (sink cost)) (hw.1 cost m.host m.interrupts hm) hw.2
  simp only [advance]
  split
  · exact h
  · exact hf c.sinks h hs

theorem keeps_advance {c : Core η} {L : Licence η} {I : Interrupts η → Prop} (hk : L.Keeps I)
    (hs : ∀ sink ∈ c.sinks, ∀ cost h, (sink cost h).Within L) (h : I c.interrupts)
    (cost : Cost) : I (c.advance cost).interrupts :=
  keeps_advance_of_run (fun sink hm cost s _ hi => (hs sink hm cost s).keeps hk hi) h cost

structure Orderly (T : ResumeTask η → Prop) (p : Producer) (c : Core η) : Prop where
  machine : c.machine.Orderly T p
  sinks : ∀ sink ∈ c.sinks, ∀ cost h, (sink cost h).Within (.queueing T)

namespace Orderly

variable {c : Core η}

theorem interrupts (h : c.Orderly T p) : c.interrupts.Orderly T p := h.machine.interrupts

/-- A halted core that cannot skip its halt and does not await a request has an address to
take. -/
theorem isSome_pending (h : c.Orderly T .returned) (hh : c.interrupts.isHalted = true)
    (hw : c.registers.iff1 = true ∨ c.interrupts.inFlight = true)
    (hn : ¬ (c.registers.iff1 = true ∧ c.interrupts.isHaltedWithoutRequest = true)) :
    c.interrupts.pending.isSome = true := by
  rw [← h.interrupts.tied.inFlight_eq]
  cases hf : c.interrupts.inFlight with
  | true => rfl
  | false =>
      have hr : c.registers.iff1 = true := hw.resolve_right (by simp [hf])
      exact absurd ⟨hr, by simp [Interrupts.isHaltedWithoutRequest, hh, hf]⟩ hn

theorem setInterrupts (h : c.Orderly T p) {i : Interrupts η} {q : Producer}
    (hi : i.Orderly T q) : (c.modifyInterrupts fun _ => i).Orderly T q :=
  ⟨⟨hi, h.machine.compiled⟩, h.sinks⟩

theorem acknowledge (h : c.Orderly T p) : c.acknowledge.Orderly T p :=
  ⟨⟨h.machine.interrupts.acknowledgeHalt, h.machine.compiled⟩, h.sinks⟩

theorem advance (h : c.Orderly T p) (cost : Cost) : (c.advance cost).Orderly T p := by
  refine ⟨⟨keeps_advance (Interrupts.Orderly.keeps T p) h.sinks h.interrupts cost, ?_⟩, ?_⟩
  · rw [bus_advance]
    exact h.machine.compiled
  · rw [sinks_advance]
    exact h.sinks

theorem addSinks (h : c.Orderly T p) {sinks : List (Sink η)}
    (hs : ∀ sink ∈ sinks, ∀ cost h, (sink cost h).Within (.queueing T)) :
    (sinks.foldl addSink c).Orderly T p := by
  rw [foldl_addSink]
  exact ⟨h.machine, List.forall_mem_append.mpr ⟨h.sinks, hs⟩⟩

theorem fetch (h : c.Orderly T p) :
    (∀ b, c.fetch.1 = .ok b → b.IsCompiled) ∧ c.fetch.2.Orderly T p := by
  obtain ⟨⟨registers, ⟨memory, cache⟩, host, interrupts⟩, mode, strategy, sinks, clock, parked⟩ := c
  cases strategy with
  | caching =>
      have hg := h.machine.compiled.getOrCompile mode memory registers.pc
      exact ⟨hg.1, ⟨⟨h.machine.interrupts, hg.2⟩, h.sinks⟩⟩
  | uncached =>
      exact ⟨fun b hb => ⟨mode, memory, registers.pc, hb⟩, h⟩

theorem accept (h : c.Orderly T p) (value : Word) : (c.accept value).Orderly T p :=
  ⟨⟨h.machine.interrupts, h.machine.compiled.invalidate _ 2⟩, h.sinks⟩

theorem store (h : c.Orderly T p) (s : Store) : (c.modifyBus (·.store s)).Orderly T p := by
  refine ⟨⟨h.machine.interrupts, ?_⟩, h.sinks⟩
  change (c.machine.bus.store s).observer.Compiled
  rw [Bus.store_eq]
  exact h.machine.compiled.invalidate s.address s.length

variable [Host η]

/-- A core that services a halt waits, or it leaves the halt and has nothing more pending. -/
theorem leaves (h : c.Orderly T p) {s : Step η} (hs : c.Services s) :
    s = .waiting c.acknowledge ∨
    ∃ (e : Core η) (cost : Cost), s = .ran cost (e.leaveHalt cost) ∧ e.clock = c.clock ∧
      e.machine.host = c.machine.host ∧ e.sinks = c.sinks ∧
      e.interrupts.tasks = c.interrupts.tasks ∧ e.interrupts.pending = none := by
  cases hs with
  | skip _ hf => exact .inr ⟨_, _, rfl, rfl, rfl, rfl, rfl, h.interrupts.tied.pending_eq_none hf⟩
  | wait _ _ => exact .inl rfl
  | spend _ _ ht | accept _ ht _ =>
      have hi := Interrupts.tasks_take ht
      exact .inr ⟨_, _, rfl, rfl, rfl, rfl, hi, Interrupts.pending_take ht⟩

variable (hh : Host.Within η (.queueing T))
include hh

theorem enterHalt (h : c.Orderly T p) : c.enterHalt.Orderly T p := by
  have hm : (c.modifyInterrupts (·.halt)).machine.Orderly T p :=
    ⟨h.interrupts.halt, h.machine.compiled⟩
  exact ⟨hm.react hh.halted, h.sinks⟩

theorem behindBlock (h : c.Orderly T p) (b : Block) : (c.behindBlock b).Orderly T p := by
  have hb : (c.modifyMachine fun m => (b.execute m).1).Orderly T p :=
    ⟨h.machine.execute hh b, h.sinks⟩
  simp only [Core.behindBlock]
  split
  · exact hb.enterHalt hh
  · exact hb

variable (hT : ∀ task, T task → task.Within (.queueing T))
include hT

theorem leaveHalt (h : c.Orderly T p) (cost : Cost) : (c.leaveHalt cost).Orderly T p := by
  have hr : c.resumeInterrupts.machine.Orderly T p :=
    ⟨h.interrupts.resume hT c.machine.host, h.machine.compiled⟩
  exact advance (c := c.resumeInterrupts.modifyMachine (·.react Host.resumed))
    ⟨hr.react hh.resumed, h.sinks⟩ cost

theorem services (h : c.Orderly T p) {s : Step η} (hs : c.Services s) :
    s.answer.2.Orderly T p := by
  have ha := h.acknowledge
  cases hs with
  | skip _ _ => exact ha.leaveHalt hh hT 0
  | wait _ _ => exact ha
  | spend _ _ ht => exact (ha.setInterrupts (ha.interrupts.take ht)).leaveHalt hh hT 0
  | accept _ ht _ => exact ((ha.setInterrupts (ha.interrupts.take ht)).accept _).leaveHalt hh hT _

theorem step (h : c.Orderly T p) : c.step.answer.2.Orderly T p := by
  have hm := c.moves_step
  generalize c.step = s at hm ⊢
  cases hm with
  | fault _ _ => exact h.fetch.2
  | block _ _ _ => exact (h.fetch.2.behindBlock hh _).advance _
  | service _ hs => exact h.services hh hT hs

theorem runUntil (h : c.Orderly T p) (target steps : Nat) :
    (c.runUntil target steps).answer.2.Orderly T p :=
  keeps_runUntil (fun _ he => he.step hh hT) h target steps

theorem call (h : c.Orderly T p) (call : Call) :
    (c.call call).2.Orderly T p := by
  cases call with
  | step => exact h.step hh hT
  | runFor cycles => exact h.runUntil hh hT _ _
  | runUntil target steps => exact h.runUntil hh hT target steps
  | writeByte a value => exact h.store (.byte a value)
  | writeWord a value => exact h.store (.word a value)
  | writeBytes a values => exact h.store (.bytes a values)
  | transfer source destination => exact h.store (.transfer source destination)
  | request address => exact h.setInterrupts (h.interrupts.request address)
  | invalidate a n => exact ⟨⟨h.interrupts, h.machine.compiled.invalidate a n⟩, h.sinks⟩
  | clear => exact ⟨⟨h.interrupts, c.cache.compiled_clear⟩, h.sinks⟩
  | modifyRegisters f => exact ⟨⟨h.interrupts, h.machine.compiled⟩, h.sinks⟩

end Orderly

/-- A core over one segment of RAM. -/
theorem exists_new_of_ram (η : Type) [Host η] (contents : Array Byte) :
    ∃ memory,
      (∀ mode strategy start (host : η),
        Core.new mode strategy start [.ram 0 0x10000 contents] host =
          .ok (initial mode strategy start memory host)) ∧
      ∀ a : Word, a.toNat < min 0x10000 contents.size →
        memory.readByte a = contents[a.toNat]?.getD 0xFF := by
  obtain ⟨memory, hm, ho⟩ := Memory.exists_ofSegments_ram contents
  refine ⟨memory, ?_, ?_⟩
  · intro mode strategy start host
    rw [new_eq, hm]
    rfl
  · intro a ha
    rw [Memory.readByte, ho, Segment.readByte_ram _ _ ha]

theorem orderly_initial [Host η] (mode : Mode) (strategy : Strategy) (start : Snapshot)
    (memory : Memory) (host : η) :
    (initial mode strategy start memory host).Orderly T .returned :=
  ⟨⟨⟨.idle host, fun _ h => absurd h List.not_mem_nil⟩, Cache.compiled_empty⟩,
    fun _ h => absurd h List.not_mem_nil⟩

/-- What a core can come to between two calls, and beside it a producer. Anything may happen
to the handshake meanwhile, and the surroundings may change their state. What others do in
the middle of a step comes before or after it here; beyond that they can only have changed
the verdict on a halt. -/
inductive Reachable [Host η] : Producer → Core η → Prop
  | new {mode : Mode} {strategy : Strategy} {start : Snapshot} {segments : List Segment}
      {host : η} {c : Core η} : Core.new mode strategy start segments host = .ok c →
      Reachable .returned c
  | addSink {p : Producer} {c : Core η} (sink : Sink η) : Reachable p c →
      Reachable p (c.addSink sink)
  | call {p : Producer} {c : Core η} (call : Call) : Reachable p c → Reachable p (c.call call).2
  | wait {p : Producer} {c : Core η} : Reachable p c →
      Reachable p c.waitForInterrupt.answer.2
  | change {p : Producer} {c : Core η} (f : η → η) : Reachable p c → Reachable p (c.modifyHost f)
  | verdict {p : Producer} {c : Core η} (parked : Bool) : Reachable p c →
      Reachable p { c with parked := parked }
  | events {p : Producer} {c : Core η} (events : List (Event η)) : Reachable p c →
      Reachable ((History.recall c.interrupts c.machine.host p).run events).producer
        (c.modifyInterrupts fun i => ((History.recall i c.machine.host p).run events).interrupts)

theorem Reachable.orderly [Host η] {p : Producer} {c : Core η} (h : Reachable p c) :
    c.Orderly (fun _ => True) p := by
  have hT (task : ResumeTask η) (_ : True) : task.Within (.queueing fun _ => True) :=
    task.within_any
  induction h with
  | new hc =>
      obtain ⟨memory, rfl⟩ := exists_initial_of_new hc
      exact orderly_initial _ _ _ memory _
  | addSink sink _ ih =>
      refine ⟨ih.machine, ?_⟩
      intro s _ cost state
      exact Reaction.within_any _
  | call call _ ih => exact ih.call Host.within_any hT call
  | wait _ ih => exact ih.services Host.within_any hT (services_wait _)
  | change f _ ih => exact ⟨⟨ih.interrupts, ih.machine.compiled⟩, ih.sinks⟩
  | verdict _ _ ih => exact ⟨ih.machine, ih.sinks⟩
  | @events p c events _ ih =>
      exact ⟨⟨⟨ih.interrupts.tied.run c.machine.host events, fun _ _ => trivial⟩,
        ih.machine.compiled⟩, ih.sinks⟩

end Core
end Z80
