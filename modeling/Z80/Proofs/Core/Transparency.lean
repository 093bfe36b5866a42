import Z80.Proofs.Cache.Coherence
import Z80.Proofs.Core.Calls
import Z80.Proofs.Execution.Simulation

/-!
The cache of blocks cannot be seen. A core that caches and a core that compiles every block
anew stay equal in everything but their caches, whatever is called on both, because the
first one's cache stays coherent with memory: each change of memory is a write of the bus,
and the cache watches the bus. Hosts and sinks are any functions of a state of their own,
which may be a log of all that they were called with.
-/

namespace Z80

variable {η : Type}

/-- Machines that differ in nothing but their caches, of which the first is coherent. -/
structure Machine.Twin (mode : Mode) (m n : Machine Cache η) : Prop where
  registers : m.registers = n.registers
  memory : m.bus.memory = n.bus.memory
  host : m.host = n.host
  interrupts : m.interrupts = n.interrupts
  isLocal : m.bus.memory.Local
  coherent : m.bus.observer.Coherent mode m.bus.memory

namespace Machine.Twin

variable {mode : Mode} {m n : Machine Cache η}

theorem modifyRegisters (h : Twin mode m n) (f : Registers → Registers) :
    Twin mode (m.modifyRegisters f) (n.modifyRegisters f) :=
  { h with registers := congrArg f h.registers }

theorem react (h : Twin mode m n) (reaction : η → Reaction η) :
    Twin mode (m.react reaction) (n.react reaction) := by
  have hr : (reaction m.host).run m.interrupts = (reaction n.host).run n.interrupts := by
    rw [h.host, h.interrupts]
  exact {
    h with
    host := congrArg Prod.fst hr
    interrupts := congrArg Prod.snd hr }

theorem readPort [Host η] (h : Twin mode m n) (port context : Byte) :
    (m.readPort port context).1 = (n.readPort port context).1 ∧
      Twin mode (m.readPort port context).2 (n.readPort port context).2 := by
  have hr : (Host.readPort port context m.host).run m.interrupts =
      (Host.readPort port context n.host).run n.interrupts := by
    rw [h.host, h.interrupts]
  refine ⟨congrArg (·.1.1) hr, ?_⟩
  exact {
    h with
    host := congrArg (·.1.2) hr
    interrupts := congrArg Prod.snd hr }

/-- What the bus writes, it announces with its whole length. -/
theorem modifyBus (h : Twin mode m n) (f : Bus Cache → Bus Cache) (a : Word)
    (values : List Byte)
    (hm : ∀ b, b.memory = m.bus.memory → (f b).memory = b.memory.writeEach a values)
    (hc : ∀ b, (f b).observer = (b.observer.invalidate a values.length).2) :
    Twin mode { m with bus := f m.bus } { n with bus := f n.bus } where
  registers := h.registers
  memory := by
    change (f m.bus).memory = (f n.bus).memory
    rw [hm _ rfl, hm _ h.memory.symm, h.memory]
  host := h.host
  interrupts := h.interrupts
  isLocal := by
    change (f m.bus).memory.Local
    rw [hm _ rfl]
    exact Memory.local_writeEach h.isLocal a values
  coherent := by
    change (f m.bus).observer.Coherent mode (f m.bus).memory
    rw [hm _ rfl, hc]
    exact h.coherent.writeEach h.isLocal a values

theorem writeByte (h : Twin mode m n) (a : Word) (value : Byte) :
    Twin mode (m.writeByte a value) (n.writeByte a value) :=
  h.modifyBus (·.writeByte a value) a [value] (fun _ _ => rfl) fun _ => rfl

theorem writeWord (h : Twin mode m n) (a : Word) (value : Word) :
    Twin mode (m.writeWord a value) (n.writeWord a value) :=
  h.modifyBus (·.writeWord a value) a [Word.low value, Word.high value]
    (fun b _ => b.memory.writeWord_eq a value) fun _ => rfl

theorem simulation [Host η] (mode : Mode) :
    Machine.Simulation (Twin (η := η) mode) where
  registers h := h.registers
  modifyRegisters h f := h.modifyRegisters f
  readByte h a := congrArg (·.readByte a) h.memory
  readWord h a := congrArg (·.readWord a) h.memory
  writeByte h a value := h.writeByte a value
  writeWord h a value := h.writeWord a value
  readPort h port context := h.readPort port context
  writePort h port context value := h.react (Host.writePort port context value)

end Machine.Twin

namespace Core

/-- A core that caches and one that does not, at the same point of the same run. -/
structure Twin (c d : Core η) : Prop where
  machine : c.machine.Twin c.mode d.machine
  mode : c.mode = d.mode
  caching : c.strategy = .caching
  uncached : d.strategy = .uncached
  sinks : c.sinks = d.sinks
  clock : c.clock = d.clock
  parked : c.parked = d.parked

inductive Step.Twin : Step η → Step η → Prop
  | ran {c d : Core η} (cost : Cost) : c.Twin d → Step.Twin (.ran cost c) (.ran cost d)
  | fault {c d : Core η} (fault : DecodeFault) : c.Twin d →
      Step.Twin (.fault fault c) (.fault fault d)
  | waiting {c d : Core η} : c.Twin d → Step.Twin (.waiting c) (.waiting d)

inductive Run.Twin : Run η → Run η → Prop
  | stopped {c d : Core η} (reason : StopReason) : c.Twin d →
      Run.Twin (.stopped reason c) (.stopped reason d)
  | fault {c d : Core η} (fault : DecodeFault) : c.Twin d →
      Run.Twin (.fault fault c) (.fault fault d)
  | waiting {c d : Core η} : c.Twin d → Run.Twin (.waiting c) (.waiting d)
  | exhausted {c d : Core η} : c.Twin d → Run.Twin (.exhausted c) (.exhausted d)

theorem Step.Twin.answer {s t : Step η} (h : Step.Twin s t) :
    s.answer.1 = t.answer.1 ∧ s.answer.2.Twin t.answer.2 := by
  cases h with
  | ran _ ht | fault _ ht | waiting ht => exact ⟨rfl, ht⟩

theorem Run.Twin.answer {s t : Run η} (h : Run.Twin s t) :
    s.answer.1 = t.answer.1 ∧ s.answer.2.Twin t.answer.2 := by
  cases h with
  | stopped _ ht | fault _ ht | waiting ht | exhausted ht => exact ⟨rfl, ht⟩

theorem fetch_of_uncached {c : Core η} (h : c.strategy = .uncached) :
    c.fetch = (Block.compile c.mode c.memory c.registers.pc, c) := by
  obtain ⟨machine, mode, strategy, sinks, clock, parked⟩ := c
  cases h
  rfl

namespace Twin

variable {c d : Core η}

theorem registers (h : c.Twin d) : c.registers = d.registers := h.machine.registers

theorem memory (h : c.Twin d) : c.memory = d.memory := h.machine.memory

theorem interrupts (h : c.Twin d) : c.interrupts = d.interrupts := h.machine.interrupts

theorem modifyMachine (h : c.Twin d) {f g : Machine Cache η → Machine Cache η}
    (hm : (f c.machine).Twin c.mode (g d.machine)) :
    (c.modifyMachine f).Twin (d.modifyMachine g) :=
  { h with machine := hm }

theorem modifyRegisters (h : c.Twin d) (f : Registers → Registers) :
    (c.modifyRegisters f).Twin (d.modifyRegisters f) :=
  h.modifyMachine (h.machine.modifyRegisters f)

theorem react (h : c.Twin d) (reaction : η → Reaction η) :
    (c.modifyMachine (·.react reaction)).Twin (d.modifyMachine (·.react reaction)) :=
  h.modifyMachine (h.machine.react reaction)

theorem setInterrupts (h : c.Twin d) (i : Interrupts η) :
    (c.modifyInterrupts fun _ => i).Twin (d.modifyInterrupts fun _ => i) :=
  h.modifyMachine { h.machine with interrupts := rfl }

theorem modifyInterrupts (h : c.Twin d) (f : Interrupts η → Interrupts η) :
    (c.modifyInterrupts f).Twin (d.modifyInterrupts f) :=
  h.modifyMachine { h.machine with interrupts := congrArg f h.machine.interrupts }

theorem setParked (h : c.Twin d) (parked : Bool) :
    Twin { c with parked := parked } { d with parked := parked } :=
  { h with parked := rfl }

theorem advance (h : c.Twin d) (cost : Cost) : (c.advance cost).Twin (d.advance cost) := by
  have hs (sinks : List (Sink η)) {m n : Machine Cache η} (hm : m.Twin c.mode n) :
      (sinks.foldl (fun m sink => m.react (sink cost)) m).Twin c.mode
        (sinks.foldl (fun m sink => m.react (sink cost)) n) := by
    induction sinks generalizing m n with
    | nil => exact hm
    | cons sink rest ih => exact ih (hm.react (sink cost))
  simp only [Core.advance]
  split
  · exact h
  · have hm := hs c.sinks h.machine
    exact {
      h with
      machine := by
        rw [← h.sinks]
        exact hm
      clock := congrArg (· + cost.clock) h.clock }

theorem fetch (h : c.Twin d) : c.fetch.1 = d.fetch.1 ∧ c.fetch.2.Twin d.fetch.2 := by
  have hg := h.machine.coherent.getOrCompile c.registers.pc
  rw [fetch_of_uncached h.uncached]
  simp only [Core.fetch, h.caching]
  refine ⟨?_, ?_⟩
  · rw [← h.mode, ← h.memory, ← h.registers]
    exact hg.1
  · exact {
      h with
      machine := { h.machine with coherent := hg.2 }
      caching := rfl }

theorem modifyBus (h : c.Twin d) (f : Bus Cache → Bus Cache) (a : Word) (values : List Byte)
    (hm : ∀ b, b.memory = c.memory → (f b).memory = b.memory.writeEach a values)
    (hc : ∀ b, (f b).observer = (b.observer.invalidate a values.length).2) :
    (c.modifyBus f).Twin (d.modifyBus f) :=
  h.modifyMachine (h.machine.modifyBus f a values hm hc)

theorem modifyCache (h : c.Twin d) (f : Cache → Cache)
    (hf : ∀ mode memory k, Cache.Coherent mode memory k → Cache.Coherent mode memory (f k)) :
    (c.modifyCache f).Twin (d.modifyCache f) :=
  { h with machine := { h.machine with coherent := hf _ _ _ h.machine.coherent } }

theorem view (h : c.Twin d) : c.view = d.view := by
  simp only [Core.view, h.registers, h.memory, h.machine.host, h.interrupts, h.clock, h.parked]

theorem addSinks (h : c.Twin d) (sinks : List (Sink η)) :
    (sinks.foldl addSink c).Twin (sinks.foldl addSink d) := by
  induction sinks generalizing c d with
  | nil => exact h
  | cons sink rest ih => exact ih { h with sinks := congrArg (· ++ [sink]) h.sinks }

variable [Host η]

theorem accept (h : c.Twin d) (value : Word) : (c.accept value).Twin (d.accept value) := by
  have S := Machine.Twin.simulation (η := η) c.mode
  have h0 := h.machine.modifyRegisters fun r => { r with iff1 := false, iff2 := false }
  have hp := S.push h0 (d.machine.modifyRegisters fun r =>
    { r with iff1 := false, iff2 := false }).registers.pc
  simp only [Core.accept, ← h.mode]
  refine h.modifyMachine ?_
  simp only [acceptTarget, S.registers h0, S.registers hp, S.readWord hp]
  exact S.setPC hp _

theorem leaveHalt (h : c.Twin d) (cost : Cost) : (c.leaveHalt cost).Twin (d.leaveHalt cost) := by
  have hr : c.machine.interrupts.resume c.machine.host =
      d.machine.interrupts.resume d.machine.host := by
    rw [h.machine.interrupts, h.machine.host]
  have hi : c.resumeInterrupts.Twin d.resumeInterrupts := h.modifyMachine {
    h.machine with
    host := congrArg Prod.fst hr
    interrupts := congrArg Prod.snd hr }
  exact (hi.react Host.resumed).advance cost

theorem waitWith (h : c.Twin d) (take : Interrupts η → Option (Word × Interrupts η)) :
    Step.Twin (c.waitWith take) (d.waitWith take) := by
  have ha := (h.setParked false).modifyInterrupts (·.acknowledgeHalt)
  simp only [Core.waitWith, ha.registers, ha.interrupts]
  split
  · exact .ran 0 (ha.leaveHalt 0)
  · split
    · exact .waiting ha
    · rename_i value i _
      have ht := ha.setInterrupts i
      simp only [ht.registers, ht.mode]
      split
      · exact .ran _ ((ht.accept value).leaveHalt _)
      · exact .ran 0 (ht.leaveHalt 0)

theorem enterHalt (h : c.Twin d) : c.enterHalt.Twin d.enterHalt := by
  have hh := (h.modifyInterrupts (·.halt)).react Host.halted
  simp only [Core.enterHalt, hh.registers, hh.interrupts]
  exact hh.setParked _

theorem runBlock (h : c.Twin d) (b : Block) : Step.Twin (c.runBlock b) (d.runBlock b) := by
  obtain ⟨hm, hc⟩ := (Machine.Twin.simulation c.mode).block h.machine b
  have hr := h.modifyMachine (f := fun m => (b.execute m).1) (g := fun m => (b.execute m).1) hm
  simp only [Core.runBlock, hc]
  split
  · exact .ran _ (hr.enterHalt.advance _)
  · exact .ran _ (hr.advance _)

theorem step (h : c.Twin d) : Step.Twin c.step d.step := by
  simp only [Core.step, Core.stepWith, h.interrupts]
  split
  · exact h.waitWith Interrupts.take?
  · obtain ⟨hb, hc⟩ := h.fetch
    cases hf : c.fetch with
    | mk result c' =>
        cases hg : d.fetch with
        | mk result' d' =>
            rw [hf, hg] at hb hc
            cases hb
            cases result with
            | error fault => exact .fault fault hc
            | ok b => exact hc.runBlock b

theorem runUntil (h : c.Twin d) (target steps : Nat) :
    Run.Twin (c.runUntil target steps) (d.runUntil target steps) := by
  induction steps generalizing c d with
  | zero => exact .exhausted h
  | succ steps ih =>
      simp only [Core.runUntil, h.clock, h.registers, h.interrupts]
      split
      · exact .stopped _ h
      · split
        · exact .stopped _ h
        · have hs := h.step
          cases hc : c.step <;> cases hd : d.step <;> rw [hc, hd] at hs <;> cases hs
          case ran.ran.ran c' _ d' ht =>
            simp only [ht.parked]
            split
            · exact .stopped _ ht
            · exact ih ht
          case fault.fault.fault ht => exact .fault _ ht
          case waiting.waiting.waiting ht => exact .waiting ht

theorem call (h : c.Twin d) (call : Call) :
    (c.call call).1 = (d.call call).1 ∧ (c.call call).2.Twin (d.call call).2 := by
  cases call with
  | step => exact h.step.answer
  | runFor cycles =>
      simp only [Core.call, Core.runFor, h.clock]
      exact (h.runUntil (d.clock + cycles) (cycles + idleSteps)).answer
  | runUntil target steps => exact (h.runUntil target steps).answer
  | writeByte a value =>
      exact ⟨rfl, h.modifyBus (·.writeByte a value) a [value] (fun _ _ => rfl) fun _ => rfl⟩
  | writeWord a value =>
      exact ⟨rfl, h.modifyBus (·.writeWord a value) a [Word.low value, Word.high value]
        (fun b _ => b.memory.writeWord_eq a value) fun _ => rfl⟩
  | writeBytes a values =>
      exact ⟨rfl, h.modifyBus (·.writeBytes a values) a values
        (fun b _ => b.memory.writeBytes_eq_writeEach a values) fun _ => rfl⟩
  | transfer source destination =>
      have hv : c.machine.bus.readByte source = d.machine.bus.readByte source :=
        congrArg (·.readByte source) h.memory
      refine ⟨congrArg Answer.byte hv, ?_⟩
      refine h.modifyBus (fun b => (b.transfer source destination).2) destination
        [c.machine.bus.readByte source] (fun b hb => ?_) fun _ => rfl
      have hs : b.readByte source = c.machine.bus.readByte source :=
        congrArg (·.readByte source) hb
      rw [← hs]
      rfl
  | request address =>
      have hi := h.interrupts
      simp only [Core.call, Core.request, hi, true_and]
      exact h.setInterrupts _
  | invalidate a n =>
      exact ⟨rfl, h.modifyCache (fun k => (k.invalidate a n).2) fun _ _ _ hc => hc.invalidate a n⟩
  | modifyRegisters f => exact ⟨rfl, h.modifyRegisters f⟩
  | clear => exact ⟨rfl, h.modifyCache (·.clear) fun _ _ _ _ => Cache.coherent_clear _ _ _⟩

theorem trace (h : c.Twin d) (calls : List Call) : c.trace calls = d.trace calls := by
  induction calls generalizing c d with
  | nil => rfl
  | cons call rest ih =>
      obtain ⟨ha, ht⟩ := h.call call
      simp only [Core.trace, ha, ht.view, ih ht]

end Twin

/-- Caching cannot be told from compiling every block anew: the same calls get the same
answers and leave the same registers, memory, host, handshake and clock. -/
theorem trace_caching_eq_trace_uncached [Host η] (mode : Mode) (start : Snapshot)
    (segments : List Segment) (hs : ∀ s ∈ segments, s.Local) (host : η)
    (sinks : List (Sink η)) (calls : List Call) :
    (Core.new mode .caching start segments host).map
        (fun c => (sinks.foldl addSink c).trace calls) =
      (Core.new mode .uncached start segments host).map
        fun c => (sinks.foldl addSink c).trace calls := by
  simp only [Core.new]
  cases hm : Memory.ofSegments segments with
  | error fault => rfl
  | ok memory =>
      have hl : memory.Local := fun s h => hs s (Memory.mem_of_ofSegments hm h)
      refine congrArg Except.ok (Twin.trace (Twin.addSinks ?_ sinks) calls)
      exact ⟨⟨rfl, rfl, rfl, rfl, hl, Cache.coherent_empty _ _⟩, rfl, rfl, rfl, rfl, rfl, rfl⟩

/-- A program that writes over itself, `LD HL,0; LD (HL),76; JR -7`, beside a host that
writes to it, too. -/
theorem trace_of_self_modifying_program :
    let segments := [Segment.ram 0 0x8000 #[0x21, 0x00, 0x00, 0x36, 0x76, 0x18, 0xF9],
      .rom 0x8000 0x4000 #[], .latch 0xC000 0x4000]
    let calls := [Call.step, .step, .writeByte 0 0x00, .request 0x08, .runFor 100, .clear]
    let sinks : List (Sink NoPorts) := [fun _ host => .request 0x38 fun _ => .done host]
    (∃ m, Memory.ofSegments segments = .ok m) ∧ (∀ s ∈ segments, s.Local) ∧
      (Core.new .z80 .caching {} segments NoPorts.mk).map
          (fun c => (sinks.foldl addSink c).trace calls) =
        (Core.new .z80 .uncached {} segments NoPorts.mk).map
          fun c => (sinks.foldl addSink c).trace calls := by
  intro segments calls sinks
  have ht : Tiles 0 segments := by
    refine ⟨rfl, ?_, ?_, ?_, ?_, ?_, ?_⟩
    · rw [Segment.length_ram]; decide
    · rw [Segment.stop_ram]; rfl
    · rw [Segment.length_rom]; decide
    · rw [Segment.stop_rom]; rfl
    · rw [Segment.length_latch]; decide
    · rw [Tiles, Segment.stop_latch]; rfl
  have hs : ∀ s ∈ segments, s.Local := by
    intro s h
    simp only [segments, List.mem_cons, List.not_mem_nil, or_false] at h
    obtain rfl | rfl | rfl := h
    · exact Segment.local_ram _ _ _
    · exact Segment.local_rom _ _ _
    · exact Segment.local_latch _ _
  refine ⟨Memory.exists_ofSegments ht, hs, ?_⟩
  exact trace_caching_eq_trace_uncached .z80 {} segments hs NoPorts.mk sinks calls

end Core
end Z80
