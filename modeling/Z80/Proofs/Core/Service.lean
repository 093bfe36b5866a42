import Z80.Proofs.Core.Orderly
import Z80.Proofs.Interrupt.Calls

/-!
A pending request is serviced by the next step, whatever else is in the way. What the step
does to registers and memory is fixed by the request; what it does to the handshake is to
take the request and then to let the tasks, the host and the sinks make their calls.
-/

namespace Z80.Core

variable {η : Type}

/-- What the service of a request costs. -/
def serviceCost (c : Core η) : Cost :=
  if c.registers.iff1 then acceptCost c.mode c.registers.interruptMode else 0

/-- A core that has taken a request and, with interrupts enabled, accepted it. It has not
left its halt yet. -/
def taking (c : Core η) (value : Word) : Core η :=
  let d := c.acknowledge.modifyInterrupts Interrupts.taken
  if c.registers.iff1 then d.accept value else d

/-- Where the handler of a request starts. The memory is the one behind the push. -/
def handler (c : Core η) (value : Word) (memory : Memory) : Word :=
  match c.mode, c.registers.interruptMode with
  | .gameBoy, _ => value
  | .z80, .im0 => value &&& 0x38
  | .z80, .im1 => 0x0038
  | .z80, .im2 =>
    let vector := c.registers.i.toUInt16 <<< 8 ||| value &&& 0xFE
    .ofBytes (memory.readByte vector) (memory.readByte (vector + 1))

theorem ofBytes_low_and (value : Word) (i : Byte) :
    Word.ofBytes (Word.low value &&& 0xFE) i = i.toUInt16 <<< 8 ||| value &&& 0xFE := by
  have h : (Word.low value &&& 0xFE).toUInt16 = value &&& 0xFE := by
    rw [← UInt16.toNat_inj]
    have hm := Nat.and_mod_two_pow (a := value.toNat) (b := 0xFE) (n := 8)
    have hl : value.toNat &&& 0xFE ≤ 0xFE := Nat.and_le_right
    rw [Nat.mod_eq_of_lt (by omega)] at hm
    exact hm.symm
  rw [Word.ofBytes, h]

theorem acceptTarget_eq (c : Core η) (value : Word) (m : Machine Cache η)
    (hm : m.registers.interruptMode = c.registers.interruptMode)
    (hi : m.registers.i = c.registers.i) :
    acceptTarget c.mode m value = c.handler value m.bus.memory := by
  simp only [acceptTarget, handler, hm, hi]
  generalize c.registers.interruptMode = im
  cases c.mode with
  | gameBoy => rfl
  | z80 =>
      cases im with
      | im0 | im1 => rfl
      | im2 =>
          simp only [Machine.readWord, Bus.readWord, Memory.readWord_eq]
          rw [ofBytes_low_and]

theorem registers_accept (c : Core η) (value : Word) :
    (c.accept value).registers =
      { c.registers with
        iff1 := false
        iff2 := false
        sp := c.registers.sp - 2
        pc := c.handler value (c.accept value).memory } := by
  have ht := c.acceptTarget_eq value ((c.machine.modifyRegisters fun r =>
    { r with iff1 := false, iff2 := false }).push c.registers.pc) rfl rfl
  exact congrArg (fun pc =>
    { c.registers with iff1 := false, iff2 := false, sp := c.registers.sp - 2, pc := pc }) ht

theorem memory_accept (c : Core η) (value : Word) :
    (c.accept value).memory =
      (c.memory.writeByte (c.registers.sp - 2) (Word.low c.registers.pc)).writeByte
        (c.registers.sp - 1) (Word.high c.registers.pc) := by
  have hs : c.registers.sp - 1 = c.registers.sp - 2 + 1 := by grind
  rw [hs]
  exact Memory.writeWord_eq _ _ _

/-- The calls of sinks that are told of a cost one after the other. -/
def callsOfSinks (cost : Cost) : List (Sink η) → Machine Cache η → List (Event η)
  | [], _ => []
  | sink :: rest, m =>
      (sink cost m.host).calls m.interrupts ++ callsOfSinks cost rest (m.react (sink cost))

theorem interrupts_run_callsOfSinks (cost : Cost) (sinks : List (Sink η)) (m : Machine Cache η)
    (h : History η) (hi : h.interrupts = m.interrupts) :
    (h.run (callsOfSinks cost sinks m)).interrupts =
      (sinks.foldl (fun m sink => m.react (sink cost)) m).interrupts := by
  induction sinks generalizing m h with
  | nil => exact hi
  | cons sink rest ih =>
      have hs := h.interrupts_run_reaction (sink cost m.host)
      rw [hi] at hs
      rw [callsOfSinks, History.run_append]
      exact ih _ _ hs

theorem isCall_callsOfSinks (cost : Cost) (sinks : List (Sink η)) (m : Machine Cache η) :
    ∀ e ∈ callsOfSinks cost sinks m, e.isCall = true := by
  induction sinks generalizing m with
  | nil => exact fun _ h => absurd h List.not_mem_nil
  | cons sink rest ih =>
      exact List.forall_mem_append.mpr ⟨(sink cost m.host).isCall_calls _, ih _⟩

variable [Host η]

/-- A core that has left its halt; its sinks are still to be told. -/
def behindHalt (c : Core η) : Core η :=
  c.resumeInterrupts.modifyMachine (·.react Host.resumed)

/-- The calls of the tasks, the host and the sinks when a core leaves its halt. -/
def callsAtResume (c : Core η) (cost : Cost) : List (Event η) :=
  ResumeTask.callsOfAll c.interrupts.tasks c.machine.host c.interrupts.leaveHalt ++
    (Host.resumed c.resumeInterrupts.machine.host).calls c.resumeInterrupts.interrupts ++
    if cost.isZero then [] else callsOfSinks cost c.sinks c.behindHalt.machine

theorem interrupts_leaveHalt (c : Core η) (cost : Cost) (h : History η)
    (hi : h.interrupts = c.interrupts) :
    (c.leaveHalt cost).interrupts = (h.run (.leaveHalt :: c.callsAtResume cost)).interrupts := by
  have hl : (h.step .leaveHalt).interrupts = c.interrupts.leaveHalt :=
    congrArg Interrupts.leaveHalt hi
  have ht := (h.step .leaveHalt).interrupts_run_tasks c.interrupts.tasks c.machine.host
  rw [hl] at ht
  change (c.behindHalt.advance cost).interrupts =
    ((h.step .leaveHalt).run (c.callsAtResume cost)).interrupts
  rw [callsAtResume, History.run_append, History.run_append]
  generalize (h.step .leaveHalt).run
    (ResumeTask.callsOfAll c.interrupts.tasks c.machine.host c.interrupts.leaveHalt) = g at ht ⊢
  replace ht : g.interrupts = c.resumeInterrupts.interrupts := ht
  have hr := g.interrupts_run_reaction (Host.resumed c.resumeInterrupts.machine.host)
  rw [ht] at hr
  simp only [advance]
  split
  · exact hr.symm
  · exact (interrupts_run_callsOfSinks cost c.sinks c.behindHalt.machine _ hr).symm

theorem isCall_callsAtResume (c : Core η) (cost : Cost) :
    ∀ e ∈ c.callsAtResume cost, e.isCall = true := by
  refine List.forall_mem_append.mpr ⟨List.forall_mem_append.mpr ⟨?_, ?_⟩, ?_⟩
  · exact ResumeTask.isCall_callsOfAll _ _ _
  · exact Reaction.isCall_calls _ _
  · split
    · exact fun _ h => absurd h List.not_mem_nil
    · exact isCall_callsOfSinks _ _ _

/-- What the surroundings call in a step that services a request, behind its taking. -/
def callsAtService (c : Core η) (value : Word) : List (Event η) :=
  (c.taking value).callsAtResume c.serviceCost

theorem step_of_pending {T : ResumeTask η → Prop} {c : Core η} {value : Word}
    (h : c.Orderly T .returned) (hp : c.interrupts.pending = some value) :
    c.step = c.waitForInterrupt ∧
      c.step = .ran c.serviceCost ((c.taking value).leaveHalt c.serviceCost) := by
  have hph : c.interrupts.phase = .pending := by
    rw [h.interrupts.tied.phase_eq_pending, hp]
    rfl
  have hf : c.interrupts.inFlight = true := by
    rw [h.interrupts.tied.inFlight_eq, hp]
    rfl
  have hh : c.interrupts.isHalted = true := by
    rw [Interrupts.isHalted, hph]
    rfl
  have hs : c.step = c.waitForInterrupt := if_pos hh
  have ht : c.acknowledge.interrupts.take? = some (value, c.acknowledge.interrupts.taken) :=
    Interrupts.take?_of_pending hp
  refine ⟨hs, ?_⟩
  rw [hs]
  have hm := c.services_wait
  generalize c.waitForInterrupt = s at hm ⊢
  cases hm with
  | skip _ hi => exact absurd (hf.symm.trans hi) (by decide)
  | wait _ hn => exact absurd (ht.symm.trans hn) (by simp)
  | spend hr _ hn =>
      rw [ht] at hn
      cases hn
      simp only [serviceCost, taking, hr]
      rfl
  | accept hr hn hc =>
      rw [ht] at hn
      cases hn
      simp only [serviceCost, taking, hr, hc]
      rfl

theorem isZero_acceptCost (mode : Mode) (im : InterruptMode) :
    (acceptCost mode im).isZero = false := by
  cases mode <;> cases im <;> rfl

/-- What the step from one core to the other did if it accepted the value: it called the
handler, no block was looked up, and every sink was told once of the time. -/
structure Accepts (c : Core η) (value : Word) (cost : Cost) (d : Core η) : Prop where
  cost_eq : cost = acceptCost c.mode c.registers.interruptMode
  registers_eq : d.registers =
    { c.registers with
      iff1 := false
      iff2 := false
      sp := c.registers.sp - 2
      pc := c.handler value d.memory }
  memory_eq : d.memory =
    (c.memory.writeByte (c.registers.sp - 2) (Word.low c.registers.pc)).writeByte
      (c.registers.sp - 1) (Word.high c.registers.pc)
  bus_eq : d.machine.bus = c.machine.bus.writeWord (c.registers.sp - 2) c.registers.pc
  clock_eq : d.clock = c.clock + cost.clock
  machine_eq : d.machine =
    c.sinks.foldl (fun m sink => m.react (sink cost)) (c.taking value).behindHalt.machine

/-- The value was spent: the surroundings apart, nothing changed. -/
structure Spends (c : Core η) (cost : Cost) (d : Core η) : Prop where
  cost_eq : cost = 0
  registers_eq : d.registers = c.registers
  bus_eq : d.machine.bus = c.machine.bus
  clock_eq : d.clock = c.clock

theorem accepts_of_enabled {c : Core η} (hr : c.registers.iff1 = true) (value : Word) :
    c.Accepts value c.serviceCost ((c.taking value).leaveHalt c.serviceCost) := by
  let e := c.acknowledge.modifyInterrupts Interrupts.taken
  have he : c.taking value = e.accept value := if_pos hr
  have hcost : c.serviceCost = acceptCost c.mode c.registers.interruptMode := if_pos hr
  have hbus : ((c.taking value).leaveHalt c.serviceCost).machine.bus =
      (e.accept value).machine.bus := by
    rw [← he]
    exact bus_advance _ _
  have hmem := congrArg Bus.memory hbus
  have hregs : ((c.taking value).leaveHalt c.serviceCost).registers =
      (e.accept value).registers := by
    rw [← he]
    exact registers_advance _ _
  have hsinks : (c.taking value).sinks = c.sinks := by
    rw [he]
    rfl
  refine ⟨hcost, ?_, hmem.trans (e.memory_accept value), hbus, ?_, ?_⟩
  · rw [hregs, memory, hmem]
    exact e.registers_accept value
  · rw [clock_leaveHalt, he]
    rfl
  · rw [← hsinks]
    simp only [leaveHalt, advance, hcost, isZero_acceptCost]
    rfl

theorem spends_of_disabled {c : Core η} (hr : c.registers.iff1 = false) (value : Word) :
    c.Spends c.serviceCost ((c.taking value).leaveHalt c.serviceCost) := by
  have hr' : ¬ c.registers.iff1 = true := Bool.eq_false_iff.mp hr
  rw [taking, serviceCost, if_neg hr', if_neg hr']
  exact ⟨rfl, rfl, rfl, rfl⟩

/-- The step at a pending request is the service of the halt, so it runs no block. It accepts
the request, or spends it with interrupts disabled. It takes no other request, and unless
somebody requests or halts meanwhile the processor runs behind it. -/
theorem step_services_pending {c : Core η} {value : Word} (hc : Reachable .returned c)
    (hp : c.interrupts.pending = some value) :
    let calls := c.callsAtService value
    let h := (History.recall c.interrupts c.machine.host .returned).run
      (.acknowledge :: .take :: .leaveHalt :: calls)
    ∃ cost d, c.step = .ran cost d ∧ c.waitForInterrupt = .ran cost d ∧
      (c.registers.iff1 = true → c.Accepts value cost d) ∧
      (c.registers.iff1 = false → c.Spends cost d) ∧
      d.interrupts = h.interrupts ∧ h.taken = [value] ∧
      ((∀ address, .request address ∉ calls) → .halt ∉ calls →
        d.interrupts.phase = .running ∧ d.interrupts.inFlight = false ∧
          d.interrupts.pending = none) := by
  intro calls h
  obtain ⟨hw, hs⟩ := step_of_pending hc.orderly hp
  let taken := c.acknowledge.interrupts.taken
  let g := ((History.recall c.interrupts c.machine.host .returned).step .acknowledge).step .take
  have hg : g.interrupts = taken ∧ g.taken = [value] := by
    have ht : c.interrupts.acknowledgeHalt.take? = some (value, taken) :=
      Interrupts.take?_of_pending hp
    simp [g, History.step, History.recall, ht]
  have hi : (c.taking value).interrupts = taken := by
    simp only [taking]
    split <;> rfl
  have hd := (c.taking value).interrupts_leaveHalt c.serviceCost g (hg.1.trans hi.symm)
  have hcalls : ∀ e ∈ calls, e.isCall = true := isCall_callsAtResume _ _
  refine ⟨_, _, hs, hw.symm.trans hs, ?_, ?_, hd, ?_, ?_⟩
  · exact fun hr => accepts_of_enabled hr value
  · exact fun hr => spends_of_disabled hr value
  · exact (History.taken_run_of_calls hcalls _).trans hg.2
  · intro hn hh
    -- Only tasks were queued behind the resume, which left the processor running.
    have hq := History.interrupts_run_of_queueing hcalls hn hh (g.step .leaveHalt)
    have hl : (g.step .leaveHalt).interrupts = taken.leaveHalt :=
      congrArg Interrupts.leaveHalt hg.1
    rw [hl] at hq
    rw [hd]
    exact hq

/-- A request in interrupt mode 1, while the stack wraps. -/
theorem step_services_request_in_mode_one :
    let start : Snapshot := { pc := 0x1234, sp := 0x0001, iff1 := true, interruptMode := .im1 }
    ∃ c, Core.new .z80 .caching start [.ram 0 0x10000 #[]] NoPorts.mk = .ok c ∧
      let requested := (c.request 0x41).2
      requested.interrupts.pending = some 0x41 ∧
      ∃ d, requested.step = .ran ⟨3, 13⟩ d ∧ d.registers.pc = 0x0038 ∧
        d.registers.sp = 0xFFFF ∧ d.clock = 13 ∧ d.interrupts.phase = .running := by
  intro start
  obtain ⟨memory, hc, _⟩ := exists_new_of_ram NoPorts #[]
  let c := initial .z80 .caching start memory NoPorts.mk
  have hp : (c.call (.request 0x41)).2.interrupts.pending = some 0x41 := rfl
  obtain ⟨cost, d, hs, -, ha, -, -, -, hrun⟩ :=
    step_services_pending (.call (.request 0x41) (.new (hc _ _ _ _))) hp
  have h := ha rfl
  obtain rfl := h.cost_eq
  have hr := h.registers_eq
  have hsp : (0x0001 : Word) - 2 = 0xFFFF := by decide
  exact ⟨_, hc _ _ _ _, hp, d, hs, congrArg (·.pc) hr, (congrArg (·.sp) hr).trans hsp, h.clock_eq,
    (hrun (fun _ => List.not_mem_nil) List.not_mem_nil).1⟩

/-- A task that halts the processor when it has just left a halt: behind the step nobody has
requested an interrupt, and still the processor does not run. -/
theorem step_with_halting_task :
    ∃ c, Core.new .gameBoy .uncached {} [.ram 0 0x10000 #[0x00]] NoPorts.mk = .ok c ∧
      let requested := (c.request 0x38).2.modifyInterrupts (·.addTask (.halt .done))
      Reachable .returned requested ∧ requested.interrupts.pending = some 0x38 ∧
      (∀ address, .request address ∉ requested.callsAtService 0x38) ∧
      ∃ d, requested.step = .ran 0 d ∧ d.interrupts.phase = .halted := by
  obtain ⟨memory, hc, _⟩ := exists_new_of_ram NoPorts #[0x00]
  refine ⟨_, hc _ _ _ _, ?_, rfl, ?_, _, rfl, rfl⟩
  · exact .events [.queue (.halt .done)] (.call (.request 0x38) (.new (hc _ _ _ _)))
  · intro address h
    rcases List.mem_singleton.mp h with ⟨⟩

end Z80.Core
