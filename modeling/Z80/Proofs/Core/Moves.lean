import Z80.Proofs.Core.Calls

/-!
The ways in which a step can go, each with its condition. A running core runs the block at
PC or faults. A halted one services its halt: it takes the pending address, which it accepts
or spends, goes on at once if nothing can come, or waits. A run is step after step, with its
own conditions to stop in front of a step or behind it.
-/

namespace Z80.Core

variable {η : Type}

/-- The halt is seen: what a core does first when it services one. -/
def acknowledge (c : Core η) : Core η :=
  { c with parked := false }.modifyInterrupts (·.acknowledgeHalt)

theorem foldl_react (sinks : List (Sink η)) (cost : Cost) (m : Machine Cache η) :
    let n := sinks.foldl (fun m sink => m.react (sink cost)) m
    n.registers = m.registers ∧ n.bus = m.bus := by
  induction sinks generalizing m with
  | nil => exact ⟨rfl, rfl⟩
  | cons sink rest ih => exact ih (m.react (sink cost))

@[simp] theorem registers_advance (c : Core η) (cost : Cost) :
    (c.advance cost).registers = c.registers := by
  simp only [advance]
  split
  · rfl
  · exact (foldl_react c.sinks cost c.machine).1

@[simp] theorem bus_advance (c : Core η) (cost : Cost) :
    (c.advance cost).machine.bus = c.machine.bus := by
  simp only [advance]
  split
  · rfl
  · exact (foldl_react c.sinks cost c.machine).2

@[simp] theorem sinks_advance (c : Core η) (cost : Cost) :
    (c.advance cost).sinks = c.sinks := by
  simp only [advance]
  split <;> rfl

@[simp] theorem mode_advance (c : Core η) (cost : Cost) : (c.advance cost).mode = c.mode := by
  simp only [advance]
  split <;> rfl

@[simp] theorem parked_advance (c : Core η) (cost : Cost) :
    (c.advance cost).parked = c.parked := by
  simp only [advance]
  split <;> rfl

theorem clock_advance (c : Core η) (cost : Cost) :
    (c.advance cost).clock = c.clock + cost.clock := by
  simp only [advance]
  split
  · rename_i h
    rw [Cost.isZero, Bool.and_eq_true, beq_iff_eq, beq_iff_eq] at h
    rw [h.2, Nat.add_zero]
  · rfl

theorem clock_fetch (c : Core η) : c.fetch.2.clock = c.clock := rfl

theorem foldl_addSink (sinks : List (Sink η)) (c : Core η) :
    sinks.foldl addSink c = { c with sinks := c.sinks ++ sinks } := by
  induction sinks generalizing c with
  | nil => rw [List.append_nil]; rfl
  | cons sink rest ih =>
      rw [List.foldl_cons, ih]
      simp [addSink]

variable [Host η]

theorem clock_leaveHalt (c : Core η) (cost : Cost) :
    (c.leaveHalt cost).clock = c.clock + cost.clock :=
  clock_advance _ cost

theorem registers_leaveHalt (c : Core η) (cost : Cost) :
    (c.leaveHalt cost).registers = c.registers :=
  registers_advance _ cost

theorem bus_leaveHalt (c : Core η) (cost : Cost) :
    (c.leaveHalt cost).machine.bus = c.machine.bus :=
  bus_advance _ cost

theorem mode_leaveHalt (c : Core η) (cost : Cost) : (c.leaveHalt cost).mode = c.mode :=
  mode_advance _ cost

/-- A core behind a block, before its sinks are told. -/
def behindBlock (c : Core η) (b : Block) : Core η :=
  let d := c.modifyMachine fun m => (b.execute m).1
  if b.halts then d.enterHalt else d

theorem clock_behindBlock (c : Core η) (b : Block) : (c.behindBlock b).clock = c.clock := by
  simp only [behindBlock]
  split <;> rfl

/-- A core as it is built over a memory. -/
def initial (mode : Mode) (strategy : Strategy) (start : Snapshot) (memory : Memory) (host : η) :
    Core η where
  machine := ⟨start.toRegisters mode.flagLayout, ⟨memory, .empty⟩, Host.attach host, .idle⟩
  mode := mode
  strategy := strategy
  sinks := []
  clock := 0
  parked := false

theorem new_eq (mode : Mode) (strategy : Strategy) (start : Snapshot) (segments : List Segment)
    (host : η) :
    Core.new mode strategy start segments host =
      (Memory.ofSegments segments).map fun memory => initial mode strategy start memory host := by
  simp only [Core.new]
  cases Memory.ofSegments segments <;> rfl

theorem exists_initial_of_new {mode : Mode} {strategy : Strategy} {start : Snapshot}
    {segments : List Segment} {host : η} {c : Core η}
    (h : Core.new mode strategy start segments host = .ok c) :
    ∃ memory, c = initial mode strategy start memory host := by
  rw [new_eq] at h
  cases hm : Memory.ofSegments segments with
  | error fault =>
      rw [hm] at h
      cases h
  | ok memory =>
      rw [hm] at h
      cases h
      exact ⟨memory, rfl⟩

/-- How a core services a halt. -/
inductive Services (c : Core η) : Step η → Prop
  /-- Nothing is in flight, and nothing that comes would be accepted. -/
  | skip (hr : c.registers.iff1 = false) (hi : c.interrupts.inFlight = false) :
      Services c (.ran 0 (c.acknowledge.leaveHalt 0))
  | wait (hi : c.registers.iff1 = true ∨ c.interrupts.inFlight = true)
      (ht : c.acknowledge.interrupts.take? = none) :
      Services c (.waiting c.acknowledge)
  | spend {value : Word} {i : Interrupts η} (hr : c.registers.iff1 = false)
      (hi : c.interrupts.inFlight = true)
      (ht : c.acknowledge.interrupts.take? = some (value, i)) :
      Services c (.ran 0 ((c.acknowledge.modifyInterrupts fun _ => i).leaveHalt 0))
  | accept {value : Word} {i : Interrupts η} {cost : Cost} (hr : c.registers.iff1 = true)
      (ht : c.acknowledge.interrupts.take? = some (value, i))
      (hc : cost = acceptCost c.mode c.registers.interruptMode) :
      Services c
        (.ran cost (((c.acknowledge.modifyInterrupts fun _ => i).accept value).leaveHalt cost))

theorem services_wait (c : Core η) : c.Services c.waitForInterrupt := by
  have ha : { c with parked := false }.modifyInterrupts (·.acknowledgeHalt) = c.acknowledge := rfl
  have hr : c.acknowledge.registers = c.registers := rfl
  have hf : c.acknowledge.interrupts.inFlight = c.interrupts.inFlight := rfl
  simp only [waitForInterrupt, waitWith, ha, hr, hf]
  split
  · rename_i h
    rw [Bool.and_eq_true, Bool.not_eq_true', Bool.not_eq_true'] at h
    exact .skip h.1 h.2
  · rename_i h
    have hi : c.registers.iff1 = true ∨ c.interrupts.inFlight = true := by
      cases hr : c.registers.iff1 <;> simp_all
    split
    · rename_i ht
      exact .wait hi ht
    · rename_i value i ht
      change c.Services (if c.registers.iff1 = true then _ else _)
      split
      · rename_i hr
        exact .accept hr ht rfl
      · rename_i hr
        exact .spend (Bool.eq_false_iff.mpr hr) (hi.resolve_left hr) ht

/-- How a step of a core goes. -/
inductive Moves (c : Core η) : Step η → Prop
  | fault {f : DecodeFault} (hh : c.interrupts.isHalted = false) (hf : c.fetch.1 = .error f) :
      Moves c (.fault f c.fetch.2)
  | block {b : Block} {cost : Cost} (hh : c.interrupts.isHalted = false)
      (hf : c.fetch.1 = .ok b) (hc : cost = (b.execute c.fetch.2.machine).2) :
      Moves c (.ran cost ((c.fetch.2.behindBlock b).advance cost))
  | service {s : Step η} (hh : c.interrupts.isHalted = true) (hs : c.Services s) : Moves c s

theorem moves_step (c : Core η) : c.Moves c.step := by
  simp only [step, stepWith]
  split
  · rename_i hh
    exact .service hh c.services_wait
  · rename_i hh
    rw [Bool.not_eq_true] at hh
    cases hf : c.fetch with
    | mk result d =>
        have hd : d = c.fetch.2 := by rw [hf]
        have hr : c.fetch.1 = result := by rw [hf]
        subst hd
        cases result with
        | error f => exact .fault hh hr
        | ok b => exact .block hh hr rfl

/-- Where a run takes another step. -/
structure GoesOn (target : Nat) (c : Core η) : Prop where
  lt : c.clock < target
  not_awaiting : ¬ (c.registers.iff1 = true ∧ c.interrupts.isHaltedWithoutRequest = true)

/-- How a run until a clock goes, with the cores at which it takes its steps. -/
inductive Runs (target : Nat) : Core η → List (Core η) → Run η → Prop
  | exhausted {c : Core η} : Runs target c [] (.exhausted c)
  | budget {c : Core η} : target ≤ c.clock → Runs target c [] (.stopped .cycleBudget c)
  | awaiting {c : Core η} : c.clock < target → c.registers.iff1 = true →
      c.interrupts.isHaltedWithoutRequest = true →
      Runs target c [] (.stopped .haltedAwaitingInterrupt c)
  | fault {c d : Core η} {f : DecodeFault} : c.GoesOn target → c.step = .fault f d →
      Runs target c [c] (.fault f d)
  | waiting {c d : Core η} : c.GoesOn target → c.step = .waiting d →
      Runs target c [c] (.waiting d)
  | parked {c d : Core η} {cost : Cost} : c.GoesOn target → c.step = .ran cost d →
      d.parked = true → Runs target c [c] (.stopped .haltedWithInterruptsDisabled d)
  | step {c d : Core η} {cost : Cost} {visited : List (Core η)} {r : Run η} :
      c.GoesOn target → c.step = .ran cost d → d.parked = false → Runs target d visited r →
      Runs target c (c :: visited) r

namespace Runs

variable {target : Nat} {c d e : Core η} {visited : List (Core η)} {r : Run η}

theorem goesOn (h : Runs target c visited r) : ∀ e ∈ visited, e.GoesOn target := by
  induction h with
  | exhausted | budget _ | awaiting _ _ _ => exact fun _ he => absurd he List.not_mem_nil
  | fault hg _ | waiting hg _ | parked hg _ _ => exact List.forall_mem_singleton.mpr hg
  | step hg _ _ _ ih => exact List.forall_mem_cons.mpr ⟨hg, ih⟩

/-- What every step keeps holds wherever the run takes a step, and where it ends. -/
theorem keeps {I : Core η → Prop} (hI : ∀ c, I c → I c.step.answer.2)
    (h : Runs target c visited r) (hc : I c) : (∀ e ∈ visited, I e) ∧ I r.answer.2 := by
  have of_step {c : Core η} {s : Step η} (hc : I c) (hs : c.step = s) : I s.answer.2 :=
    hs ▸ hI c hc
  induction h with
  | exhausted | budget _ | awaiting _ _ _ => exact ⟨fun _ he => absurd he List.not_mem_nil, hc⟩
  | fault _ hs | waiting _ hs | parked _ hs _ =>
      exact ⟨List.forall_mem_singleton.mpr hc, of_step hc hs⟩
  | step _ hs _ _ ih =>
      obtain ⟨hv, hd⟩ := ih (of_step hc hs)
      exact ⟨List.forall_mem_cons.mpr ⟨hc, hv⟩, hd⟩

/-- A run that is not exhausted goes where its steps go. -/
theorem exists_rest {cost : Cost} (h : Runs target c visited r) (hr : ∀ e, r ≠ .exhausted e)
    (hg : c.GoesOn target) (hs : c.step = .ran cost d) (hp : d.parked = false) :
    ∃ rest, visited = c :: rest ∧ Runs target d rest r := by
  cases h with
  | exhausted => exact absurd rfl (hr c)
  | budget ht => exact absurd hg.lt (Nat.not_lt.mpr ht)
  | awaiting _ hi hw => exact absurd ⟨hi, hw⟩ hg.not_awaiting
  | fault _ hf | waiting _ hf =>
      rw [hs] at hf
      cases hf
  | parked _ hs' hp' =>
      rw [hs] at hs'
      cases hs'
      rw [hp] at hp'
      cases hp'
  | step _ hs' _ h' =>
      rw [hs] at hs'
      cases hs'
      exact ⟨_, rfl, h'⟩

theorem step_last {reason : StopReason} (h : Runs target c visited (.stopped reason d))
    (he : visited.getLast? = some e) : ∃ cost, e.step = .ran cost d := by
  generalize hr : Run.stopped reason d = r at h
  induction h with
  | exhausted | budget _ | awaiting _ _ _ => cases he
  | fault _ _ | waiting _ _ => cases hr
  | parked _ hs _ =>
      cases hr
      cases he
      exact ⟨_, hs⟩
  | @step c _ _ visited _ _ hs _ hn ih =>
      cases visited with
      | nil =>
          cases he
          cases hn <;> cases hr <;> exact ⟨_, hs⟩
      | cons _ _ => exact ih he hr

theorem exists_waiting (h : Runs target c visited (.waiting d)) :
    ∃ e ∈ visited, e.step = .waiting d := by
  generalize hr : Run.waiting d = r at h
  induction h with
  | exhausted | budget _ | awaiting _ _ _ | fault _ _ | parked _ _ _ => cases hr
  | waiting _ hs =>
      cases hr
      exact ⟨_, List.mem_singleton_self _, hs⟩
  | step _ _ _ _ ih =>
      obtain ⟨e, he, hs⟩ := ih hr
      exact ⟨e, List.mem_cons_of_mem _ he, hs⟩

theorem exists_parked (h : Runs target c visited (.stopped .haltedWithInterruptsDisabled d)) :
    ∃ e ∈ visited, ∃ cost, e.step = .ran cost d ∧ d.parked = true := by
  generalize hr : Run.stopped .haltedWithInterruptsDisabled d = r at h
  induction h with
  | exhausted | budget _ | awaiting _ _ _ | fault _ _ | waiting _ _ => cases hr
  | parked _ hs hp =>
      cases hr
      exact ⟨_, List.mem_singleton_self _, _, hs, hp⟩
  | step _ _ _ _ ih =>
      obtain ⟨e, he, hs⟩ := ih hr
      exact ⟨e, List.mem_cons_of_mem _ he, hs⟩

end Runs

/-- Only the steps that a run may take decide whether it is exhausted. -/
theorem exists_runs (target steps : Nat) (c : Core η) :
    ∃ visited, Runs target c visited (c.runUntil target steps) ∧
      ∀ d, c.runUntil target steps = .exhausted d → visited.length = steps := by
  induction steps generalizing c with
  | zero => exact ⟨[], .exhausted, fun _ _ => rfl⟩
  | succ steps ih =>
      simp only [runUntil]
      split
      · rename_i ht
        exact ⟨[], .budget ht, fun _ he => by cases he⟩
      · rename_i ht
        rw [Nat.not_le] at ht
        split
        · rename_i hw
          rw [Bool.and_eq_true] at hw
          exact ⟨[], .awaiting ht hw.1 hw.2, fun _ he => by cases he⟩
        · rename_i hw
          rw [Bool.and_eq_true] at hw
          cases hs : c.step with
          | fault f d => exact ⟨[c], .fault ⟨ht, hw⟩ hs, fun _ he => by cases he⟩
          | waiting d => exact ⟨[c], .waiting ⟨ht, hw⟩ hs, fun _ he => by cases he⟩
          | ran cost d =>
              dsimp only
              split
              · rename_i hp
                exact ⟨[c], .parked ⟨ht, hw⟩ hs hp, fun _ he => by cases he⟩
              · rename_i hp
                obtain ⟨visited, hr, hl⟩ := ih d
                refine ⟨c :: visited, .step ⟨ht, hw⟩ hs (Bool.eq_false_iff.mpr hp) hr, ?_⟩
                intro e he
                rw [List.length_cons, hl e he]

/-- What a step keeps, a run keeps. -/
theorem keeps_runUntil {I : Core η → Prop} (hI : ∀ c, I c → I c.step.answer.2) {c : Core η}
    (h : I c) (target steps : Nat) : I (c.runUntil target steps).answer.2 := by
  obtain ⟨_, hr, _⟩ := exists_runs target steps c
  exact (hr.keeps hI h).2

theorem runUntil_of_parked {target : Nat} {c d : Core η} {cost : Cost} (h : c.GoesOn target)
    (hs : c.step = .ran cost d) (hp : d.parked = true) (steps : Nat) :
    c.runUntil target (steps + 1) = .stopped .haltedWithInterruptsDisabled d := by
  have hw := h.not_awaiting
  rw [← Bool.and_eq_true] at hw
  rw [runUntil, if_neg (Nat.not_le.mpr h.lt), if_neg hw, hs]
  exact if_pos hp

end Z80.Core
