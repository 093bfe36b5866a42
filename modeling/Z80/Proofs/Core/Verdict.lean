import Z80.Proofs.Core.Orderly
import Z80.Proofs.Core.Transparency

/-!
A run stops when nothing can wake the processor: it has halted with interrupts disabled and
no request is in flight. This is found out before the sinks are told of the `HALT`, and kept.
A sink that answers with a request comes too late for it, and so the verdict is only right
where sinks do not request.
-/

namespace Z80

theorem Licence.keeps_halted {σ : Type} (T : ResumeTask σ → Prop) :
    (Licence.queueing T).Keeps fun i => i.isHalted = true where
  request _ i h address := by
    simp only [Interrupts.request]
    split
    · exact h
    · rfl
  halt _ i h := by
    simp only [Interrupts.halt]
    split
    · rfl
    · exact h
  queue _ _ _ h := h

theorem Licence.keeps_idle {σ : Type} :
    (Licence.withoutRequest (σ := σ)).Keeps fun i => i.inFlight = false where
  request h := h.elim
  halt _ i h := by
    simp only [Interrupts.halt]
    split <;> exact h
  queue _ _ _ h := h

theorem Interrupts.isHalted_halt {σ : Type} (i : Interrupts σ) : i.halt.isHalted = true := by
  by_cases h : i.phase = .running
  · rw [halt, if_pos h]
    rfl
  · rw [halt, if_neg h]
    simp [isHalted, h]

namespace Core

variable {η : Type} {c d : Core η}

def after [Host η] (c : Core η) (calls : List Call) : Core η :=
  calls.foldl (fun c call => (c.call call).2) c

/-- What the calls on a core keep: among the rest that one with a verdict is halted. -/
structure Judged (sinks : List (Sink η)) (c : Core η) : Prop where
  orderly : c.Orderly (fun _ => True) .returned
  sinks_eq : c.sinks = sinks
  isHalted : c.parked = true → c.interrupts.isHalted = true

theorem isHalted_advance (h : c.interrupts.isHalted = true) (cost : Cost) :
    (c.advance cost).interrupts.isHalted = true :=
  keeps_advance (Licence.keeps_halted fun _ => True) (fun _ _ _ _ => Reaction.within_any _) h cost

theorem judged_addSinks {before : List (Sink η)} (h : c.Judged before) (sinks : List (Sink η)) :
    (sinks.foldl addSink c).Judged (before ++ sinks) := by
  have ho : (sinks.foldl addSink c).Orderly (fun _ => True) .returned :=
    h.orderly.addSinks fun _ _ _ _ => Reaction.within_any _
  rw [foldl_addSink] at ho ⊢
  exact ⟨ho, congrArg (· ++ sinks) h.sinks_eq, h.isHalted⟩

variable [Host η]

theorem parked_leaveHalt (c : Core η) (cost : Cost) : (c.leaveHalt cost).parked = c.parked :=
  parked_advance _ cost

theorem parked_of_services {s : Step η} (h : c.Services s) : s.answer.2.parked = false := by
  cases h with
  | skip _ _ | spend _ _ _ | accept _ _ _ => exact parked_leaveHalt _ _
  | wait _ _ => rfl

theorem isHalted_enterHalt (c : Core η) : c.enterHalt.interrupts.isHalted = true :=
  (Reaction.within_any (Host.halted c.machine.host)).keeps
    (Licence.keeps_halted fun _ => True) c.interrupts.isHalted_halt

theorem parked_enterHalt (h : c.enterHalt.parked = true) :
    c.enterHalt.registers.iff1 = false ∧ c.enterHalt.interrupts.inFlight = false := by
  change (!c.enterHalt.registers.iff1 && !c.enterHalt.interrupts.inFlight) = true at h
  simpa using h

theorem sinks_behindBlock (c : Core η) (b : Block) : (c.behindBlock b).sinks = c.sinks := by
  simp only [behindBlock]
  split <;> rfl

theorem sinks_step (c : Core η) : c.step.answer.2.sinks = c.sinks := by
  have hm := c.moves_step
  generalize c.step = s at hm ⊢
  cases hm with
  | fault _ _ => rfl
  | block _ _ _ => exact (sinks_advance _ _).trans (sinks_behindBlock _ _)
  | service _ hv =>
      cases hv with
      | skip _ _ | spend _ _ _ | accept _ _ _ => exact sinks_advance _ _
      | wait _ _ => rfl

namespace Judged

variable {sinks : List (Sink η)}

/-- The verdict that a step leaves is right before the sinks are told of its cost. -/
theorem verdict_of_step (h : c.Judged sinks) {cost : Cost} (hs : c.step = .ran cost d)
    (hp : d.parked = true) :
    ∃ e : Core η, d = e.advance cost ∧ e.registers.iff1 = false ∧
      e.interrupts.isHalted = true ∧ e.interrupts.inFlight = false ∧
      e.interrupts.pending = none := by
  have hm := c.moves_step
  rw [hs] at hm
  generalize hr : Step.ran cost d = s at hm
  cases hm with
  | fault _ _ => cases hr
  | service _ hv =>
      have hn := parked_of_services hv
      rw [← hr] at hn
      rw [show d.parked = false from hn] at hp
      cases hp
  | @block b _ hi _ _ =>
      cases hr
      rw [parked_advance] at hp
      have ho := h.orderly.fetch.2.behindBlock Host.within_any b
      refine ⟨_, rfl, ?_⟩
      simp only [behindBlock] at hp ho ⊢
      split at hp
      · rename_i hb
        rw [if_pos hb] at ho ⊢
        obtain ⟨hr, hf⟩ := parked_enterHalt hp
        exact ⟨hr, isHalted_enterHalt _, hf, ho.interrupts.tied.pending_eq_none hf⟩
      · -- A block without a `HALT` keeps the verdict of a step before, and there is none.
        rw [h.isHalted hp] at hi
        cases hi

theorem step (h : c.Judged sinks) : c.step.answer.2.Judged sinks := by
  refine ⟨h.orderly.step Host.within_any fun task _ => task.within_any,
    (sinks_step c).trans h.sinks_eq, ?_⟩
  have hm := c.moves_step
  generalize hs : c.step = s at hm ⊢
  intro hp
  cases hm with
  | fault _ _ => exact h.isHalted hp
  | block _ _ _ =>
      obtain ⟨e, he, _, hh, _⟩ := h.verdict_of_step hs hp
      simp only [Step.answer, he]
      exact isHalted_advance hh _
  | service _ hv =>
      rw [parked_of_services hv] at hp
      cases hp

theorem runUntil (h : c.Judged sinks) (target steps : Nat) :
    (c.runUntil target steps).answer.2.Judged sinks :=
  keeps_runUntil (fun _ he => he.step) h target steps

theorem call (h : c.Judged sinks) (call : Call) : (c.call call).2.Judged sinks := by
  have ho := h.orderly.call Host.within_any (fun task _ => task.within_any) call
  cases call with
  | step => exact h.step
  | runFor _ | runUntil _ _ => exact h.runUntil _ _
  | writeByte _ _ | writeWord _ _ | writeBytes _ _ | transfer _ _ | invalidate _ _ | clear
  | modifyRegisters _ => exact ⟨ho, h.sinks_eq, h.isHalted⟩
  | request address =>
      refine ⟨ho, h.sinks_eq, fun hp => ?_⟩
      exact (Licence.keeps_halted fun _ => True).request trivial _ (h.isHalted hp) address

theorem after (h : c.Judged sinks) (calls : List Call) : (c.after calls).Judged sinks := by
  induction calls generalizing c with
  | nil => exact h
  | cons call rest ih => exact ih (h.call call)

end Judged

/-- When a run stops because nothing can wake the processor, it is halted with interrupts
disabled, and nothing was pending or in flight when the sinks were told of the `HALT`; and
nothing is, unless one of them requested an interrupt then. -/
theorem verdict_holds_before_sinks {mode : Mode} {strategy : Strategy} {start : Snapshot}
    {segments : List Segment} {host : η} (hc : Core.new mode strategy start segments host = .ok c)
    (sinks : List (Sink η)) (calls : List Call) (cycles : Nat)
    (h : ((sinks.foldl addSink c).after calls).runFor cycles =
      .stopped .haltedWithInterruptsDisabled d) :
    d.registers.iff1 = false ∧ d.interrupts.isHalted = true ∧
    (∃ (e : Core η) (cost : Cost), d = e.advance cost ∧ e.interrupts.inFlight = false ∧
      e.interrupts.pending = none) ∧
    ((∀ sink ∈ sinks, ∀ cost h, (sink cost h).Within .withoutRequest) →
      d.interrupts.inFlight = false ∧ d.interrupts.pending = none) := by
  obtain ⟨memory, rfl⟩ := exists_initial_of_new hc
  have h0 : (initial mode strategy start memory host).Judged [] :=
    ⟨orderly_initial _ _ _ _ _, rfl, nofun⟩
  have hj := (judged_addSinks h0 sinks).after calls
  rw [List.nil_append] at hj
  generalize (sinks.foldl addSink (initial mode strategy start memory host)).after calls = b
    at h hj
  obtain ⟨visited, hr, -⟩ := exists_runs (b.clock + cycles) (cycles + idleSteps) b
  rw [runFor] at h
  rw [h] at hr
  obtain ⟨f, hf, cost, hs, hp⟩ := hr.exists_parked
  have hv := (hr.keeps (fun _ he => he.step) hj).1 f hf
  obtain ⟨e, rfl, hi, hh, hn, hq⟩ := hv.verdict_of_step hs hp
  rw [← registers_advance e cost] at hi
  refine ⟨hi, isHalted_advance hh cost, ⟨e, cost, rfl, hn, hq⟩, ?_⟩
  intro hw
  have hd : (e.advance cost).Judged sinks := by
    have := hv.step
    rw [hs] at this
    exact this
  have hsinks : ∀ sink ∈ e.sinks, ∀ cost h, (sink cost h).Within .withoutRequest := by
    rw [← sinks_advance e cost, hd.sinks_eq]
    exact hw
  have hidle : (e.advance cost).interrupts.inFlight = false :=
    keeps_advance Licence.keeps_idle hsinks hn cost
  exact ⟨hidle, hd.orderly.interrupts.tied.pending_eq_none hidle⟩

/-- A running core without a cache runs the block that it compiles at PC. -/
theorem step_of_uncached {b : Block} (hs : c.strategy = .uncached)
    (hh : c.interrupts.isHalted = false)
    (hb : Block.compile c.mode c.memory c.registers.pc = .ok b) : c.step = c.runBlock b := by
  simp only [step, stepWith, hh, Bool.false_eq_true, if_false, fetch_of_uncached hs, hb]

/-- A Game Boy that halts at once, with interrupts disabled. -/
theorem runFor_halt {memory : Memory} (hm : memory.readByte 0 = 0x76)
    (sinks : List (Sink NoPorts)) :
    let c := { initial .gameBoy .uncached {} memory NoPorts.mk with sinks := sinks }
    c.runFor 4 = .stopped .haltedWithInterruptsDisabled
      ((c.behindBlock ⟨0, 1, #[], some .halt, ⟨1, 4⟩, false⟩).advance ⟨1, 4⟩) := by
  intro c
  let b : Block := ⟨0, 1, #[], some .halt, ⟨1, 4⟩, false⟩
  have hb : Block.compile .gameBoy memory 0 = .ok b := Block.compile_of_byte hm rfl
  have hs : c.step = .ran ⟨1, 4⟩ ((c.behindBlock b).advance ⟨1, 4⟩) :=
    (step_of_uncached (c := c) rfl rfl hb).trans rfl
  have hp : ((c.behindBlock b).advance ⟨1, 4⟩).parked = true := parked_advance _ _
  have hn : 4 + idleSteps = 0x100000003 + 1 := rfl
  rw [runFor, hn]
  exact runUntil_of_parked ⟨Nat.lt_add_of_pos_right (by decide), fun h => by cases h.1⟩ hs hp _

/-- A `HALT` beside a sink that only keeps the time. -/
theorem verdict_beside_clock :
    ∃ c d, Core.new .gameBoy .uncached {} [.ram 0 0x10000 #[0x76]] NoPorts.mk = .ok c ∧
      (c.addSink fun _ host => .done host).runFor 4 =
        .stopped .haltedWithInterruptsDisabled d ∧
      d.registers.iff1 = false ∧ d.interrupts.isHalted = true ∧
      d.interrupts.inFlight = false ∧ d.interrupts.pending = none := by
  obtain ⟨memory, hc, hb⟩ := exists_new_of_ram NoPorts #[0x76]
  have hr := runFor_halt (hb 0 (by decide)) [fun _ host => .done host]
  obtain ⟨hi, hh, _, hn⟩ :=
    verdict_holds_before_sinks (hc _ _ _ _) [fun _ host => .done host] [] 4 hr
  exact ⟨_, _, hc _ _ _ _, hr, hi, hh, hn (List.forall_mem_singleton.mpr fun _ _ => trivial)⟩

/-- A timer requests an interrupt on the `HALT` itself, and still the verdict is that nothing
can wake the processor. -/
theorem verdict_with_request_in_flight :
    ∃ c d, Core.new .gameBoy .uncached {} [.ram 0 0x10000 #[0x76]] NoPorts.mk = .ok c ∧
      (c.addSink fun _ host => .request 0x38 fun _ => .done host).runFor 4 =
        .stopped .haltedWithInterruptsDisabled d ∧
      d.interrupts.inFlight = true ∧ d.interrupts.pending = some 0x38 := by
  obtain ⟨memory, hc, hb⟩ := exists_new_of_ram NoPorts #[0x76]
  have hr := runFor_halt (hb 0 (by decide)) [fun _ host => .request 0x38 fun _ => .done host]
  exact ⟨_, _, hc _ _ _ _, hr, rfl, rfl⟩

end Core
end Z80
