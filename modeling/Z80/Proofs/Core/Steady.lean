import Mathlib.Algebra.GroupWithZero.Nat
import Z80.Proofs.Block.Steady
import Z80.Proofs.Core.Contents
import Z80.Proofs.Core.Record

/-!
Time on a Game Boy: whatever a core runs, accepts or skips costs four clock cycles for every
machine cycle, and so does all that its sinks are told. What one of them writes down accounts
for the clock.
-/

namespace Z80.Core

variable {η : Type}

/-- From one core to the other the sinks were told costs that account for the time, each of
them steady, and these are what was added to the list. -/
def Timed (log : η → List Cost) (c d : Core η) : Prop :=
  ∃ costs, log d.machine.host = log c.machine.host ++ costs ∧ (∀ cost ∈ costs, cost.Steady) ∧
    d.clock = c.clock + 4 * (costs.map Cost.machine).sum

/-- One of the sinks lists every cost that it is told, and nobody else touches the list. -/
structure Recorded [Host η] (log : η → List Cost) (c : Core η) : Prop where
  host : Host.Adds log [] []
  tasks : ∀ task ∈ c.interrupts.tasks, task.Spares log
  sinks : ∃ before recorder after, c.sinks = before ++ recorder :: after ∧
    (∀ sink ∈ before ++ after, Sink.Adds log (fun _ => []) sink) ∧
    Sink.Adds log (fun cost => [cost]) recorder

variable {log : η → List Cost} {c d e : Core η} {p : Producer}

namespace Timed

theorem of_eq (hl : log d.machine.host = log c.machine.host) (hc : d.clock = c.clock) :
    c.Timed log d :=
  ⟨[], by rw [hl, List.append_nil], fun _ h => absurd h List.not_mem_nil, hc⟩

theorem trans (h : c.Timed log d) (hn : d.Timed log e) : c.Timed log e := by
  obtain ⟨costs, hl, hs, hc⟩ := h
  obtain ⟨more, hl', hs', hc'⟩ := hn
  refine ⟨costs ++ more, ?_, List.forall_mem_append.mpr ⟨hs, hs'⟩, ?_⟩
  · rw [hl', hl, List.append_assoc]
  · rw [hc', hc, List.map_append, List.sum_append]
    omega

/-- The sinks are told of a steady cost, or of none at all. -/
theorem of_cost {cost : Cost} (hs : cost.Steady)
    (hl : log d.machine.host =
      log c.machine.host ++ if cost.isZero then [] else [cost])
    (hc : d.clock = c.clock + cost.clock) : c.Timed log d := by
  refine ⟨_, hl, ?_, ?_⟩
  · split
    · exact fun _ h => absurd h List.not_mem_nil
    · exact List.forall_mem_singleton.mpr hs
  · rw [hc, hs]
    split
    · rename_i hz
      rw [Cost.isZero, Bool.and_eq_true, beq_iff_eq, beq_iff_eq] at hz
      rw [hz.1]
      rfl
    · simp

end Timed

theorem Run.answer_ne_ran (r : Run η) (cost : Cost) : r.answer.1 ≠ .ran cost := by
  cases r <;> exact nofun

variable [Host η]

theorem Recorded.allAdd (h : c.Recorded log) : Sink.AllAdd log (fun cost => [cost]) c.sinks := by
  obtain ⟨before, recorder, after, hs, ho, hr⟩ := h.sinks
  rw [List.forall_mem_append] at ho
  have ha : Sink.AllAdd log (fun cost => [cost]) [recorder] := hr.allAdd
  rw [hs]
  exact (Sink.allAdd_nothing ho.1).append (ha.append (Sink.allAdd_nothing ho.2))

theorem Recorded.within (h : c.Recorded log) :
    ∀ sink ∈ c.sinks, ∀ cost h, (sink cost h).Within (.queueing (ResumeTask.Spares log)) := by
  obtain ⟨before, recorder, after, hs, ho, hr⟩ := h.sinks
  rw [List.forall_mem_append] at ho
  rw [hs, List.forall_mem_append, List.forall_mem_cons]
  exact ⟨fun sink hm => (ho.1 sink hm).within, hr.within, fun sink hm => (ho.2 sink hm).within⟩

theorem steady_of_services {cost : Cost} (hm : c.mode = .gameBoy) (h : c.Services (.ran cost d)) :
    cost.Steady := by
  generalize hs : Step.ran cost d = s at h
  cases h with
  | skip _ _ | spend _ _ _ =>
      cases hs
      exact Cost.steady_zero
  | wait _ _ => cases hs
  | accept _ _ hc =>
      cases hs
      rw [hc, hm]
      rfl

theorem Stocked.steady_step {cost : Cost} (h : c.Stocked .gameBoy Block.Steady)
    (hs : c.step = .ran cost d) : cost.Steady := by
  have hm := c.moves_step
  rw [hs] at hm
  generalize hr : Step.ran cost d = s at hm
  cases hm with
  | fault _ _ => cases hr
  | block _ hf hc =>
      cases hr
      rw [hc]
      exact ((h.fetch fun _ _ _ => Block.steady_of_compile).1 _ hf).execute _
  | service _ hv => exact steady_of_services h.mode_eq (hr ▸ hv)

theorem Stocked.steady_call {call : Call} {cost : Cost} (h : c.Stocked .gameBoy Block.Steady)
    (ha : (c.call call).1 = .ran cost) : cost.Steady := by
  cases call with
  | step =>
      rw [show c.call .step = c.step.answer from rfl] at ha
      cases hs : c.step with
      | ran own d =>
          rw [hs] at ha
          cases ha
          exact h.steady_step hs
      | fault _ _ | waiting _ =>
          rw [hs] at ha
          cases ha
  | runFor cycles =>
      rw [show c.call (.runFor cycles) = (c.runFor cycles).answer from rfl] at ha
      exact absurd ha ((c.runFor cycles).answer_ne_ran cost)
  | runUntil target steps => exact absurd ha ((c.runUntil target steps).answer_ne_ran cost)
  | writeByte _ _ | writeWord _ _ | writeBytes _ _ | transfer _ _ | request _ | invalidate _ _
  | clear | modifyRegisters _ => cases ha

theorem Stocked.steady_trace (h : c.Stocked .gameBoy Block.Steady) (calls : List Call) :
    ∀ x ∈ c.trace calls, ∀ cost, x.1 = .ran cost → cost.Steady := by
  induction calls generalizing c with
  | nil => exact fun _ hx => absurd hx List.not_mem_nil
  | cons call rest ih =>
      have hn := h.call (fun _ _ _ => Block.steady_of_compile) call
      exact List.forall_mem_cons.mpr ⟨fun _ ha => h.steady_call ha, ih hn⟩

/-- What the calls on a core keep while one of its sinks lists the costs. -/
structure Recording (log : η → List Cost) (p : Producer) (c : Core η) : Prop where
  stocked : c.Stocked .gameBoy Block.Steady
  orderly : c.Orderly (ResumeTask.Spares log) p
  allAdd : Sink.AllAdd log (fun cost => [cost]) c.sinks

namespace Recording

theorem timed_services (hh : Host.Adds log [] []) (h : c.Recording log p) {s : Step η}
    (hs : c.Services s) : c.Timed log s.answer.2 := by
  obtain rfl | ⟨e, cost, rfl, hk, hm, hsinks, ht, -⟩ := h.orderly.leaves hs
  · exact .of_eq rfl rfl
  · have hr := record_leaveHalt hh (ht ▸ h.orderly.interrupts.tasks) (hsinks ▸ h.allAdd) cost
    rw [List.append_nil, hm] at hr
    refine .of_cost (steady_of_services h.stocked.mode_eq hs) hr ?_
    exact (clock_leaveHalt e cost).trans (congrArg (· + cost.clock) hk)

theorem timed_step (hh : Host.Adds log [] []) (h : c.Recording log p) :
    c.Timed log c.step.answer.2 := by
  have hm := c.moves_step
  generalize hs : c.step = s at hm ⊢
  cases hm with
  | fault _ _ => exact .of_eq rfl rfl
  | @block b cost _ _ _ =>
      have hb := record_behindBlock hh c.fetch.2 b
      rw [ite_self, List.append_nil] at hb
      have ha : Sink.AllAdd log (fun cost => [cost]) (c.fetch.2.behindBlock b).sinks := by
        rw [sinks_behindBlock]
        exact h.allAdd
      have hr := record_advance ha cost
      rw [hb] at hr
      exact .of_cost (h.stocked.steady_step hs) hr
        ((clock_advance _ cost).trans (congrArg (· + cost.clock) (clock_behindBlock _ b)))
  | service _ hv => exact h.timed_services hh hv

theorem step (hh : Host.Adds log [] []) (h : c.Recording log p) :
    c.step.answer.2.Recording log p where
  stocked := h.stocked.step fun _ _ _ => Block.steady_of_compile
  orderly := h.orderly.step hh.toWithin fun _ ht => ht.within
  allAdd := by
    rw [sinks_step]
    exact h.allAdd

theorem runUntil (hh : Host.Adds log [] []) (h : c.Recording log p) (target steps : Nat) :
    (c.runUntil target steps).answer.2.Recording log p ∧
      c.Timed log (c.runUntil target steps).answer.2 :=
  keeps_runUntil (I := fun e => e.Recording log p ∧ c.Timed log e)
    (fun _ he => ⟨he.1.step hh, he.2.trans (he.1.timed_step hh)⟩) ⟨h, .of_eq rfl rfl⟩ target steps

theorem call (hh : Host.Adds log [] []) (h : c.Recording log p) (call : Call) :
    (c.call call).2.Recording log p ∧ c.Timed log (c.call call).2 := by
  have hs := h.stocked.call (fun _ _ _ => Block.steady_of_compile) call
  have ho := h.orderly.call hh.toWithin (fun _ ht => ht.within) call
  cases call with
  | step => exact ⟨h.step hh, h.timed_step hh⟩
  | runFor _ | runUntil _ _ => exact h.runUntil hh _ _
  | writeByte _ _ | writeWord _ _ | writeBytes _ _ | transfer _ _ | request _ | invalidate _ _
  | clear | modifyRegisters _ => exact ⟨⟨hs, ho, h.allAdd⟩, .of_eq rfl rfl⟩

theorem after (hh : Host.Adds log [] []) (h : c.Recording log p) (calls : List Call) :
    c.Timed log (c.after calls) := by
  induction calls generalizing c with
  | nil => exact .of_eq rfl rfl
  | cons call rest ih =>
      obtain ⟨hn, ht⟩ := h.call hh call
      exact ht.trans (ih hn)

end Recording

/-- Whatever is called on a Game Boy core, every cost that comes back has four clock cycles
for each machine cycle, and so has every cost that a sink is told, the clock being moved by
their sum. This holds wherever the core stands, which may be beside a producer whose request
ends its wait. -/
theorem time_is_steady (hc : Reachable p c) (hm : c.mode = .gameBoy) (calls : List Call) :
    (∀ x ∈ c.trace calls, ∀ cost, x.1 = .ran cost → cost.Steady) ∧
    (∀ cost d, c.waitForInterrupt = .ran cost d → cost.Steady) ∧
    ∀ log : η → List Cost, c.Recorded log →
      c.Timed log (c.after calls) ∧ c.Timed log c.waitForInterrupt.answer.2 := by
  have hs := hc.stocked (P := fun mode b => mode = .gameBoy → b.Steady) fun _ _ _ _ hb hg =>
    Block.steady_of_compile (hg ▸ hb)
  have hg : c.Stocked .gameBoy Block.Steady := ⟨hm, fun k b hk => hs.holds k b hk hm⟩
  refine ⟨hg.steady_trace calls, ?_, ?_⟩
  · intro cost d hw
    exact steady_of_services hm (hw ▸ c.services_wait)
  · intro log hr
    have ho : c.Orderly (ResumeTask.Spares log) p :=
      ⟨⟨⟨hc.orderly.interrupts.tied, hr.tasks⟩, hc.orderly.machine.compiled⟩, hr.within⟩
    have h : c.Recording log p := ⟨hg, ho, hr.allAdd⟩
    exact ⟨h.after hr.host calls, h.timed_services hr.host c.services_wait⟩

/-- A host that keeps a list of costs and has no ports. -/
structure Ledger where
  costs : List Cost

instance : Host Ledger where
  readPort _ _ h := .done (0xFF, h)
  writePort _ _ _ h := .done h

/-- A `HALT` and the request that ends it, written down. -/
theorem time_of_halt_and_request :
    let start : Snapshot := { sp := 0xFFFE, iff1 := true }
    let calls := [Call.step, .request 0x40, .step]
    ∃ c, Core.new .gameBoy .uncached start [.ram 0 0x10000 #[0x76]] (Ledger.mk []) = .ok c ∧
      let c := c.addSink fun cost h => .done ⟨h.costs ++ [cost]⟩
      Reachable .returned c ∧ c.mode = .gameBoy ∧ c.Recorded Ledger.costs ∧
      (∀ x ∈ c.trace calls, ∀ cost, x.1 = .ran cost → cost.Steady) ∧
      c.Timed Ledger.costs (c.after calls) ∧
      (c.after calls).clock = 24 ∧ (c.after calls).machine.host.costs = [⟨1, 4⟩, ⟨5, 20⟩] := by
  intro start calls
  obtain ⟨memory, hn, hb⟩ := exists_new_of_ram Ledger #[0x76]
  refine ⟨_, hn _ _ _ _, ?_⟩
  intro c
  have hc : Reachable .returned c := .addSink _ (.new (hn _ _ _ _))
  have hr : c.Recorded Ledger.costs := {
    host := {
      readPort _ _ _ := trivial
      writePort _ _ _ _ := trivial
      halted _ := trivial
      resumed _ := trivial
      readPort_yields _ _ _ := rfl
      writePort_yields _ _ _ _ := rfl
      halted_yields _ := (List.append_nil _).symm
      resumed_yields _ := (List.append_nil _).symm }
    tasks := fun _ h => absurd h List.not_mem_nil
    sinks := ⟨[], _, [], rfl, fun _ h => absurd h List.not_mem_nil, fun _ _ => trivial,
      fun _ _ => rfl⟩ }
  obtain ⟨hs, -, ht⟩ := time_is_steady hc rfl calls
  let halted := (c.behindBlock ⟨0, 1, #[], some .halt, ⟨1, 4⟩, false⟩).advance ⟨1, 4⟩
  have h1 : c.step = .ran ⟨1, 4⟩ halted :=
    (step_of_uncached (c := c) rfl rfl (Block.compile_of_byte (hb 0 (by decide)) rfl)).trans rfl
  have ha : c.after calls = (halted.request 0x40).2.step.answer.2 := by
    change (c.step.answer.2.request 0x40).2.step.answer.2 = _
    rw [h1]
    rfl
  refine ⟨hc, rfl, hr, hs, (ht _ hr).1, ?_, ?_⟩
  · rw [ha]
    rfl
  · rw [ha]
    rfl

end Z80.Core
