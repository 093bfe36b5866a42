import Z80.Proofs.Core.Verdict
import Z80.Proofs.Interrupt.Record

/-!
A record that the surroundings keep of what a core tells them. The host adds its entries at a
halt and at a resume, the sinks add theirs when time passes, and nothing else touches the
record; then each part of a step adds what it tells, in that order.
-/

namespace Z80

variable {η α : Type}

/-- The host adds these entries when it is told of a halt and of a resume. At its ports, and
in the tasks that it queues, it leaves the record alone. -/
structure Host.Adds [Host η] (log : η → List α) (atHalt atResume : List α) : Prop
    extends Host.Within η (.queueing (ResumeTask.Spares log)) where
  readPort_yields : ∀ port context (h : η),
    (Host.readPort port context h).Yields fun r => log r.2 = log h
  writePort_yields : ∀ port context value (h : η),
    (Host.writePort port context value h).Yields fun s => log s = log h
  halted_yields : ∀ h : η, (Host.halted h).Yields fun s => log s = log h ++ atHalt
  resumed_yields : ∀ h : η, (Host.resumed h).Yields fun s => log s = log h ++ atResume

/-- The sink adds these entries when it is told of a cost. -/
structure Sink.Adds (log : η → List α) (entries : Cost → List α) (sink : Sink η) : Prop where
  within : ∀ cost h, (sink cost h).Within (.queueing (ResumeTask.Spares log))
  yields : ∀ cost h, (sink cost h).Yields fun s => log s = log h ++ entries cost

/-- All the sinks together add these entries. -/
def Sink.AllAdd (log : η → List α) (entries : Cost → List α) (sinks : List (Sink η)) : Prop :=
  ∀ cost (m : Machine Cache η),
    log (sinks.foldl (fun m sink => m.react (sink cost)) m).host = log m.host ++ entries cost

variable {log : η → List α} {atHalt atResume : List α} {entries : Cost → List α}

namespace Sink

theorem Adds.allAdd {sink : Sink η} (h : sink.Adds log entries) : AllAdd log entries [sink] :=
  fun cost m => (h.yields cost m.host).run m.interrupts

theorem AllAdd.append {more : Cost → List α} {first second : List (Sink η)}
    (h : AllAdd log entries first) (hs : AllAdd log more second) :
    AllAdd log (fun cost => entries cost ++ more cost) (first ++ second) := by
  intro cost m
  rw [List.foldl_append, hs, h, List.append_assoc]

theorem allAdd_nothing {sinks : List (Sink η)}
    (h : ∀ sink ∈ sinks, sink.Adds log fun _ => []) : AllAdd log (fun _ => []) sinks := by
  induction sinks with
  | nil => exact fun _ _ => (List.append_nil _).symm
  | cons sink rest ih =>
      rw [List.forall_mem_cons] at h
      exact h.1.allAdd.append (ih h.2)

end Sink

namespace Core

variable {c : Core η}

theorem record_advance (hs : Sink.AllAdd log entries c.sinks) (cost : Cost) :
    log (c.advance cost).machine.host =
      log c.machine.host ++ if cost.isZero then [] else entries cost := by
  simp only [advance]
  split
  · rw [List.append_nil]
  · exact hs cost c.machine

variable [Host η]

theorem record_behindBlock (hh : Host.Adds log atHalt atResume) (c : Core η) (b : Block) :
    log (c.behindBlock b).machine.host =
      log c.machine.host ++ if b.halts then atHalt else [] := by
  have hb : log (b.execute c.machine).1.host = log c.machine.host :=
    b.keeps_execute (J := fun h _ => log h = log c.machine.host)
      (fun port context h i hl => ((hh.readPort_yields port context h).run i).trans hl)
      (fun port context value h i hl => ((hh.writePort_yields port context value h).run i).trans hl)
      rfl
  simp only [behindBlock]
  split
  · rw [← hb]
    exact (hh.halted_yields _).run _
  · rw [List.append_nil]
    exact hb

theorem record_leaveHalt (hh : Host.Adds log atHalt atResume)
    (ht : ∀ task ∈ c.interrupts.tasks, task.Spares log) (hs : Sink.AllAdd log entries c.sinks)
    (cost : Cost) :
    log (c.leaveHalt cost).machine.host =
      log c.machine.host ++ atResume ++ if cost.isZero then [] else entries cost := by
  let d := c.resumeInterrupts.modifyMachine (·.react Host.resumed)
  have hd : Sink.AllAdd log entries d.sinks := hs
  have hr : log d.machine.host = log c.machine.host ++ atResume := by
    rw [← ResumeTask.spares_runAll ht c.machine.host c.interrupts.leaveHalt]
    exact (hh.resumed_yields _).run _
  rw [← hr]
  exact record_advance hd cost

end Core
end Z80
