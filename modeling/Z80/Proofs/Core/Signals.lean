import Mathlib.Data.List.Chain
import Z80.Proofs.Core.Record

/-!
What a host hears of the halts of its core. It is told of every `HALT`, and of every resume;
but a request makes a running core halt without a word, and the resume after that answers
nothing. While requests only come to a core that is halted already, halts and resumes are
told in turn.
-/

namespace Z80

inductive Signal where
  | halt
  | resume
  deriving DecidableEq

namespace Signal

/-- Halts and resumes in turn, a halt first. -/
def Alternate (signals : List Signal) : Prop :=
  signals.head? ≠ some .resume ∧ signals.IsChain (· ≠ ·)

/-- No halt is followed by another before a resume. -/
def Answered (signals : List Signal) : Prop :=
  signals.IsChain fun first second => first = .halt → second = .resume

variable {signals : List Signal} {s : Signal}

theorem Alternate.concat (h : Alternate signals) (hl : signals.getLast? ≠ some s)
    (hs : signals = [] → s = .halt) : Alternate (signals ++ [s]) := by
  refine ⟨?_, h.2.append (.singleton s) ?_⟩
  · cases signals with
    | nil =>
        rw [hs rfl]
        decide
    | cons first rest => exact h.1
  · rintro last hm _ hn rfl
    cases hn
    exact hl hm

theorem Answered.concat (h : Answered signals)
    (hl : signals.getLast? = some .halt → s = .resume) : Answered (signals ++ [s]) := by
  refine List.IsChain.append h (.singleton s) ?_
  rintro last hm _ hn rfl
  cases hn
  exact hl hm

end Signal

variable {η α : Type}

/-- A running processor is running behind the reaction. -/
def Reaction.LeavesRunning (r : Reaction η α) : Prop :=
  ∀ i : Interrupts η, i.isHalted = false → (r.run i).2.isHalted = false

/-- While the processor is running, neither the host nor a task of its own requests an
interrupt or halts. The host may be told of a halt and answer it with a request. -/
structure Host.Patient (η : Type) [Host η] : Prop
    extends Host.Within η (.queueing ResumeTask.Quiet) where
  readPort_leaves : ∀ port context (h : η), (Host.readPort port context h).LeavesRunning
  writePort_leaves : ∀ port context value (h : η),
    (Host.writePort port context value h).LeavesRunning
  resumed_leaves : ∀ h : η, (Host.resumed h).LeavesRunning

structure Sink.Patient (sink : Sink η) : Prop where
  within : ∀ cost h, (sink cost h).Within (.queueing ResumeTask.Quiet)
  leaves : ∀ cost h, (sink cost h).LeavesRunning

namespace Core

variable {log : η → List Signal} {c d : Core η}

theorem running_advance (hs : ∀ sink ∈ c.sinks, ∀ cost h, (sink cost h).LeavesRunning)
    (h : c.interrupts.isHalted = false) (cost : Cost) :
    (c.advance cost).interrupts.isHalted = false :=
  keeps_advance_of_run (J := fun i => i.isHalted = false)
    (fun sink hm cost s i => hs sink hm cost s i) h cost

/-- Only the host writes the record. -/
structure Announced (log : η → List Signal) (c : Core η) : Prop where
  orderly : c.Orderly (ResumeTask.Spares log) .returned
  allAdd : Sink.AllAdd log (fun _ => []) c.sinks

/-- What the calls on a core keep: every halt that was told of has been answered, or the core
is still in it. -/
structure Answering (log : η → List Signal) (c : Core η) : Prop extends c.Announced log where
  answered : Signal.Answered (log c.machine.host)
  isHalted : (log c.machine.host).getLast? = some .halt → c.interrupts.isHalted = true

theorem Answering.addSinks (h : c.Answering log) {sinks : List (Sink η)}
    (hs : ∀ sink ∈ sinks, sink.Adds log fun _ => []) :
    (sinks.foldl addSink c).Answering log := by
  have ho := h.orderly.addSinks fun sink hm => (hs sink hm).within
  rw [foldl_addSink] at ho ⊢
  exact ⟨⟨ho, h.allAdd.append (Sink.allAdd_nothing hs)⟩, h.answered, h.isHalted⟩

variable [Host η]

/-- Nothing but a `HALT` makes the core halt. -/
structure Patient (c : Core η) : Prop where
  host : Host.Patient η
  orderly : c.Orderly ResumeTask.Quiet .returned
  sinks : ∀ sink ∈ c.sinks, ∀ cost h, (sink cost h).LeavesRunning

/-- What a step tells the host, and how that fits the halts before and behind it. -/
inductive Tells (log : η → List Signal) (c d : Core η) : Prop
  | nothing (hl : log d.machine.host = log c.machine.host)
      (hk : c.interrupts.isHalted = true → d.interrupts.isHalted = true)
      (hp : c.Patient → d.interrupts.isHalted = true → c.interrupts.isHalted = true)
  | halt (hr : c.interrupts.isHalted = false)
      (hl : log d.machine.host = log c.machine.host ++ [.halt])
      (hh : d.interrupts.isHalted = true)
  | resume (hh : c.interrupts.isHalted = true)
      (hl : log d.machine.host = log c.machine.host ++ [.resume])
      (hp : c.Patient → d.interrupts.isHalted = false)

theorem running_leaveHalt (hh : Host.Patient η) (hp : c.interrupts.pending = none)
    (ht : ∀ task ∈ c.interrupts.tasks, task.Quiet)
    (hs : ∀ sink ∈ c.sinks, ∀ cost h, (sink cost h).LeavesRunning) (cost : Cost) :
    (c.leaveHalt cost).interrupts.isHalted = false := by
  have hr : c.resumeInterrupts.interrupts.isHalted = false :=
    bne_eq_false_iff_eq.mpr (Interrupts.phase_resume hp ht c.machine.host)
  exact running_advance (c := c.resumeInterrupts.modifyMachine (·.react Host.resumed)) hs
    (hh.resumed_leaves _ _ hr) cost

theorem running_behindBlock (hh : Host.Patient η) (hr : c.interrupts.isHalted = false) {b : Block}
    (hb : b.halts = false) : (c.behindBlock b).interrupts.isHalted = false := by
  have he : (b.execute c.machine).1.interrupts.isHalted = false :=
    b.keeps_execute (J := fun _ i => i.isHalted = false)
      (fun port context s i => hh.readPort_leaves port context s i)
      (fun port context value s i => hh.writePort_leaves port context value s i) hr
  simp only [behindBlock, hb]
  exact he

theorem Patient.step (h : c.Patient) : c.step.answer.2.Patient where
  host := h.host
  orderly := h.orderly.step h.host.toWithin fun _ ht => ht.within fun _ => id
  sinks := by
    rw [sinks_step]
    exact h.sinks

namespace Announced

variable (hh : Host.Adds log [.halt] [.resume]) (h : c.Announced log)
include hh h

theorem step : c.step.answer.2.Announced log where
  orderly := h.orderly.step hh.toWithin fun _ ht => ht.within
  allAdd := by
    rw [sinks_step]
    exact h.allAdd

theorem tells_block (hr : c.interrupts.isHalted = false) (b : Block) (cost : Cost) :
    c.Tells log ((c.fetch.2.behindBlock b).advance cost) := by
  have hs := sinks_behindBlock c.fetch.2 b
  have hl := record_advance (hs ▸ h.allAdd) cost
  rw [ite_self, List.append_nil, record_behindBlock hh c.fetch.2 b] at hl
  cases hb : b.halts with
  | true =>
      rw [hb, if_pos rfl] at hl
      refine .halt hr hl (isHalted_advance ?_ cost)
      simp only [behindBlock, hb, if_true]
      exact isHalted_enterHalt _
  | false =>
      rw [hb, if_neg Bool.false_ne_true, List.append_nil] at hl
      refine .nothing hl (fun hn => ?_) fun hp hn => ?_
      · rw [hr] at hn
        cases hn
      · have he := running_behindBlock hp.host (c := c.fetch.2) hr hb
        rw [running_advance (hs ▸ hp.sinks) he cost] at hn
        cases hn

theorem tells_services (hc : c.interrupts.isHalted = true) {s : Step η} (hs : c.Services s) :
    c.Tells log s.answer.2 := by
  obtain rfl | ⟨e, cost, rfl, -, hm, hs, ht, hn⟩ := h.orderly.leaves hs
  · exact .nothing rfl id fun _ => id
  · have hl := record_leaveHalt hh (ht ▸ h.orderly.interrupts.tasks) (hs ▸ h.allAdd) cost
    rw [ite_self, List.append_nil, hm] at hl
    refine .resume hc hl fun hp => ?_
    exact running_leaveHalt hp.host hn (ht ▸ hp.orderly.interrupts.tasks) (hs ▸ hp.sinks) cost

theorem tells_step : c.Tells log c.step.answer.2 := by
  have hm := c.moves_step
  generalize c.step = s at hm ⊢
  cases hm with
  | fault _ _ => exact .nothing rfl id fun _ => id
  | @block b cost hr _ _ => exact h.tells_block hh hr b cost
  | service hc hs => exact h.tells_services hh hc hs

end Announced

/-- What the calls on a patient core keep if requests come only while it is halted. -/
structure Alternating (log : η → List Signal) (c : Core η) : Prop extends c.Answering log where
  patient : c.Patient
  alternate : Signal.Alternate (log c.machine.host)
  getLast? : c.interrupts.isHalted = true → (log c.machine.host).getLast? = some .halt

/-- The surroundings request only while the core is halted. -/
def RequestsWhileHalted : Core η → List Call → Prop
  | _, [] => True
  | c, call :: rest =>
      (∀ address, call = .request address → c.interrupts.isHalted = true) ∧
        (c.call call).2.RequestsWhileHalted rest

namespace Answering

variable (hh : Host.Adds log [.halt] [.resume]) (h : c.Answering log)
include hh h

theorem step : c.step.answer.2.Answering log := by
  have ha := h.toAnnounced.step hh
  cases h.tells_step hh with
  | nothing hl hk _ =>
      refine ⟨ha, ?_, ?_⟩
      · rw [hl]
        exact h.answered
      · rw [hl]
        exact fun hs => hk (h.isHalted hs)
  | halt hr hl hn =>
      refine ⟨ha, ?_, fun _ => hn⟩
      rw [hl]
      refine h.answered.concat fun hs => ?_
      rw [h.isHalted hs] at hr
      cases hr
  | resume _ hl _ =>
      refine ⟨ha, ?_, ?_⟩
      · rw [hl]
        exact h.answered.concat fun _ => rfl
      · rw [hl, List.getLast?_concat]
        exact nofun

theorem runUntil (target steps : Nat) : (c.runUntil target steps).answer.2.Answering log :=
  keeps_runUntil (fun _ he => he.step hh) h target steps

theorem call (call : Call) : (c.call call).2.Answering log := by
  have ha : (c.call call).2.Orderly (ResumeTask.Spares log) .returned :=
    h.orderly.call hh.toWithin (fun _ ht => ht.within) call
  cases call with
  | step => exact h.step hh
  | runFor _ | runUntil _ _ => exact h.runUntil hh _ _
  | writeByte _ _ | writeWord _ _ | writeBytes _ _ | transfer _ _ | invalidate _ _ | clear
  | modifyRegisters _ => exact ⟨⟨ha, h.allAdd⟩, h.answered, h.isHalted⟩
  | request address =>
      refine ⟨⟨ha, h.allAdd⟩, h.answered, fun hs => ?_⟩
      exact (Licence.keeps_halted fun _ => True).request trivial _ (h.isHalted hs) address

theorem after (calls : List Call) : (c.after calls).Answering log := by
  induction calls generalizing c with
  | nil => exact h
  | cons call rest ih => exact ih (h.call hh call)

end Answering

namespace Alternating

variable (hh : Host.Adds log [.halt] [.resume]) (h : c.Alternating log)
include hh h

theorem step : c.step.answer.2.Alternating log := by
  have ha := h.toAnswering.step hh
  cases h.tells_step hh with
  | nothing hl _ hp =>
      refine ⟨ha, h.patient.step, ?_, ?_⟩
      · rw [hl]
        exact h.alternate
      · rw [hl]
        exact fun hs => h.getLast? (hp h.patient hs)
  | halt hr hl _ =>
      refine ⟨ha, h.patient.step, ?_, ?_⟩
      · rw [hl]
        refine h.alternate.concat (fun hs => ?_) fun _ => rfl
        rw [h.isHalted hs] at hr
        cases hr
      · rw [hl, List.getLast?_concat]
        exact fun _ => rfl
  | resume hc hl hp =>
      have hg := h.getLast? hc
      refine ⟨ha, h.patient.step, ?_, fun hs => ?_⟩
      · rw [hl]
        refine h.alternate.concat ?_ fun hn => ?_
        · rw [hg]
          decide
        · rw [hn] at hg
          cases hg
      · rw [hp h.patient] at hs
        cases hs

theorem runUntil (target steps : Nat) : (c.runUntil target steps).answer.2.Alternating log :=
  keeps_runUntil (fun _ he => he.step hh) h target steps

theorem call {call : Call}
    (hq : ∀ address, call = .request address → c.interrupts.isHalted = true) :
    (c.call call).2.Alternating log := by
  have ha := h.toAnswering.call hh call
  have hw := h.patient.host
  have ho := h.patient.orderly.call hw.toWithin (fun _ ht => ht.within fun _ => id) call
  cases call with
  | step => exact h.step hh
  | runFor _ | runUntil _ _ => exact h.runUntil hh _ _
  | writeByte _ _ | writeWord _ _ | writeBytes _ _ | transfer _ _ | invalidate _ _ | clear
  | modifyRegisters _ => exact ⟨ha, ⟨hw, ho, h.patient.sinks⟩, h.alternate, h.getLast?⟩
  | request address =>
      exact ⟨ha, ⟨hw, ho, h.patient.sinks⟩, h.alternate, fun _ => h.getLast? (hq address rfl)⟩

theorem after {calls : List Call} (hq : c.RequestsWhileHalted calls) :
    (c.after calls).Alternating log := by
  induction calls generalizing c with
  | nil => exact h
  | cons call rest ih => exact ih (h.call hh hq.1) hq.2

end Alternating

theorem Alternating.addSinks (h : c.Alternating log) {sinks : List (Sink η)}
    (hs : ∀ sink ∈ sinks, sink.Adds log fun _ => []) (hp : ∀ sink ∈ sinks, sink.Patient) :
    (sinks.foldl addSink c).Alternating log := by
  have ha := h.toAnswering.addSinks hs
  have ho := h.patient.orderly.addSinks fun sink hm => (hp sink hm).within
  rw [foldl_addSink] at ha ho ⊢
  refine ⟨ha, ⟨h.patient.host, ho, ?_⟩, h.alternate, h.getLast?⟩
  exact List.forall_mem_append.mpr ⟨h.patient.sinks, fun sink hm => (hp sink hm).leaves⟩

/-- Each halt that a host is told of is answered by a resume before the next one, or the core
is still halted, and a resume only comes from a step that found the core halted. Where
requests only come to a core that is halted already, halts and resumes are told in turn. -/
theorem halts_are_answered {mode : Mode} {strategy : Strategy} {start : Snapshot}
    {segments : List Segment} {host : η} (hc : Core.new mode strategy start segments host = .ok c)
    (hh : Host.Adds log [.halt] [.resume]) (hl : log c.machine.host = [])
    {sinks : List (Sink η)} (hs : ∀ sink ∈ sinks, sink.Adds log fun _ => []) (calls : List Call) :
    let built := sinks.foldl addSink c
    let d := built.after calls
    Signal.Answered (log d.machine.host) ∧
    ((log d.machine.host).getLast? = some .halt → d.interrupts.isHalted = true) ∧
    d.Tells log d.step.answer.2 ∧
    (Host.Patient η → (∀ sink ∈ sinks, sink.Patient) → built.RequestsWhileHalted calls →
      Signal.Alternate (log d.machine.host)) := by
  obtain ⟨memory, rfl⟩ := exists_initial_of_new hc
  intro built d
  let start := initial mode strategy start memory host
  have h : start.Answering log := {
    orderly := orderly_initial _ _ _ _ _
    allAdd := Sink.allAdd_nothing fun _ hm => absurd hm List.not_mem_nil
    answered := by
      rw [hl]
      exact .nil
    isHalted := by
      rw [hl]
      exact nofun }
  have hd : d.Answering log := (h.addSinks hs).after hh calls
  refine ⟨hd.answered, hd.isHalted, hd.tells_step hh, fun hp hq hr => ?_⟩
  have hn : start.Alternating log := {
    h with
    patient := ⟨hp, orderly_initial _ _ _ _ _, fun _ hm => absurd hm List.not_mem_nil⟩
    alternate := by
      rw [hl]
      exact ⟨nofun, .nil⟩
    getLast? := nofun }
  exact ((hn.addSinks hs hq).after hh hr).alternate

/-- A host that writes down the halts and resumes and has no ports. -/
structure Announcer where
  signals : List Signal

instance : Host Announcer where
  readPort _ _ h := .done (0xFF, h)
  writePort _ _ _ h := .done h
  halted h := .done ⟨h.signals ++ [.halt]⟩
  resumed h := .done ⟨h.signals ++ [.resume]⟩

theorem Announcer.adds : Host.Adds Announcer.signals [.halt] [.resume] where
  readPort _ _ _ := trivial
  writePort _ _ _ _ := trivial
  halted _ := trivial
  resumed _ := trivial
  readPort_yields _ _ _ := rfl
  writePort_yields _ _ _ _ := rfl
  halted_yields _ := rfl
  resumed_yields _ := rfl

theorem Announcer.patient : Host.Patient Announcer where
  readPort _ _ _ := trivial
  writePort _ _ _ _ := trivial
  halted _ := trivial
  resumed _ := trivial
  readPort_leaves _ _ _ _ h := h
  writePort_leaves _ _ _ _ _ h := h
  resumed_leaves _ _ h := h

/-- A timer that waits for the processor to halt before it requests. -/
def waitingTimer : Sink Announcer := fun _ h => .inspect fun phase _ =>
  if phase = .running then .done h else .request 0x40 fun _ => .done h

/-- A `HALT` beside such a timer, and the step that services its request. -/
theorem signals_beside_waiting_timer :
    ∃ c, Core.new .gameBoy .uncached { sp := 0xFFFE, iff1 := true } [.ram 0 0x10000 #[0x76]]
        (Announcer.mk []) = .ok c ∧
      let calls := [Call.step, .step]
      let built := [waitingTimer].foldl addSink c
      let d := built.after calls
      Host.Adds Announcer.signals [.halt] [.resume] ∧ c.machine.host.signals = [] ∧
      (∀ sink ∈ [waitingTimer], sink.Adds Announcer.signals fun _ => []) ∧
      Host.Patient Announcer ∧ (∀ sink ∈ [waitingTimer], sink.Patient) ∧
      built.RequestsWhileHalted calls ∧ Signal.Answered d.machine.host.signals ∧
      d.machine.host.signals = [.halt, .resume] ∧
      Signal.Alternate d.machine.host.signals := by
  obtain ⟨memory, hc, hb⟩ := exists_new_of_ram Announcer #[0x76]
  refine ⟨_, hc _ _ _ _, ?_⟩
  intro calls built d
  have hs : ∀ sink ∈ [waitingTimer], sink.Adds Announcer.signals fun _ => [] := by
    refine List.forall_mem_singleton.mpr ⟨fun _ h => ?_, fun _ h => ?_⟩
    · intro phase inFlight
      dsimp only
      split
      · trivial
      · exact ⟨trivial, fun _ => trivial⟩
    · intro phase inFlight
      dsimp only
      split
      · exact (List.append_nil _).symm
      · exact fun _ => (List.append_nil _).symm
  have hp : ∀ sink ∈ [waitingTimer], sink.Patient := by
    refine List.forall_mem_singleton.mpr ⟨fun _ h => ?_, fun _ h i hi => ?_⟩
    · intro phase inFlight
      dsimp only
      split
      · trivial
      · exact ⟨trivial, fun _ => trivial⟩
    · have hr : i.phase = .running := bne_eq_false_iff_eq.mp hi
      simp only [waitingTimer, Reaction.run, hr, if_true]
      exact hi
  have hr : built.RequestsWhileHalted calls := ⟨nofun, nofun, trivial⟩
  obtain ⟨ha, -, -, ht⟩ := halts_are_answered (hc _ _ _ _) Announcer.adds rfl hs calls
  refine ⟨Announcer.adds, rfl, hs, Announcer.patient, hp, hr, ha, ?_,
    ht Announcer.patient hp hr⟩
  let halted := (built.behindBlock ⟨0, 1, #[], some .halt, ⟨1, 4⟩, false⟩).advance ⟨1, 4⟩
  have h1 : built.step = .ran ⟨1, 4⟩ halted :=
    (step_of_uncached (c := built) rfl rfl (Block.compile_of_byte (hb 0 (by decide)) rfl)).trans rfl
  change built.step.answer.2.step.answer.2.machine.host.signals = _
  rw [h1]
  rfl

/-- A request makes a running core halt without a word, so that the resume comes first. -/
theorem resume_without_halt :
    ∃ c, Core.new .gameBoy .uncached {} [.ram 0 0x10000 #[]] (Announcer.mk []) = .ok c ∧
      let d := c.after [.request 0x38, .step]
      d.machine.host.signals = [.resume] ∧ ¬ Signal.Alternate d.machine.host.signals := by
  obtain ⟨memory, hc, -⟩ := exists_new_of_ram Announcer #[]
  refine ⟨_, hc _ _ _ _, rfl, ?_⟩
  exact fun h => h.1 rfl

end Core
end Z80
