import Z80.Core.Step
import Z80.Proofs.Execution.Simulation
import Z80.Proofs.Interrupt.Interleaving

/-!
A step of a core is a path of the execution thread through its sections: what the core does
to the handshake in one go is what the thread does if nothing comes between its sections.
-/

namespace Z80

variable {ω η : Type}

/-- From the scene the thread gets to a place where the handshake and the host are those of
the machine. -/
def Machine.Follows (s : Scene η) (p : Position) (m : Machine ω η) : Prop :=
  ∃ h : History η, s.Path ⟨p, h⟩ ∧
    h.interrupts = m.interrupts ∧ h.owner = m.host ∧ h.running = []

namespace Scene

theorem exists_steps_reaction {α σ : Type} {p : Position} (hp : p.mayCall = true)
    (reaction : Reaction σ α) (h : History σ) :
    ∃ g, Path ⟨p, h⟩ ⟨p, g⟩ ∧ g.interrupts = (reaction.run h.interrupts).2 ∧
      g.owner = h.owner ∧ g.running = h.running := by
  induction reaction generalizing h with
  | done value => exact ⟨h, .refl, rfl, rfl, rfl⟩
  | inspect next ih => exact ih _ _ h
  | request address next ih =>
      obtain ⟨g, hs, hi, ho, hr⟩ := ih (h.interrupts.request address).1 (h.step (.request address))
      exact ⟨g, .head (.call hp rfl) hs, hi, ho, hr⟩
  | halt next ih =>
      obtain ⟨g, hs, hi, ho, hr⟩ := ih (h.step .halt)
      exact ⟨g, .head (.call hp rfl) hs, hi, ho, hr⟩
  | queue task next ih =>
      obtain ⟨g, hs, hi, ho, hr⟩ := ih (h.step (.queue task))
      exact ⟨g, .head (.call hp rfl) hs, hi, ho, hr⟩

theorem steps_runTasks {σ : Type} (h : History σ) (n : Nat) :
    Path ⟨.resumed, h⟩ ⟨.resumed, h.runTasks n⟩ := by
  induction n generalizing h with
  | zero => exact .refl
  | succ n ih => exact .head .task (ih _)

end Scene

namespace Machine.Follows

variable {s : Scene η} {p : Position} {m : Machine ω η}

theorem congr {ω' : Type} {n : Machine ω' η} (h : m.Follows s p)
    (hi : n.interrupts = m.interrupts) (hh : n.host = m.host) : n.Follows s p := by
  obtain ⟨g, hs, hgi, hgo, hr⟩ := h
  exact ⟨g, hs, hgi.trans hi.symm, hgo.trans hh.symm, hr⟩

theorem call {α : Type} (h : m.Follows s p) (hp : p.mayCall = true) (reaction : Reaction η α)
    {n : Machine ω η} (hn : n.interrupts = (reaction.run m.interrupts).2) : n.Follows s p := by
  obtain ⟨g, hs, hi, ho, hr⟩ := h
  obtain ⟨f, hf, hfi, hfo, hfr⟩ := Scene.exists_steps_reaction hp reaction g
  refine ⟨{ f with owner := n.host }, (hs.trans hf).tail (.change n.host hp), ?_, rfl, ?_⟩
  · rw [hn, ← hi]
    exact hfi
  · exact hfr.trans hr

theorem react (h : m.Follows s p) (hp : p.mayCall = true) (reaction : η → Reaction η) :
    (m.react reaction).Follows s p :=
  h.call hp (reaction m.host) rfl

theorem keeps [Observer ω] [Host η] (s : Scene η) (hp : p.mayCall = true) :
    Machine.Keeps fun m : Machine ω η => m.Follows s p where
  modifyRegisters h _ := h.congr rfl rfl
  writeByte h _ _ := h.congr rfl rfl
  writeWord h _ _ := h.congr rfl rfl
  readPort h port context := h.call hp (Host.readPort port context _) rfl
  writePort h port context value := h.react hp (Host.writePort port context value)

theorem block [Observer ω] [Host η] (h : m.Follows s p) (hp : p.mayCall = true) (b : Block) :
    (b.execute m).1.Follows s p :=
  (keeps s hp).block h b

theorem move {q : Position} {n : Machine ω η} {f : History η → History η} (h : m.Follows s p)
    (hs : ∀ g, g.interrupts = m.interrupts → Scene.Step ⟨p, g⟩ ⟨q, f g⟩)
    (hi : ∀ g, g.interrupts = m.interrupts → (f g).interrupts = n.interrupts)
    (ho : ∀ g, (f g).owner = g.owner) (hr : ∀ g, (f g).running = g.running)
    (hn : n.host = m.host) : n.Follows s q := by
  obtain ⟨g, hp, hgi, hgo, hgr⟩ := h
  exact ⟨f g, hp.tail (hs g hgi), hi g hgi, (ho g).trans (hgo.trans hn.symm), (hr g).trans hgr⟩

theorem take {n : Machine ω η} {value : Word} (h : m.Follows s .waiting)
    (ht : m.interrupts.take? = some (value, n.interrupts)) (hn : n.host = m.host) :
    n.Follows s .resuming := by
  obtain ⟨g, hs, hi, ho, hr⟩ := h
  have hg : g.interrupts.pending.isSome = true := by
    have h0 := congrArg Option.isSome ht
    rw [Interrupts.take?, Option.isSome_map] at h0
    rw [hi, h0]
    rfl
  have he : g.step .take = { g with interrupts := n.interrupts, taken := g.taken ++ [value] } := by
    simp only [History.step, hi, ht]
  refine ⟨_, hs.tail (.take hg), ?_⟩
  rw [he]
  exact ⟨rfl, ho.trans hn.symm, hr⟩

/-- A whole resume, in which the tasks run undisturbed. -/
theorem resume (h : m.Follows s .resuming) {n : Machine ω η}
    (hn : (n.host, n.interrupts) = m.interrupts.resume m.host) : n.Follows s .resumed := by
  obtain ⟨g, hs, hi, ho, hr⟩ := h
  obtain ⟨k, hk, he⟩ := History.exists_runTasks_all g.interrupts.tasks (g.step .leaveHalt)
    (by simp [History.step, hr])
  have hg : (g.step .leaveHalt).interrupts = g.interrupts.leaveHalt := rfl
  have hw : (g.step .leaveHalt).owner = g.owner := rfl
  rw [hg, hw, hi, ho] at he
  have he' := he.trans hn.symm
  exact ⟨_, (hs.tail .leaveHalt).trans (Scene.steps_runTasks _ k), congrArg Prod.snd he',
    congrArg Prod.fst he', hk⟩

end Machine.Follows

namespace Core

variable {c : Core η} {s : Scene η}

theorem follows_advance {p : Position} (h : c.machine.Follows s p) (hp : p.mayCall = true)
    (cost : Cost) : (c.advance cost).machine.Follows s p := by
  have hs (sinks : List (Sink η)) {m : Machine Cache η} (hm : m.Follows s p) :
      (sinks.foldl (fun m sink => m.react (sink cost)) m).Follows s p := by
    induction sinks generalizing m with
    | nil => exact hm
    | cons sink rest ih => exact ih (hm.react hp (sink cost))
  simp only [advance]
  split
  · exact h
  · exact hs c.sinks h

variable [Host η]

theorem follows_enterHalt (h : c.machine.Follows s .executing) :
    c.enterHalt.machine.Follows s .executing := by
  have hh : (c.modifyInterrupts (·.halt)).machine.Follows s .executing :=
    h.move (f := (·.step .halt)) (fun _ _ => .call rfl rfl)
      (fun _ hi => congrArg Interrupts.halt hi) (fun _ => rfl) (fun _ => rfl) rfl
  exact hh.react rfl Host.halted

theorem follows_leaveHalt (h : c.machine.Follows s .resuming) (cost : Cost) :
    (c.leaveHalt cost).machine.Follows s .ready := by
  have hr : c.resumeInterrupts.machine.Follows s .resumed := h.resume rfl
  have ha := follows_advance (c := c.resumeInterrupts.modifyMachine (·.react Host.resumed))
    (hr.react rfl Host.resumed) rfl cost
  obtain ⟨g, hs, hi, ho, hg⟩ := ha
  exact ⟨g, hs.tail (.resume hg), hi, ho, hg⟩

def Step.Follows (s : Scene η) : Step η → Prop
  | .ran _ c | .fault _ c => c.machine.Follows s .ready
  | .waiting c => c.machine.Follows s .waiting ∧ c.interrupts.take? = none

theorem follows_runBlock (h : c.machine.Follows s .executing) (b : Block) :
    (c.runBlock b).Follows s := by
  have finish {m : Machine Cache η} (hm : m.Follows s .executing) : m.Follows s .ready :=
    hm.move (fun _ _ => .finish) (fun _ hi => hi) (fun _ => rfl) (fun _ => rfl) rfl
  have hb : (c.modifyMachine fun m => (b.execute m).1).machine.Follows s .executing :=
    h.block rfl b
  simp only [runBlock]
  split
  · exact finish (follows_advance (follows_enterHalt hb) rfl _)
  · exact finish (follows_advance hb rfl _)

theorem follows_wait (h : c.machine.Follows s .ready) (hh : c.interrupts.isHalted = true) :
    c.waitForInterrupt.Follows s := by
  have hseen : c.machine.Follows s .acknowledging :=
    h.move (fun g hi => .halted (by rw [hi]; exact hh)) (fun _ hi => hi) (fun _ => rfl)
      (fun _ => rfl) rfl
  have hc : ({ c with parked := false }.modifyInterrupts (·.acknowledgeHalt)).machine.Follows s
      .checking :=
    hseen.move (f := (·.step .acknowledge)) (fun _ _ => .acknowledge)
      (fun _ hi => congrArg Interrupts.acknowledgeHalt hi) (fun _ => rfl) (fun _ => rfl) rfl
  simp only [waitForInterrupt, waitWith]
  generalize { c with parked := false }.modifyInterrupts (·.acknowledgeHalt) = d at hc ⊢
  split
  · rename_i hn
    have hf : d.interrupts.inFlight = false := by
      simpa using (Bool.and_eq_true_iff.mp hn).2
    have hs : d.machine.Follows s .resuming :=
      hc.move (fun _ hi => .skip (hi ▸ hf)) (fun _ hi => hi) (fun _ => rfl) (fun _ => rfl) rfl
    exact follows_leaveHalt hs 0
  · have hw : d.machine.Follows s .waiting :=
      hc.move (fun _ _ => .wait) (fun _ hi => hi) (fun _ => rfl) (fun _ => rfl) rfl
    split
    · rename_i ht
      exact ⟨hw, ht⟩
    · rename_i value i ht
      have htaken : (d.modifyInterrupts fun _ => i).machine.Follows s .resuming := hw.take ht rfl
      split
      · have ha : ((d.modifyInterrupts fun _ => i).accept value).machine.Follows s .resuming :=
          htaken.congr rfl rfl
        exact follows_leaveHalt ha _
      · exact follows_leaveHalt htaken 0

/-- A step of a core is a path through the sections of the execution thread, which ends at
its wait if the core has to wait, and else where it began. -/
theorem follows_step (h : c.machine.Follows s .ready) : c.step.Follows s := by
  simp only [step, stepWith]
  split
  · rename_i hh
    exact follows_wait h hh
  · rename_i hh
    have hr : c.machine.interrupts.isHalted = false := Bool.eq_false_iff.mpr hh
    have hm : c.fetch.2.machine.Follows s .ready := h.congr rfl rfl
    have he : c.fetch.2.machine.Follows s .executing :=
      hm.move (fun _ hi => .execute (hi ▸ hr)) (fun _ hi => hi) (fun _ => rfl) (fun _ => rfl) rfl
    cases hf : c.fetch with
    | mk result d =>
        rw [hf] at hm he
        cases result with
        | error fault => exact hm
        | ok b => exact follows_runBlock he b

end Core
end Z80
