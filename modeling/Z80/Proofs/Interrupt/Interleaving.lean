import Z80.Proofs.Interrupt.History

/-!
The execution thread beside one producer. Between its sections the thread stands somewhere
in its loop, and the producer may be scheduled there. A thread that waits has acknowledged
its halt, and no section of the producer takes the acknowledgement back, so the two never
wait for each other.
-/

namespace Z80

inductive Position where
  /-- Before it looks whether it is halted. -/
  | ready
  /-- In a block or in what the block calls. -/
  | executing
  | acknowledging
  /-- Before it decides whether to wait. -/
  | checking
  | waiting
  | resuming
  /-- Behind a halt, where the tasks and the host are called. -/
  | resumed
  deriving DecidableEq

namespace Position

/-- Where devices may be called, by the thread or between two of its steps. -/
def mayCall : Position → Bool
  | ready | executing | resumed => true
  | acknowledging | checking | waiting | resuming => false

/-- From the acknowledgement of a halt to the resume. -/
def isServicing : Position → Bool
  | checking | waiting | resuming => true
  | ready | executing | acknowledging | resumed => false

end Position

namespace Interrupts

variable {σ : Type} {i j k : Interrupts σ}

/-- Nothing ends a halt or takes back its acknowledgement. -/
def Holds (i j : Interrupts σ) : Prop :=
  i.phase ≠ .running → j.phase ≠ .running ∧
    (i.haltAcknowledged = true → j.haltAcknowledged = true)

theorem Holds.refl (i : Interrupts σ) : i.Holds i := fun hr => ⟨hr, id⟩

theorem Holds.trans (hij : i.Holds j) (hjk : j.Holds k) : i.Holds k := by
  intro hi
  obtain ⟨hj, haj⟩ := hij hi
  obtain ⟨hk, hak⟩ := hjk hj
  exact ⟨hk, hak ∘ haj⟩

theorem holds_halt (i : Interrupts σ) : i.Holds i.halt := by
  intro hr
  rw [halt, if_neg hr]
  exact ⟨hr, id⟩

theorem holds_advance (p : Producer) (i : Interrupts σ) : i.Holds (p.advance i).2 := by
  simp only [Producer.advance]
  split
  · exact .refl i
  · cases p with
    | awaitingHalt address => exact fun _ => ⟨by simp [makePending], id⟩
    | awaitingTaking _ | returned => exact .refl i

theorem holds_enter {p : Producer} {address : Word}
    (h : Producer.enter? address i = some (p, j)) : i.Holds j := by
  simp only [Producer.enter?] at h
  split at h
  · cases h
  · have hh : i.Holds { i with inFlight := true }.halt :=
      Holds.trans (fun hr => ⟨hr, id⟩) (holds_halt { i with inFlight := true })
    have ha := hh.trans (holds_advance (.awaitingHalt address) _)
    rw [Option.some.inj h] at ha
    exact ha

end Interrupts

/-- What a device may do to the handshake. -/
def Event.isCall {σ : Type} : Event σ → Bool
  | halt | queue _ | request _ => true
  | acknowledge | leaveHalt | take | task | enter _ | advance => false

structure Scene (σ : Type) where
  position : Position
  history : History σ

namespace Scene

variable {σ : Type}

/-- One section of either thread. Whether the execution thread waits also depends on its
registers, of which nothing is assumed. -/
inductive Step : Scene σ → Scene σ → Prop
  | execute {h : History σ} : h.interrupts.isHalted = false →
      Step ⟨.ready, h⟩ ⟨.executing, h⟩
  | finish {h : History σ} : Step ⟨.executing, h⟩ ⟨.ready, h⟩
  | call {p : Position} {h : History σ} {e : Event σ} : p.mayCall = true → e.isCall = true →
      Step ⟨p, h⟩ ⟨p, h.step e⟩
  | change {p : Position} {h : History σ} (owner : σ) : p.mayCall = true →
      Step ⟨p, h⟩ ⟨p, { h with owner := owner }⟩
  | halted {h : History σ} : h.interrupts.isHalted = true →
      Step ⟨.ready, h⟩ ⟨.acknowledging, h⟩
  | acknowledge {h : History σ} : Step ⟨.acknowledging, h⟩ ⟨.checking, h.step .acknowledge⟩
  /-- Interrupts are disabled and no request is in flight. -/
  | skip {h : History σ} : h.interrupts.inFlight = false → Step ⟨.checking, h⟩ ⟨.resuming, h⟩
  | wait {h : History σ} : Step ⟨.checking, h⟩ ⟨.waiting, h⟩
  | take {h : History σ} : h.interrupts.pending.isSome = true →
      Step ⟨.waiting, h⟩ ⟨.resuming, h.step .take⟩
  | leaveHalt {h : History σ} : Step ⟨.resuming, h⟩ ⟨.resumed, h.step .leaveHalt⟩
  | task {h : History σ} : Step ⟨.resumed, h⟩ ⟨.resumed, h.step .task⟩
  | resume {h : History σ} : h.running = [] → Step ⟨.resumed, h⟩ ⟨.ready, h⟩
  | enter {p : Position} {h : History σ} (address : Word) :
      Step ⟨p, h⟩ ⟨p, h.step (.enter address)⟩
  | advance {p : Position} {h : History σ} : Step ⟨p, h⟩ ⟨p, h.step .advance⟩

inductive Path (s : Scene σ) : Scene σ → Prop
  | refl : Path s s
  | tail {t u : Scene σ} : Path s t → Step t u → Path s u

namespace Path

theorem trans {s t u : Scene σ} (hst : Path s t) (htu : Path t u) : Path s u := by
  induction htu with
  | refl => exact hst
  | tail _ hs ih => exact ih.tail hs

theorem head {s t u : Scene σ} (hs : Step s t) (htu : Path t u) : Path s u :=
  (refl.tail hs).trans htu

end Path

def Reachable (owner : σ) : Scene σ → Prop :=
  Path ⟨.ready, .start owner⟩

/-- A halt that the thread has seen lasts until the thread ends it, and so does its
acknowledgement. -/
structure Guarded (s : Scene σ) : Prop where
  halted : s.position = .acknowledging ∨ s.position.isServicing = true →
    s.history.interrupts.phase ≠ .running
  acknowledged : s.position.isServicing = true → s.history.interrupts.haltAcknowledged = true

theorem guarded_start (owner : σ) : Guarded ⟨.ready, .start owner⟩ where
  halted h := by simp [Position.isServicing] at h
  acknowledged h := by simp [Position.isServicing] at h

namespace Guarded

theorem of_holds {p : Position} {h g : History σ} (hg : Guarded ⟨p, h⟩)
    (hh : h.interrupts.Holds g.interrupts) : Guarded ⟨p, g⟩ where
  halted hp := (hh (hg.halted hp)).1
  acknowledged hp := (hh (hg.halted (.inr hp))).2 (hg.acknowledged hp)

theorem of_mayCall {p : Position} {h : History σ} (hp : p.mayCall = true) :
    Guarded ⟨p, h⟩ := by
  have hs : p.isServicing = false := by
    cases p with
    | ready | executing | resumed => rfl
    | acknowledging | checking | waiting | resuming => cases hp
  have ha : p ≠ .acknowledging := by
    rintro rfl
    cases hp
  constructor <;> simp [hs, ha]

theorem step {s t : Scene σ} (hg : s.Guarded) (h : Step s t) : t.Guarded := by
  cases h with
  | execute _ | finish | resume _ => exact of_mayCall rfl
  | call hp _ | change _ hp => exact of_mayCall hp
  | leaveHalt | task => exact of_mayCall rfl
  | halted hh =>
      constructor
      · intro _
        simpa [Interrupts.isHalted] using hh
      · simp [Position.isServicing]
  | acknowledge =>
      constructor
      · intro _
        exact hg.halted (.inl rfl)
      · intro _
        rfl
  | skip _ | wait => exact ⟨fun _ => hg.halted (.inr rfl), fun _ => hg.acknowledged rfl⟩
  | take hp =>
      obtain ⟨address, ha⟩ := Option.isSome_iff_exists.mp hp
      constructor
      · intro _
        simp [History.step, Interrupts.take?, ha]
      · intro _
        simpa [History.step, Interrupts.take?, ha] using hg.acknowledged rfl
  | enter address =>
      refine hg.of_holds ?_
      simp only [History.step]
      split
      · split
        · exact .refl _
        · rename_i he
          exact Interrupts.holds_enter he
      · exact .refl _
  | advance => exact hg.of_holds (Interrupts.holds_advance _ _)

theorem of_reachable {owner : σ} {s : Scene σ} (h : Reachable owner s) : s.Guarded := by
  induction h with
  | refl => exact guarded_start owner
  | tail _ hs ih => exact ih.step hs

end Guarded

/-- The two threads never wait for each other: where the execution thread waits and no
address is pending, a producer that has not returned passes its wait and moves on. -/
theorem producer_moves_of_waiting {owner : σ} {s : Scene σ} (h : Reachable owner s)
    (hw : s.position = .waiting) (hp : s.history.interrupts.take? = none) :
    s.history.producer.mustWait s.history.interrupts = false ∧
      (s.history.producer ≠ .returned →
        (s.history.step .advance).producer ≠ s.history.producer) := by
  have hg := Guarded.of_reachable h
  have ha := hg.acknowledged (by rw [hw]; rfl)
  have hn : s.history.interrupts.pending = none := Option.map_eq_none_iff.mp hp
  have hm : s.history.producer.mustWait s.history.interrupts = false := by
    cases s.history.producer <;> simp [Producer.mustWait, ha, hn]
  refine ⟨hm, ?_⟩
  intro hr
  simp only [History.step, Producer.advance, hm]
  cases hq : s.history.producer with
  | awaitingHalt _ | awaitingTaking _ => simp
  | returned => exact absurd hq hr

/-- A delivery that forces the halt of a running processor, and the thread that has come to
its wait before the producer is scheduled again. -/
theorem producer_moves_of_forced_halt :
    ∃ s : Scene Unit, Reachable () s ∧ s.position = .waiting ∧
      s.history.interrupts.take? = none ∧ s.history.producer = .awaitingHalt 0x38 ∧
      s.history.producer.mustWait s.history.interrupts = false ∧
      (s.history.producer ≠ .returned →
        (s.history.step .advance).producer ≠ s.history.producer) := by
  let h := (History.start ()).step (.enter 0x38)
  have h0 : Reachable () ⟨.ready, h⟩ := Path.refl.tail (.enter 0x38)
  have h1 : Reachable () ⟨.checking, h.step .acknowledge⟩ :=
    (h0.tail (.halted rfl)).tail .acknowledge
  have h2 : Reachable () ⟨.waiting, h.step .acknowledge⟩ := h1.tail .wait
  exact ⟨_, h2, rfl, rfl, rfl, producer_moves_of_waiting h2 rfl rfl⟩

end Scene
end Z80
