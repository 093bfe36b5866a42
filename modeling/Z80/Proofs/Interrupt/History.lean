import Z80.Interrupt.Producer

/-!
Histories of a handshake: the atomic sections of the processor, of the tasks it runs
after a resume and of one producer at a time, in any order. A history remembers which
requests were accepted and which addresses were taken, so that the two can be compared.
-/

namespace Z80

/-- An atomic section on a handshake. The calls that a running task makes are sections
of their own, between which others may come. -/
inductive Event (σ : Type) where
  | halt
  | acknowledge
  | leaveHalt
  | queue (task : ResumeTask σ)
  | request (address : Word)
  | take
  /-- The first of the running tasks goes on by one call. -/
  | task
  | enter (address : Word)
  /-- The producer is scheduled. -/
  | advance

/-- The address of a producer that has not made it pending yet. -/
def Producer.announced? : Producer → Option Word
  | awaitingHalt address => some address
  | awaitingTaking _ | returned => none

structure History (σ : Type) where
  interrupts : Interrupts σ
  owner : σ
  /-- What is left of the tasks that were taken from the queue. -/
  running : List (ResumeTask σ)
  producer : Producer
  /-- The addresses of accepted requests, the earliest first. -/
  accepted : List Word
  taken : List Word

namespace History

variable {σ : Type}

def start (owner : σ) : History σ :=
  ⟨.idle, owner, [], .returned, [], []⟩

def request (h : History σ) (address : Word) : Bool × History σ :=
  let (ok, i) := h.interrupts.request address
  (ok, { h with interrupts := i, accepted := if ok then h.accepted ++ [address] else h.accepted })

def runTask (h : History σ) : History σ :=
  match h.running with
  | [] => h
  | .done :: rest => { h with running := rest }
  | .update change next :: rest => { h with owner := change h.owner, running := next :: rest }
  | .inspect next :: rest =>
      { h with running := next h.owner h.interrupts.phase h.interrupts.inFlight :: rest }
  | .request address next :: rest =>
      let (ok, h) := h.request address
      { h with running := next ok :: rest }
  | .halt next :: rest => { h with interrupts := h.interrupts.halt, running := next :: rest }
  | .queue task next :: rest =>
      { h with interrupts := h.interrupts.addTask task, running := next :: rest }

/-- A section that has to wait changes nothing, and neither does a second producer while
the first one is still there. -/
def step (h : History σ) : Event σ → History σ
  | .halt => { h with interrupts := h.interrupts.halt }
  | .acknowledge => { h with interrupts := h.interrupts.acknowledgeHalt }
  | .leaveHalt =>
      { h with
        interrupts := h.interrupts.leaveHalt
        running := h.running ++ h.interrupts.tasks }
  | .queue task => { h with interrupts := h.interrupts.addTask task }
  | .request address => (h.request address).2
  | .take =>
      match h.interrupts.take? with
      | none => h
      | some (address, i) => { h with interrupts := i, taken := h.taken ++ [address] }
  | .task => h.runTask
  | .enter address =>
      if h.producer = .returned then
        match Producer.enter? address h.interrupts with
        | none => h
        | some (p, i) =>
            { h with interrupts := i, producer := p, accepted := h.accepted ++ [address] }
      else h
  | .advance =>
      let (p, i) := h.producer.advance h.interrupts
      { h with producer := p, interrupts := i }

def run (h : History σ) (events : List (Event σ)) : History σ :=
  events.foldl step h

/-- The address of the accepted request that was not taken yet: it is pending, or its
producer waits for the halt. -/
def outstanding (h : History σ) : Option Word :=
  h.interrupts.pending.or h.producer.announced?

/-- What ties the fields of a handshake together between its sections. -/
structure Consistent (h : History σ) : Prop where
  phase_eq_pending : h.interrupts.phase = .pending ↔ h.interrupts.pending.isSome
  inFlight_eq : h.interrupts.inFlight = h.outstanding.isSome
  pending_eq_none : ∀ address, h.producer = .awaitingHalt address → h.interrupts.pending = none
  accepted_eq : h.accepted = h.taken ++ h.outstanding.toList

theorem consistent_start (owner : σ) : (start owner).Consistent where
  phase_eq_pending := by simp [start, Interrupts.idle]
  inFlight_eq := rfl
  pending_eq_none := by simp [start]
  accepted_eq := rfl

namespace Consistent

variable {h : History σ}

theorem outstanding_eq_none (hc : h.Consistent) (hf : h.interrupts.inFlight = false) :
    h.outstanding = none := by
  have h0 := hc.inFlight_eq
  rw [hf] at h0
  exact Option.not_isSome_iff_eq_none.mp (by simp [← h0])

theorem pending_eq_none_of_idle (hc : h.Consistent) (hf : h.interrupts.inFlight = false) :
    h.interrupts.pending = none := by
  have h0 := hc.outstanding_eq_none hf
  exact (Option.or_eq_none_iff.mp h0).1

theorem congr {g : History σ} (hc : h.Consistent)
    (hphase : g.interrupts.phase = .pending ↔ h.interrupts.phase = .pending)
    (hp : g.interrupts.pending = h.interrupts.pending)
    (hf : g.interrupts.inFlight = h.interrupts.inFlight)
    (hr : g.producer = h.producer) (ha : g.accepted = h.accepted) (ht : g.taken = h.taken) :
    g.Consistent := by
  have ho : g.outstanding = h.outstanding := by simp only [outstanding, hp, hr]
  refine ⟨?_, ?_, ?_, ?_⟩
  · rw [hphase, hp]; exact hc.phase_eq_pending
  · rw [hf, ho]; exact hc.inFlight_eq
  · intro address hw
    rw [hp]
    exact hc.pending_eq_none address (hr ▸ hw)
  · rw [ha, ht, ho]; exact hc.accepted_eq

theorem halt (hc : h.Consistent) :
    Consistent { h with interrupts := h.interrupts.halt } := by
  by_cases hr : h.interrupts.phase = .running
  · apply hc.congr <;> simp [Interrupts.halt, hr]
  · simpa only [Interrupts.halt, if_neg hr] using hc

theorem leaveHalt (hc : h.Consistent) : (h.step .leaveHalt).Consistent := by
  refine hc.congr ?_ rfl rfl rfl rfl rfl
  rw [hc.phase_eq_pending]
  cases hp : h.interrupts.pending <;> simp [step, Interrupts.leaveHalt, hp]

theorem request (hc : h.Consistent) (address : Word) : (h.request address).2.Consistent := by
  cases hf : h.interrupts.inFlight with
  | true => simpa [History.request, Interrupts.request, hf] using hc
  | false =>
      have hn := hc.outstanding_eq_none hf
      have hw (a : Word) : h.producer ≠ .awaitingHalt a := by
        intro hw
        simp [outstanding, Producer.announced?, hw, hc.pending_eq_none a hw] at hn
      have ha := hc.accepted_eq
      rw [hn] at ha
      constructor
      · simp [History.request, Interrupts.request, Interrupts.makePending, hf]
      · simp [History.request, Interrupts.request, Interrupts.makePending, outstanding, hf]
      · intro a hp
        simp only [History.request, Interrupts.request, hf] at hp
        exact absurd hp (hw a)
      · simp [History.request, Interrupts.request, Interrupts.makePending, outstanding, hf, ha]

theorem take (hc : h.Consistent) : (h.step .take).Consistent := by
  cases hp : h.interrupts.pending with
  | none => simpa [step, Interrupts.take?, hp] using hc
  | some address =>
      have hw (a : Word) : h.producer ≠ .awaitingHalt a := by
        intro hw
        simp [hc.pending_eq_none a hw] at hp
      have ha := hc.accepted_eq
      have ho : h.outstanding = some address := by simp [outstanding, hp]
      rw [ho] at ha
      have hn : (h.step .take).outstanding = none := by
        cases hq : h.producer with
        | awaitingHalt a => exact absurd hq (hw a)
        | awaitingTaking _ | returned =>
            simp [step, Interrupts.take?, outstanding, Producer.announced?, hp, hq]
      constructor
      · simp [step, Interrupts.take?, hp]
      · rw [hn]
        simp [step, Interrupts.take?, hp]
      · intro a _
        simp [step, Interrupts.take?, hp]
      · rw [hn]
        simp [step, Interrupts.take?, hp, ha]

/-- A call of a running task is a section that is there without the task, too. -/
theorem runTask (hc : h.Consistent) : h.runTask.Consistent := by
  unfold History.runTask
  split
  · exact hc
  · exact hc.congr Iff.rfl rfl rfl rfl rfl rfl
  · exact hc.congr Iff.rfl rfl rfl rfl rfl rfl
  · exact hc.congr Iff.rfl rfl rfl rfl rfl rfl
  · exact (hc.request _).congr Iff.rfl rfl rfl rfl rfl rfl
  · exact hc.halt.congr Iff.rfl rfl rfl rfl rfl rfl
  · exact hc.congr Iff.rfl rfl rfl rfl rfl rfl

theorem advance (hc : h.Consistent) : (h.step .advance).Consistent := by
  cases hw : h.producer.mustWait h.interrupts with
  | true =>
      have he : h.producer.advance h.interrupts = (h.producer, h.interrupts) := by
        simp [Producer.advance, hw]
      refine hc.congr ?_ ?_ ?_ ?_ rfl rfl <;> simp [step, he]
  | false =>
      have hf := hc.inFlight_eq
      have ha := hc.accepted_eq
      cases hp : h.producer with
      | awaitingHalt address =>
          have hn := hc.pending_eq_none address hp
          have ho : h.outstanding = some address := by
            simp [outstanding, Producer.announced?, hn, hp]
          rw [ho] at hf ha
          rw [hp] at hw
          constructor <;>
            simp [step, Producer.advance, Interrupts.makePending, outstanding, hp, hw, hf, ha]
      | awaitingTaking address =>
          rw [hp] at hw
          have ho : (h.step .advance).outstanding = h.outstanding := by
            simp [step, Producer.advance, Producer.announced?, outstanding, hp, hw]
          constructor
          · simpa [step, Producer.advance, hp, hw] using hc.phase_eq_pending
          · rw [ho]
            simpa [step, Producer.advance, hp, hw] using hf
          · intro a ha
            simp [step, Producer.advance, hp, hw] at ha
          · rw [ho]
            exact ha
      | returned =>
          have he : h.producer.advance h.interrupts = (h.producer, h.interrupts) := by
            simp [Producer.advance, hp]
          refine hc.congr ?_ ?_ ?_ ?_ rfl rfl <;> simp [step, he]

theorem enter (hc : h.Consistent) (address : Word) : (h.step (.enter address)).Consistent := by
  by_cases hr : h.producer = .returned
  · cases hf : h.interrupts.inFlight with
    | true => simpa [step, Producer.enter?, hr, hf] using hc
    | false =>
        let announced : History σ :=
          { h with
            interrupts := { h.interrupts with inFlight := true }.halt
            producer := .awaitingHalt address
            accepted := h.accepted ++ [address] }
        have he : h.step (.enter address) = announced.step .advance := by
          simp [step, Producer.enter?, hr, hf, announced]
        have hp := hc.pending_eq_none_of_idle hf
        have hph : h.interrupts.phase ≠ .pending := by simp [hc.phase_eq_pending, hp]
        have ha := hc.accepted_eq
        rw [hc.outstanding_eq_none hf] at ha
        rw [he]
        apply advance
        by_cases hrun : h.interrupts.phase = .running <;> constructor <;>
          simp [announced, Interrupts.halt, outstanding, Producer.announced?, hrun, hp, hph, ha]
  · simpa only [step, if_neg hr] using hc

theorem step (hc : h.Consistent) (e : Event σ) : (h.step e).Consistent := by
  cases e with
  | halt => exact hc.halt
  | acknowledge | queue task => exact hc.congr Iff.rfl rfl rfl rfl rfl rfl
  | leaveHalt => exact hc.leaveHalt
  | request address => exact hc.request address
  | take => exact hc.take
  | task => exact hc.runTask
  | enter address => exact hc.enter address
  | advance => exact hc.advance

theorem run (hc : h.Consistent) (events : List (Event σ)) : (h.run events).Consistent := by
  induction events generalizing h with
  | nil => exact hc
  | cons e rest ih => exact ih (hc.step e)

theorem request_eq_false_iff (hc : h.Consistent) (address : Word) :
    (h.interrupts.request address).1 = false ↔ h.taken ≠ h.accepted := by
  rw [hc.accepted_eq]
  cases hf : h.interrupts.inFlight with
  | true =>
      obtain ⟨a, ha⟩ := Option.isSome_iff_exists.mp (hc.inFlight_eq ▸ hf)
      simp [Interrupts.request, hf, ha]
  | false => simp [Interrupts.request, hf, hc.outstanding_eq_none hf]

theorem enter?_eq_none_iff (hc : h.Consistent) (address : Word) :
    Producer.enter? address h.interrupts = none ↔ h.taken ≠ h.accepted := by
  rw [← hc.request_eq_false_iff address]
  cases hf : h.interrupts.inFlight <;> simp [Producer.enter?, Interrupts.request, hf]

theorem outstanding_eq_some_iff (hc : h.Consistent) (address : Word) :
    h.outstanding = some address ↔
      h.interrupts.pending = some address ∨ h.producer = .awaitingHalt address := by
  have hp := hc.pending_eq_none
  cases hr : h.producer with
  | awaitingHalt a => simp [outstanding, Producer.announced?, hp a hr, hr]
  | awaitingTaking _ | returned => simp [outstanding, Producer.announced?, hr]

theorem taken_take (hc : h.Consistent) (ho : h.outstanding = h.interrupts.pending) :
    (h.step .take).taken = h.accepted := by
  rw [hc.accepted_eq, ho]
  cases hp : h.interrupts.pending <;> simp [History.step, Interrupts.take?, hp]

end Consistent

def runTasks (h : History σ) : (calls : Nat) → History σ
  | 0 => h
  | calls + 1 => (h.step .task).runTasks calls

theorem runTasks_add (h : History σ) (m n : Nat) :
    h.runTasks (m + n) = (h.runTasks m).runTasks n := by
  induction m generalizing h with
  | zero => rw [Nat.zero_add]; rfl
  | succ m ih => rw [Nat.succ_add]; exact ih _

theorem runTasks_eq_run (h : History σ) (n : Nat) :
    h.runTasks n = h.run (List.replicate n .task) := by
  induction n generalizing h with
  | zero => rfl
  | succ n ih => exact ih _

theorem exists_runTasks (task : ResumeTask σ) (rest : List (ResumeTask σ)) (h : History σ)
    (hr : h.running = task :: rest) : ∃ n,
      (h.runTasks n).running = rest ∧
      ((h.runTasks n).owner, (h.runTasks n).interrupts) = task.run h.owner h.interrupts := by
  induction task generalizing h with
  | done => exact ⟨1, by simp [runTasks, step, runTask, hr, ResumeTask.run]⟩
  | update change next ih =>
      obtain ⟨n, hn⟩ := ih (h.step .task) (by simp [step, runTask, hr])
      exact ⟨n + 1, by simpa [runTasks, step, runTask, hr, ResumeTask.run] using hn⟩
  | inspect next ih =>
      obtain ⟨n, hn⟩ := ih h.owner h.interrupts.phase h.interrupts.inFlight (h.step .task)
        (by simp [step, runTask, hr])
      exact ⟨n + 1, by simpa [runTasks, step, runTask, hr, ResumeTask.run] using hn⟩
  | request address next ih =>
      obtain ⟨n, hn⟩ := ih (h.request address).1 (h.step .task) (by simp [step, runTask, hr])
      exact ⟨n + 1, by simpa [runTasks, step, runTask, request, hr, ResumeTask.run] using hn⟩
  | halt next ih =>
      obtain ⟨n, hn⟩ := ih (h.step .task) (by simp [step, runTask, hr])
      exact ⟨n + 1, by simpa [runTasks, step, runTask, hr, ResumeTask.run] using hn⟩
  | queue task next _ ih =>
      obtain ⟨n, hn⟩ := ih (h.step .task) (by simp [step, runTask, hr])
      exact ⟨n + 1, by simpa [runTasks, step, runTask, hr, ResumeTask.run] using hn⟩

theorem exists_runTasks_all (tasks : List (ResumeTask σ)) (h : History σ)
    (hr : h.running = tasks) : ∃ n,
      (h.runTasks n).running = [] ∧
      ((h.runTasks n).owner, (h.runTasks n).interrupts) =
        ResumeTask.runAll tasks h.owner h.interrupts := by
  induction tasks generalizing h with
  | nil => exact ⟨0, hr, rfl⟩
  | cons task rest ih =>
      obtain ⟨m, hm, ho⟩ := exists_runTasks task rest h hr
      obtain ⟨n, hn, hp⟩ := ih (h.runTasks m) hm
      refine ⟨m + n, ?_⟩
      rw [runTasks_add, ResumeTask.runAll, ← ho]
      exact ⟨hn, hp⟩

/-- A whole resume is a history: it leaves the halt, and then its tasks make their calls. -/
theorem exists_run_resume (h : History σ) (hr : h.running = []) : ∃ n,
    let g := h.run (.leaveHalt :: List.replicate n .task)
    g.running = [] ∧ (g.owner, g.interrupts) = h.interrupts.resume h.owner := by
  obtain ⟨n, hn, ho⟩ := exists_runTasks_all h.interrupts.tasks (h.step .leaveHalt)
    (by simp [step, hr])
  rw [runTasks_eq_run] at hn ho
  exact ⟨n, hn, ho⟩

/-- Once the halt is acknowledged, a producer that is scheduled has made its address pending. -/
theorem outstanding_advance (h : History σ) (ha : h.interrupts.haltAcknowledged = true) :
    (h.step .advance).outstanding = (h.step .advance).interrupts.pending := by
  cases hp : h.producer with
  | awaitingHalt address =>
      simp [step, Producer.advance, Producer.mustWait, Interrupts.makePending, outstanding, hp, ha]
  | awaitingTaking address =>
      cases hw : Producer.mustWait (.awaitingTaking address) h.interrupts <;>
        simp [step, Producer.advance, outstanding, Producer.announced?, hp, hw]
  | returned =>
      simp [step, Producer.advance, Producer.mustWait, outstanding, Producer.announced?, hp]

/-- After any history the accepted addresses are those that were taken and the one that is
outstanding, in this order: pending, or with the producer that waits for the halt. Nothing of
it can get lost, for as soon as the halt is acknowledged and the producer scheduled, to take
an address leaves none behind. A source is refused exactly while one is outstanding, and the
phase tells whether an address can be taken. -/
theorem accepted_requests_taken_in_order (owner : σ) (events : List (Event σ)) :
    let h := (start owner).run events
    h.accepted = h.taken ++ h.outstanding.toList ∧
    (∀ address, h.outstanding = some address ↔
      h.interrupts.pending = some address ∨ h.producer = .awaitingHalt address) ∧
    (h.run [.acknowledge, .advance, .take]).taken = h.accepted ∧
    (∀ address, (h.interrupts.request address).1 = false ↔ h.taken ≠ h.accepted) ∧
    (∀ address, Producer.enter? address h.interrupts = none ↔ h.taken ≠ h.accepted) ∧
    (h.interrupts.phase = .pending ↔ h.interrupts.take?.isSome) := by
  intro h
  have hc : h.Consistent := (consistent_start owner).run events
  refine ⟨hc.accepted_eq, hc.outstanding_eq_some_iff, ?_, hc.request_eq_false_iff,
    hc.enter?_eq_none_iff, ?_⟩
  · have ha : h.interrupts.acknowledgeHalt.haltAcknowledged = true := rfl
    have ho := (h.step .acknowledge).outstanding_advance ha
    exact ((hc.step .acknowledge).step .advance).taken_take ho
  · rw [hc.phase_eq_pending, Interrupts.take?, Option.isSome_map]

end History
end Z80
