import Z80.Proofs.Interrupt.Calls
import Z80.Proofs.Interrupt.Licence

/-!
The tasks that are queued for a resume. A resume takes all that the queue holds when it begins
and runs them in that order, each to its end. What is queued from then on, by its own tasks or
by anyone else, is for the resume that follows. The books are kept beside the history: every
task has the number of resumes that had begun when it was queued, and once it is taken the
number of the resume that takes it.
-/

namespace Z80

variable {σ : Type}

/-- The second task is what the first one has left after some of its calls, whatever these
answered. -/
inductive ResumeTask.Leaves (t : ResumeTask σ) : ResumeTask σ → Prop
  | start : t.Leaves t
  | update {change : σ → σ} {next : ResumeTask σ} : t.Leaves (.update change next) → t.Leaves next
  | inspect {next : σ → Phase → Bool → ResumeTask σ} (s : σ) (phase : Phase) (inFlight : Bool) :
      t.Leaves (.inspect next) → t.Leaves (next s phase inFlight)
  | request {address : Word} {next : Bool → ResumeTask σ} (accepted : Bool) :
      t.Leaves (.request address next) → t.Leaves (next accepted)
  | halt {next : ResumeTask σ} : t.Leaves (.halt next) → t.Leaves next
  | queue {task next : ResumeTask σ} : t.Leaves (.queue task next) → t.Leaves next

/-- Tasks that run one after the other, and what is left of them: the first one may have begun,
the others have not. -/
inductive Begun : List (ResumeTask σ) → List (ResumeTask σ) → Prop
  | none : Begun [] []
  | some {task left : ResumeTask σ} {rest : List (ResumeTask σ)} :
      task.Leaves left → Begun (task :: rest) (left :: rest)

namespace Begun

variable {tasks rest : List (ResumeTask σ)} {left : ResumeTask σ}

theorem refl (tasks : List (ResumeTask σ)) : Begun tasks tasks := by
  cases tasks with
  | nil => exact .none
  | cons task rest => exact .some .start

theorem eq_nil (h : Begun tasks []) : tasks = [] := by
  cases h
  rfl

theorem next (h : Begun tasks (left :: rest)) {later : ResumeTask σ}
    (hl : ∀ task : ResumeTask σ, task.Leaves left → task.Leaves later) :
    Begun tasks (later :: rest) := by
  cases h with
  | some ht => exact .some (hl _ ht)

theorem tail (h : Begun tasks (left :: rest)) : Begun tasks.tail rest := by
  cases h
  exact .refl rest

end Begun

theorem Producer.tasks_advance (p : Producer) (i : Interrupts σ) :
    (p.advance i).2.tasks = i.tasks := by
  unfold advance
  split
  · rfl
  · cases p <;> rfl

theorem Producer.tasks_enter {address : Word} {i j : Interrupts σ} {p : Producer}
    (h : enter? address i = some (p, j)) : j.tasks = i.tasks := by
  rw [enter?] at h
  split at h
  · cases h
  · have ha := tasks_advance (.awaitingHalt address) { i with inFlight := true }.halt
    rw [Option.some.inj h, Interrupts.tasks_halt] at ha
    exact ha

namespace History

/-- The tasks that a section queues: the one that it is there for, or that the running task
queues by its next call. -/
def queuedBy (h : History σ) : Event σ → List (ResumeTask σ)
  | .queue task => [task]
  | .task =>
      match h.running with
      | .queue task _ :: _ => [task]
      | _ => []
  | _ => []

theorem tasks_runTask (h : History σ) :
    h.runTask.interrupts.tasks = h.interrupts.tasks ++ h.queuedBy .task := by
  unfold runTask
  cases hr : h.running with
  | nil => simp [queuedBy, hr]
  | cons left rest =>
      cases left with
      | queue task next => simp [queuedBy, hr, Interrupts.addTask]
      | done | update _ _ | inspect _ => simp [queuedBy, hr]
      | request address next => simp [queuedBy, hr, request, Interrupts.tasks_request]
      | halt next => simp [queuedBy, hr, Interrupts.tasks_halt]

theorem tasks_step (h : History σ) {e : Event σ} (he : e ≠ .leaveHalt) :
    (h.step e).interrupts.tasks = h.interrupts.tasks ++ h.queuedBy e := by
  cases e with
  | leaveHalt => exact absurd rfl he
  | queue task => rfl
  | task => exact h.tasks_runTask
  | acknowledge => exact (List.append_nil _).symm
  | halt => exact h.interrupts.tasks_halt.trans (List.append_nil _).symm
  | request address => exact (h.interrupts.tasks_request address).trans (List.append_nil _).symm
  | advance => exact (h.producer.tasks_advance h.interrupts).trans (List.append_nil _).symm
  | take =>
      refine Eq.trans ?_ (List.append_nil _).symm
      simp only [step]
      split
      · rfl
      · rename_i ht
        exact Interrupts.tasks_take ht
  | enter address =>
      refine Eq.trans ?_ (List.append_nil _).symm
      simp only [step]
      split
      · split
        · rfl
        · rename_i he
          exact Producer.tasks_enter he
      · rfl

theorem running_step (h : History σ) {e : Event σ} (hl : e ≠ .leaveHalt) (ht : e ≠ .task) :
    (h.step e).running = h.running := by
  cases e with
  | leaveHalt => exact absurd rfl hl
  | task => exact absurd rfl ht
  | halt | acknowledge | queue _ | request _ | advance => rfl
  | take =>
      simp only [step]
      split <;> rfl
  | enter address =>
      simp only [step]
      split
      · split <;> rfl
      · rfl

/-- An address that is pending stays so until it is taken. -/
theorem Consistent.pending_step {h : History σ} (hc : h.Consistent) {address : Word}
    (hp : h.interrupts.pending = some address) {e : Event σ} (he : e ≠ .take) :
    (h.step e).interrupts.pending = some address := by
  have hf : h.interrupts.inFlight = true := by
    rw [hc.inFlight_eq, outstanding, hp]
    rfl
  have halted : h.interrupts.halt.pending = some address := by
    rw [Interrupts.halt]
    split <;> exact hp
  cases e with
  | take => exact absurd rfl he
  | halt => exact halted
  | acknowledge | leaveHalt | queue _ => exact hp
  | request a => simp [History.step, History.request, Interrupts.request, hf, hp]
  | enter a => simp [History.step, Producer.enter?, hf, hp]
  | advance =>
      cases hw : h.producer with
      | awaitingHalt a => simp [hc.pending_eq_none a hw] at hp
      | awaitingTaking _ | returned =>
          simp only [History.step, hw, Producer.advance]
          split <;> exact hp
  | task =>
      simp only [History.step, History.runTask]
      cases h.running with
      | nil => exact hp
      | cons left rest =>
          cases left with
          | done | update _ _ | inspect _ | queue _ _ => exact hp
          | halt next => exact halted
          | request a next => simp [History.request, Interrupts.request, hf, hp]

end History

/-- A history with the tasks that were queued, and those of them that resumes have taken. A
resume only begins when the one before has run all its tasks. -/
structure Agenda (σ : Type) where
  history : History σ
  /-- The resumes that have begun. -/
  resumes : Nat
  /-- The tasks by the time at which they were queued, with the resumes that had begun. -/
  queued : List (Nat × ResumeTask σ)
  /-- The tasks of the last resume that have not ended, with its number. -/
  underway : List (Nat × ResumeTask σ)
  /-- The tasks that have run, in this order, with the number of the resume that ran each. -/
  ended : List (Nat × ResumeTask σ)

namespace Agenda

def start (owner : σ) : Agenda σ :=
  ⟨.start owner, 0, [], [], []⟩

def follow (a : Agenda σ) (e : Event σ) : Agenda σ :=
  { a with
    history := a.history.step e
    queued := a.queued ++ (a.history.queuedBy e).map (a.resumes, ·) }

/-- The next resume takes the tasks from the queue. -/
def beginResume (a : Agenda σ) : Agenda σ :=
  { a with
    history := a.history.step .leaveHalt
    resumes := a.resumes + 1
    underway := a.underway ++ a.history.interrupts.tasks.map (a.resumes + 1, ·) }

/-- The running task ends. -/
def endTask (a : Agenda σ) : Agenda σ :=
  { a with
    history := a.history.step .task
    underway := a.underway.tail
    ended := a.ended ++ a.underway.take 1 }

def step (a : Agenda σ) : Event σ → Agenda σ
  | .leaveHalt =>
      match a.history.running with
      | [] => a.beginResume
      | _ :: _ => a
  | .task =>
      match a.history.running with
      | .done :: _ => a.endTask
      | _ => a.follow .task
  | e => a.follow e

def run (a : Agenda σ) (events : List (Event σ)) : Agenda σ :=
  events.foldl step a

/-- The books agree: every task that was queued has run, runs or waits, for the resume after
those that had begun, and in the order in which they were queued. -/
structure Exact (a : Agenda σ) : Prop where
  queued_eq : a.queued.map (fun (n, task) => (n + 1, task)) =
    a.ended ++ a.underway ++ a.history.interrupts.tasks.map (a.resumes + 1, ·)
  begun : Begun (a.underway.map Prod.snd) a.history.running
  resume_eq : ∀ x ∈ a.underway, x.1 = a.resumes
  consistent : a.history.Consistent

theorem exact_start (owner : σ) : (start owner).Exact where
  queued_eq := rfl
  begun := .none
  resume_eq _ hx := absurd hx List.not_mem_nil
  consistent := History.consistent_start owner

namespace Exact

variable {a : Agenda σ}

theorem underway_eq_nil (ha : a.Exact) (hr : a.history.running = []) : a.underway = [] :=
  List.map_eq_nil_iff.mp (hr ▸ ha.begun).eq_nil

theorem follow (ha : a.Exact) {e : Event σ} (he : e ≠ .leaveHalt)
    (hb : Begun (a.underway.map Prod.snd) (a.history.step e).running) : (a.follow e).Exact where
  queued_eq := by
    simp only [Agenda.follow, a.history.tasks_step he, List.map_append, ha.queued_eq,
      List.map_map, List.append_assoc]
    rfl
  begun := hb
  resume_eq := ha.resume_eq
  consistent := ha.consistent.step e

theorem underway_beginResume (ha : a.Exact) (hr : a.history.running = []) :
    a.beginResume.underway = a.history.interrupts.tasks.map (a.resumes + 1, ·) := by
  rw [Agenda.beginResume, ha.underway_eq_nil hr, List.nil_append]

theorem beginResume (ha : a.Exact) (hr : a.history.running = []) : a.beginResume.Exact where
  queued_eq := by
    have ht : (a.history.step .leaveHalt).interrupts.tasks = [] := rfl
    simp only [Agenda.beginResume, ha.queued_eq, ht, List.map_nil, List.append_nil,
      List.append_assoc]
  begun := by
    have hs : a.beginResume.history.running = a.history.interrupts.tasks := by
      simp [Agenda.beginResume, History.step, hr]
    rw [hs, ha.underway_beginResume hr, List.map_map]
    simpa only [Function.comp_def, List.map_id'] using Begun.refl a.history.interrupts.tasks
  resume_eq x hx := by
    rw [ha.underway_beginResume hr] at hx
    obtain ⟨task, -, rfl⟩ := List.mem_map.mp hx
    rfl
  consistent := ha.consistent.leaveHalt

theorem endTask (ha : a.Exact) {rest : List (ResumeTask σ)}
    (hr : a.history.running = .done :: rest) : a.endTask.Exact where
  queued_eq := by
    have hu : a.ended ++ a.underway.take 1 ++ a.underway.tail = a.ended ++ a.underway := by
      rw [List.append_assoc, ← List.drop_one, List.take_append_drop]
    have ht := a.history.tasks_step (e := .task) nofun
    simp only [Agenda.endTask, hu, ha.queued_eq, ht, History.queuedBy, hr, List.append_nil]
  begun := by
    have hb := ha.begun
    rw [hr] at hb
    have hs : a.endTask.history.running = rest := by
      simp [Agenda.endTask, History.step, History.runTask, hr]
    rw [hs, Agenda.endTask, List.map_tail]
    exact hb.tail
  resume_eq _ hx := ha.resume_eq _ (List.mem_of_mem_tail hx)
  consistent := ha.consistent.step .task

/-- A call of the running task, if it is not its end. -/
theorem begun_task (ha : a.Exact) (hd : ∀ rest, a.history.running ≠ .done :: rest) :
    Begun (a.underway.map Prod.snd) (a.history.step .task).running := by
  have hb := ha.begun
  simp only [History.step, History.runTask]
  cases hr : a.history.running with
  | nil => exact hb
  | cons left rest =>
      rw [hr] at hb
      cases left with
      | done => exact absurd hr (hd rest)
      | update change next => exact hb.next fun _ => .update
      | inspect next => exact hb.next fun _ => .inspect _ _ _
      | request address next => exact hb.next fun _ => .request _
      | halt next => exact hb.next fun _ => .halt
      | queue task next => exact hb.next fun _ => .queue

theorem step (ha : a.Exact) (e : Event σ) : (a.step e).Exact := by
  have other (hl : e ≠ .leaveHalt) (ht : e ≠ .task) : (a.follow e).Exact := by
    refine ha.follow hl ?_
    rw [a.history.running_step hl ht]
    exact ha.begun
  cases e with
  | halt | acknowledge | queue _ | request _ | take | enter _ | advance => exact other nofun nofun
  | leaveHalt =>
      simp only [Agenda.step]
      split
      · rename_i hr
        exact ha.beginResume hr
      · exact ha
  | task =>
      simp only [Agenda.step]
      split
      · rename_i hr
        exact ha.endTask hr
      · rename_i hd
        exact ha.follow nofun (ha.begun_task hd)

theorem run (ha : a.Exact) (events : List (Event σ)) : (a.run events).Exact := by
  induction events generalizing a with
  | nil => exact ha
  | cons e rest ih => exact ih (ha.step e)

theorem pending_step (ha : a.Exact) {address : Word}
    (hp : a.history.interrupts.pending = some address) {e : Event σ} (he : e ≠ .take) :
    (a.step e).history.interrupts.pending = some address := by
  have hs := ha.consistent.pending_step hp he
  cases e with
  | halt | acknowledge | queue _ | request _ | take | enter _ | advance => exact hs
  | leaveHalt =>
      simp only [Agenda.step]
      split
      · exact hs
      · exact hp
  | task =>
      simp only [Agenda.step]
      split <;> exact hs

theorem pending_run (ha : a.Exact) {address : Word}
    (hp : a.history.interrupts.pending = some address) {events : List (Event σ)}
    (he : .take ∉ events) : (a.run events).history.interrupts.pending = some address := by
  induction events generalizing a with
  | nil => exact hp
  | cons e rest ih =>
      rw [List.mem_cons, not_or] at he
      exact ih (ha.step e) (ha.pending_step hp (Ne.symm he.1)) he.2

theorem take?_of_pending (ha : a.Exact) {address : Word}
    (hp : a.history.interrupts.pending = some address) :
    a.history.interrupts.phase = .pending ∧
      a.history.interrupts.take?.map Prod.fst = some address := by
  refine ⟨ha.consistent.phase_eq_pending.mpr (by rw [hp]; rfl), ?_⟩
  rw [Interrupts.take?_of_pending hp]
  rfl

end Exact

theorem history_run_tasks (a : Agenda σ) (n : Nat) :
    (a.run (.replicate n .task)).history = a.history.runTasks n := by
  induction n generalizing a with
  | zero => rfl
  | succ n ih =>
      have hs : (a.step .task).history = a.history.step .task := by
        simp only [step]
        split <;> rfl
      rw [History.runTasks, ← hs]
      exact ih _

/-- A section that does not begin a resume neither takes tasks nor gives them back. -/
theorem taken_step (a : Agenda σ) {e : Event σ} (he : a.history.running = [] → e ≠ .leaveHalt) :
    (a.step e).ended ++ (a.step e).underway = a.ended ++ a.underway := by
  cases e with
  | halt | acknowledge | queue _ | request _ | take | enter _ | advance => rfl
  | leaveHalt =>
      simp only [step]
      split
      · rename_i hr
        exact absurd rfl (he hr)
      · rfl
  | task =>
      simp only [step]
      split
      · simp only [endTask]
        rw [List.append_assoc, ← List.drop_one, List.take_append_drop]
      · rfl

theorem taken_run_tasks (a : Agenda σ) (n : Nat) :
    (a.run (.replicate n .task)).ended ++ (a.run (.replicate n .task)).underway =
      a.ended ++ a.underway := by
  induction n generalizing a with
  | zero => rfl
  | succ n ih => exact (ih (a.step .task)).trans (a.taken_step nofun)

theorem running_step (a : Agenda σ) {e : Event σ} (hr : a.history.running ≠ []) (he : e ≠ .task) :
    (a.step e).history.running = a.history.running := by
  by_cases hl : e = .leaveHalt
  · subst hl
    simp only [step]
    split
    · rename_i h
      exact absurd h hr
    · rfl
  · rw [← a.history.running_step hl he]
    cases e with
    | leaveHalt => exact absurd rfl hl
    | task => exact absurd rfl he
    | halt | acknowledge | queue _ | request _ | take | enter _ | advance => rfl

theorem run_schedule (a : Agenda σ) (schedule : Nat → Event σ) (m n : Nat) :
    a.run ((List.range (m + n)).map schedule) =
      (a.run ((List.range m).map schedule)).run ((List.range n).map fun i => schedule (m + i)) := by
  rw [List.range_add, List.map_append, List.map_map, run, List.foldl_append]
  rfl

/-- Whatever comes in between, the tasks of the last resume come to their end as long as it
is their turn again and again. -/
def Ends (a : Agenda σ) : Prop :=
  ∀ schedule : Nat → Event σ, (∀ n, ∃ m, n ≤ m ∧ schedule m = .task) → ∃ n,
    let d := a.run ((List.range n).map schedule)
    d.history.running = [] ∧ d.ended ++ d.underway = a.ended ++ a.underway

/-- Until it is the turn of the running task, nothing happens to it. -/
theorem exists_turn (a : Agenda σ) (hr : a.history.running ≠ []) (schedule : Nat → Event σ)
    {m : Nat} (hm : schedule m = .task) : ∃ n,
    let d := a.run ((List.range n).map schedule)
    schedule n = .task ∧ d.history.running = a.history.running ∧
      d.ended ++ d.underway = a.ended ++ a.underway := by
  induction m generalizing a schedule with
  | zero => exact ⟨0, hm, rfl, rfl⟩
  | succ m ih =>
      by_cases h0 : schedule 0 = .task
      · exact ⟨0, h0, rfl, rfl⟩
      · have hs := a.running_step hr h0
        have ht := a.taken_step (e := schedule 0) fun h => absurd h hr
        obtain ⟨n, hn, hd, hk⟩ := ih (a.step (schedule 0)) (by rw [hs]; exact hr)
          (fun i => schedule (1 + i)) (by rw [Nat.add_comm]; exact hm)
        refine ⟨1 + n, hn, ?_⟩
        rw [run_schedule]
        exact ⟨hd.trans hs, hk.trans ht⟩

theorem Ends.of_step {a : Agenda σ} (hr : a.history.running ≠ [])
    (h : ∀ d : Agenda σ, d.history.running = a.history.running → (d.step .task).Ends) :
    a.Ends := by
  intro schedule hf
  obtain ⟨m, -, hm⟩ := hf 0
  obtain ⟨n, hn, hd, hk⟩ := a.exists_turn hr schedule hm
  have hs : a.run ((List.range (n + 1)).map schedule) =
      (a.run ((List.range n).map schedule)).step .task := by
    rw [run_schedule, ← hn]
    rfl
  have hf' (j : Nat) : ∃ m, j ≤ m ∧ schedule (n + 1 + m) = .task := by
    obtain ⟨m, hj, hm⟩ := hf (n + 1 + j)
    refine ⟨m - (n + 1), by omega, ?_⟩
    rw [Nat.add_sub_cancel' (by omega)]
    exact hm
  obtain ⟨k, hd', hk'⟩ := h _ hd (fun i => schedule (n + 1 + i)) hf'
  refine ⟨n + 1 + k, ?_⟩
  rw [run_schedule, hs]
  exact ⟨hd', hk'.trans ((taken_step (e := .task) _ nofun).trans hk)⟩

theorem ends (a : Agenda σ) : a.Ends := by
  -- on the tasks, and for the first of them on the calls that it has left
  induction hr : a.history.running generalizing a with
  | nil => exact fun schedule _ => ⟨0, hr, rfl⟩
  | cons left rest ih =>
      have hn : a.history.running ≠ [] := by simp [hr]
      induction left generalizing a with
      | done =>
          refine .of_step hn fun d hd => ih _ ?_
          simp [step, endTask, History.step, History.runTask, hd, hr]
      | update _ next iht | halt next iht | queue _ next _ iht =>
          refine .of_step hn fun d hd => iht _ ?_ ?_ <;>
            simp [step, follow, History.step, History.runTask, hd, hr]
      | inspect next iht =>
          refine .of_step hn fun d hd => iht d.history.owner d.history.interrupts.phase
            d.history.interrupts.inFlight _ ?_ ?_ <;>
            simp [step, follow, History.step, History.runTask, hd, hr]
      | request address next iht =>
          refine .of_step hn fun d hd => iht (d.history.request address).1 _ ?_ ?_ <;>
            simp [step, follow, History.step, History.runTask, hd, hr]

/-- A resume that nothing else comes between runs the tasks that it finds in the queue. -/
theorem Exact.exists_resume {a : Agenda σ} (ha : a.Exact) (hr : a.history.running = []) : ∃ n,
    let d := a.run (.leaveHalt :: .replicate n .task)
    (d.history.owner, d.history.interrupts) = a.history.interrupts.resume a.history.owner ∧
    d.underway = [] ∧ d.ended = a.ended ++ a.history.interrupts.tasks.map (a.resumes + 1, ·) := by
  obtain ⟨n, hn, ho⟩ := History.exists_runTasks_all a.history.interrupts.tasks
    (a.history.step .leaveHalt) (by simp [History.step, hr])
  have hs : a.step .leaveHalt = a.beginResume := by simp only [Agenda.step, hr]
  have hd : a.run (.leaveHalt :: .replicate n .task) =
      a.beginResume.run (.replicate n .task) := by
    rw [← hs]
    rfl
  have hh := a.beginResume.history_run_tasks n
  have hu := ((ha.beginResume hr).run (.replicate n .task)).underway_eq_nil (by rw [hh]; exact hn)
  have ht := a.beginResume.taken_run_tasks n
  rw [hu, List.append_nil, ha.underway_beginResume hr] at ht
  refine ⟨n, ?_⟩
  rw [hd]
  refine ⟨?_, hu, ht⟩
  rw [hh]
  exact ho

/-- Every task runs once, in the order of the queue and in the resume that begins first after
it was queued, which for a task that a running task queues is the one after its own. A request
that a task makes while none is in flight can be taken from then on, behind the resume as
well. -/
theorem tasks_run_once_in_order (owner : σ) (events : List (Event σ)) :
    let a := (start owner).run events
    let i := a.history.interrupts
    a.queued.map (fun (n, task) => (n + 1, task)) =
      a.ended ++ a.underway ++ i.tasks.map (a.resumes + 1, ·) ∧
    (∀ x ∈ a.underway, x.1 = a.resumes) ∧
    Begun (a.underway.map Prod.snd) a.history.running ∧
    (∀ schedule : Nat → Event σ, (∀ n, ∃ m, n ≤ m ∧ schedule m = .task) → ∃ n,
      let d := a.run ((List.range n).map schedule)
      d.underway = [] ∧ d.ended = a.ended ++ a.underway) ∧
    (a.history.running = [] → ∃ n,
      let d := a.run (.leaveHalt :: .replicate n .task)
      (d.history.owner, d.history.interrupts) = i.resume a.history.owner ∧
      d.underway = [] ∧ d.ended = a.ended ++ i.tasks.map (a.resumes + 1, ·)) ∧
    ∀ address next rest later, a.history.running = .request address next :: rest →
      i.inFlight = false → .take ∉ later →
      let j := (a.run (.task :: later)).history.interrupts
      j.phase = .pending ∧ j.take?.map Prod.fst = some address := by
  intro a i
  have ha : a.Exact := (exact_start owner).run events
  refine ⟨ha.queued_eq, ha.resume_eq, ha.begun, ?_, ha.exists_resume, ?_⟩
  · intro schedule hf
    obtain ⟨n, hr, hk⟩ := a.ends schedule hf
    have hu := (ha.run _).underway_eq_nil hr
    rw [hu, List.append_nil] at hk
    exact ⟨n, hu, hk⟩
  · intro address next rest later hr hf hl
    have hp : (a.step .task).history.interrupts.pending = some address := by
      have hf : a.history.interrupts.inFlight = false := hf
      simp [step, follow, History.step, History.runTask, History.request, Interrupts.request,
        Interrupts.makePending, hr, hf]
    exact ((ha.step .task).run later).take?_of_pending ((ha.step .task).pending_run hp hl)

/-- The first task queues a third one and then requests an interrupt, and the second one halts. -/
theorem request_outlasts_its_resume :
    let third : ResumeTask Unit := .done
    let rest : ResumeTask Unit := .request 0x40 fun _ => .done
    let first := ResumeTask.queue third rest
    let second : ResumeTask Unit := .halt .done
    let a := (start ()).run [.queue first, .queue second]
    let b := (start ()).run [.queue first, .queue second, .leaveHalt, .task]
    let turns : Nat → Event Unit := fun n => if n % 2 = 0 then .acknowledge else .task
    let later := [Event.task, .task, .task, .leaveHalt, .task, .halt]
    a.history.running = [] ∧
    (∃ n, let d := a.run (.leaveHalt :: .replicate n .task)
      d.underway = [] ∧ d.ended = [(1, first), (1, second)]) ∧
    b.queued = [(0, first), (0, second), (1, third)] ∧
    (∀ n, ∃ m, n ≤ m ∧ turns m = .task) ∧
    (∃ n, (b.run ((List.range n).map turns)).ended = [(1, first), (1, second)]) ∧
    b.history.running = [rest, second] ∧ b.history.interrupts.inFlight = false ∧
    .take ∉ later ∧
    (b.run (.task :: later)).ended = [(1, first), (1, second), (2, third)] ∧
    (b.run (.task :: later)).history.interrupts.phase = .pending ∧
    (b.run (.task :: later)).history.interrupts.take?.map Prod.fst = some 0x40 := by
  intro third rest first second a b turns later
  have hl : .take ∉ later := by simp [later]
  have hf (n : Nat) : ∃ m, n ≤ m ∧ turns m = .task := ⟨2 * n + 1, by omega, if_neg (by omega)⟩
  have hb : (start ()).run [.queue first, .queue second, .leaveHalt, .task] = b := rfl
  obtain ⟨-, -, -, -, hresume, -⟩ := tasks_run_once_in_order () [.queue first, .queue second]
  obtain ⟨-, -, -, hends, -, hrequest⟩ :=
    tasks_run_once_in_order () [.queue first, .queue second, .leaveHalt, .task]
  obtain ⟨n, -, hu, he⟩ := hresume rfl
  obtain ⟨k, -, hk⟩ := hends turns hf
  obtain ⟨hp, ht⟩ := hrequest 0x40 _ [second] later rfl rfl hl
  rw [hb] at hk hp ht
  exact ⟨rfl, ⟨n, hu, he⟩, rfl, hf, ⟨k, hk⟩, rfl, rfl, hl, rfl, hp, ht⟩

end Agenda
end Z80
