import Z80.Proofs.Interrupt.History

/-!
What devices may do to the handshake. A licence says which calls a reaction or a task may
make; what each of the allowed calls keeps, the whole of it keeps. The fields of the
handshake stay tied to each other whatever is called, and while nothing is called but for
the queueing of tasks that keep quiet themselves, only the queue changes.
-/

namespace Z80

variable {σ : Type}

/-- The calls that may be made; looking at the handshake always may. -/
structure Licence (σ : Type) where
  request : Prop
  halt : Prop
  queue : ResumeTask σ → Prop

namespace Licence

/-- Any call, but of the tasks only these may be queued. -/
def queueing (T : ResumeTask σ → Prop) : Licence σ := ⟨True, True, T⟩

def withoutRequest : Licence σ := ⟨False, True, fun _ => True⟩

/-- Each of the allowed calls keeps the property. -/
structure Keeps (L : Licence σ) (I : Interrupts σ → Prop) : Prop where
  request : L.request → ∀ i, I i → ∀ address, I (i.request address).2
  halt : L.halt → ∀ i, I i → I i.halt
  queue : ∀ task, L.queue task → ∀ i, I i → I (i.addTask task)

end Licence

namespace Reaction

variable {α : Type}

def Within (L : Licence σ) : Reaction σ α → Prop
  | done _ => True
  | inspect next => ∀ phase inFlight, (next phase inFlight).Within L
  | request _ next => L.request ∧ ∀ accepted, (next accepted).Within L
  | halt next => L.halt ∧ next.Within L
  | queue task next => L.queue task ∧ next.Within L

theorem Within.keeps {L : Licence σ} {I : Interrupts σ → Prop} (hk : L.Keeps I)
    {r : Reaction σ α} (hr : r.Within L) {i : Interrupts σ} (h : I i) : I (r.run i).2 := by
  induction r generalizing i with
  | done value => exact h
  | inspect next ih => exact ih _ _ (hr _ _) h
  | request address next ih => exact ih _ (hr.2 _) (hk.request hr.1 i h address)
  | halt next ih => exact ih hr.2 (hk.halt hr.1 i h)
  | queue task next ih => exact ih hr.2 (hk.queue task hr.1 i h)

theorem within_any (r : Reaction σ α) : r.Within (.queueing fun _ => True) := by
  induction r with
  | done value => trivial
  | inspect next ih => exact fun phase inFlight => ih _ _
  | request address next ih => exact ⟨trivial, fun accepted => ih _⟩
  | halt next ih => exact ⟨trivial, ih⟩
  | queue task next ih => exact ⟨trivial, ih⟩

end Reaction

namespace ResumeTask

def Within (L : Licence σ) : ResumeTask σ → Prop
  | done => True
  | update _ next => next.Within L
  | inspect next => ∀ s phase inFlight, (next s phase inFlight).Within L
  | request _ next => L.request ∧ ∀ accepted, (next accepted).Within L
  | halt next => L.halt ∧ next.Within L
  | queue task next => L.queue task ∧ next.Within L

theorem Within.keeps {L : Licence σ} {I : Interrupts σ → Prop} (hk : L.Keeps I)
    {t : ResumeTask σ} (ht : t.Within L) (s : σ) {i : Interrupts σ} (h : I i) :
    I (t.run s i).2 := by
  induction t generalizing s i with
  | done => exact h
  | update change next ih => exact ih ht _ h
  | inspect next ih => exact ih _ _ _ (ht _ _ _) s h
  | request address next ih => exact ih _ (ht.2 _) s (hk.request ht.1 i h address)
  | halt next ih => exact ih ht.2 s (hk.halt ht.1 i h)
  | queue task next _ ih => exact ih ht.2 s (hk.queue task ht.1 i h)

theorem keeps_runAll {L : Licence σ} {I : Interrupts σ → Prop} (hk : L.Keeps I)
    {tasks : List (ResumeTask σ)} (ht : ∀ t ∈ tasks, t.Within L) (s : σ) {i : Interrupts σ}
    (h : I i) : I (runAll tasks s i).2 := by
  induction tasks generalizing s i with
  | nil => exact h
  | cons t rest ih =>
      rw [List.forall_mem_cons] at ht
      exact ih ht.2 _ (ht.1.keeps hk s h)

theorem within_any (t : ResumeTask σ) : t.Within (.queueing fun _ => True) := by
  induction t with
  | done => trivial
  | update change next ih => exact ih
  | inspect next ih => exact fun s phase inFlight => ih _ _ _
  | request address next ih => exact ⟨trivial, fun accepted => ih _⟩
  | halt next ih => exact ⟨trivial, ih⟩
  | queue task next _ ih => exact ⟨trivial, ih⟩

/-- Neither the task nor any task that it queues requests an interrupt or halts. -/
def Quiet : ResumeTask σ → Prop
  | done => True
  | update _ next => next.Quiet
  | inspect next => ∀ s phase inFlight, (next s phase inFlight).Quiet
  | request _ _ | halt _ => False
  | queue task next => task.Quiet ∧ next.Quiet

end ResumeTask

def Licence.quiet : Licence σ := ⟨False, False, ResumeTask.Quiet⟩

/-- Quiet tasks keep to every licence under which they may be queued. -/
theorem ResumeTask.Quiet.within {L : Licence σ}
    (hq : ∀ task : ResumeTask σ, task.Quiet → L.queue task) {t : ResumeTask σ} (h : t.Quiet) :
    t.Within L := by
  induction t with
  | done => trivial
  | update change next ih => exact ih h
  | inspect next ih => exact fun s phase inFlight => ih _ _ _ (h _ _ _)
  | request address next ih => exact h.elim
  | halt next ih => exact h.elim
  | queue task next _ ih => exact ⟨hq task h.1, ih h.2⟩

theorem Licence.keeps_quiet {I : Interrupts σ → Prop} (h : ∀ i, I i → ∀ task, I (i.addTask task)) :
    Licence.quiet.Keeps I :=
  ⟨fun hr => hr.elim, fun hh => hh.elim, fun task _ i hi => h i hi task⟩

/-- A history that goes on from a handshake and knows of no request but the one that is
still outstanding. -/
def History.recall (i : Interrupts σ) (owner : σ) (p : Producer) : History σ :=
  ⟨i, owner, [], p, (i.pending.or p.announced?).toList, []⟩

namespace Interrupts

/-- The fields are tied as they are in a history, beside a producer at that place. -/
def Tied (p : Producer) (i : Interrupts σ) : Prop :=
  ∃ h : History σ, h.Consistent ∧ h.interrupts = i ∧ h.producer = p

namespace Tied

variable {p : Producer} {i : Interrupts σ}

theorem idle (owner : σ) : Tied .returned (Interrupts.idle : Interrupts σ) :=
  ⟨_, History.consistent_start owner, rfl, rfl⟩

theorem consistent_recall (h : i.Tied p) (owner : σ) : (History.recall i owner p).Consistent := by
  obtain ⟨h, hc, rfl, rfl⟩ := h
  exact ⟨hc.phase_eq_pending, hc.inFlight_eq, hc.pending_eq_none, rfl⟩

/-- Whatever happens to a handshake, its fields stay tied. -/
theorem run (h : i.Tied p) (owner : σ) (events : List (Event σ)) :
    ((History.recall i owner p).run events).interrupts.Tied
      ((History.recall i owner p).run events).producer :=
  ⟨_, (h.consistent_recall owner).run events, rfl, rfl⟩

theorem phase_eq_pending (h : i.Tied p) : i.phase = .pending ↔ i.pending.isSome := by
  obtain ⟨h, hc, rfl, -⟩ := h
  exact hc.phase_eq_pending

theorem inFlight_eq (h : i.Tied .returned) : i.inFlight = i.pending.isSome := by
  obtain ⟨h, hc, rfl, hp⟩ := h
  simpa [History.outstanding, hp, Producer.announced?] using hc.inFlight_eq

theorem pending_eq_none (h : i.Tied p) (hf : i.inFlight = false) : i.pending = none := by
  obtain ⟨h, hc, rfl, -⟩ := h
  exact hc.pending_eq_none_of_idle hf

theorem halt (h : i.Tied p) : i.halt.Tied p := by
  obtain ⟨h, hc, rfl, rfl⟩ := h
  exact ⟨_, hc.halt, rfl, rfl⟩

theorem acknowledgeHalt (h : i.Tied p) : i.acknowledgeHalt.Tied p := by
  obtain ⟨h, hc, rfl, rfl⟩ := h
  exact ⟨_, hc.step .acknowledge, rfl, rfl⟩

theorem request (h : i.Tied p) (address : Word) : (i.request address).2.Tied p := by
  obtain ⟨h, hc, rfl, rfl⟩ := h
  exact ⟨_, hc.request address, rfl, rfl⟩

theorem addTask (h : i.Tied p) (task : ResumeTask σ) : (i.addTask task).Tied p := by
  obtain ⟨h, hc, rfl, rfl⟩ := h
  exact ⟨_, hc.step (.queue task), rfl, rfl⟩

theorem leaveHalt (h : i.Tied p) : i.leaveHalt.Tied p := by
  obtain ⟨h, hc, rfl, rfl⟩ := h
  exact ⟨_, hc.leaveHalt, rfl, rfl⟩

theorem take {j : Interrupts σ} {value : Word} (h : i.Tied p)
    (ht : i.take? = some (value, j)) : j.Tied p := by
  obtain ⟨h, hc, rfl, rfl⟩ := h
  refine ⟨h.step .take, hc.take, ?_, ?_⟩ <;> simp only [History.step, ht]

end Tied

/-- Of the tasks that may be queued only some are, and the fields are tied. -/
structure Orderly (T : ResumeTask σ → Prop) (p : Producer) (i : Interrupts σ) : Prop where
  tied : i.Tied p
  tasks : ∀ task ∈ i.tasks, T task

theorem tasks_request (i : Interrupts σ) (address : Word) :
    (i.request address).2.tasks = i.tasks := by
  simp only [request]
  split <;> rfl

theorem tasks_halt (i : Interrupts σ) : i.halt.tasks = i.tasks := by
  simp only [halt]
  split <;> rfl

theorem tasks_take {i j : Interrupts σ} {value : Word} (h : i.take? = some (value, j)) :
    j.tasks = i.tasks := by
  simp only [take?, Option.map_eq_some_iff, Prod.mk.injEq] at h
  obtain ⟨a, -, -, rfl⟩ := h
  rfl

theorem pending_take {i j : Interrupts σ} {value : Word} (h : i.take? = some (value, j)) :
    j.pending = none := by
  simp only [take?, Option.map_eq_some_iff, Prod.mk.injEq] at h
  obtain ⟨a, -, -, rfl⟩ := h
  rfl

namespace Orderly

variable {T : ResumeTask σ → Prop} {p : Producer} {i : Interrupts σ}

theorem halt (h : i.Orderly T p) : i.halt.Orderly T p :=
  ⟨h.tied.halt, by rw [tasks_halt]; exact h.tasks⟩

theorem acknowledgeHalt (h : i.Orderly T p) : i.acknowledgeHalt.Orderly T p :=
  ⟨h.tied.acknowledgeHalt, h.tasks⟩

theorem request (h : i.Orderly T p) (address : Word) : (i.request address).2.Orderly T p :=
  ⟨h.tied.request address, by rw [tasks_request]; exact h.tasks⟩

theorem take {j : Interrupts σ} {value : Word} (h : i.Orderly T p)
    (ht : i.take? = some (value, j)) : j.Orderly T p :=
  ⟨h.tied.take ht, by rw [tasks_take ht]; exact h.tasks⟩

theorem keeps (T : ResumeTask σ → Prop) (p : Producer) :
    (Licence.queueing T).Keeps (Orderly T p) where
  request _ _ h address := h.request address
  halt _ _ h := h.halt
  queue task ht i h := by
    refine ⟨h.tied.addTask task, ?_⟩
    intro t hm
    rw [addTask, List.mem_append, List.mem_singleton] at hm
    obtain hm | rfl := hm
    · exact h.tasks t hm
    · exact ht

theorem resume (hT : ∀ task, T task → task.Within (.queueing T)) (h : i.Orderly T p) (s : σ) :
    (i.resume s).2.Orderly T p :=
  ResumeTask.keeps_runAll (keeps T p) (fun t ht => hT t (h.tasks t ht)) s
    ⟨h.tied.leaveHalt, fun _ ht => absurd ht List.not_mem_nil⟩

end Orderly

/-- Quiet tasks leave the processor running. -/
theorem phase_resume {i : Interrupts σ} (hp : i.pending = none)
    (ht : ∀ task ∈ i.tasks, task.Quiet) (s : σ) : (i.resume s).2.phase = .running := by
  refine ResumeTask.keeps_runAll (I := fun j => j.phase = .running)
    (Licence.keeps_quiet fun _ hi _ => hi) (fun t hm => (ht t hm).within fun _ => id) s ?_
  simp [leaveHalt, hp]

end Interrupts
end Z80
