import Z80.Proofs.Interrupt.Interleaving

/-!
The calls on a handshake that a reaction or a task makes, as a list of sections in a history.
Which calls are made depends on what the handshake answers, so the list is computed along
with the run. No call takes an address.
-/

namespace Z80

variable {σ : Type}

/-- The handshake behind the taking of a request. -/
def Interrupts.taken (i : Interrupts σ) : Interrupts σ :=
  { i with pending := none, phase := .delivering, inFlight := false }

theorem Interrupts.take?_of_pending {i : Interrupts σ} {value : Word}
    (h : i.pending = some value) : i.take? = some (value, i.taken) :=
  congrArg (Option.map _) h

namespace Reaction

variable {α : Type}

def calls : Reaction σ α → Interrupts σ → List (Event σ)
  | done _, _ => []
  | inspect next, i => (next i.phase i.inFlight).calls i
  | request address next, i =>
      let (accepted, j) := i.request address
      .request address :: (next accepted).calls j
  | halt next, i => .halt :: next.calls i.halt
  | queue task next, i => .queue task :: next.calls (i.addTask task)

end Reaction

namespace ResumeTask

def calls : ResumeTask σ → σ → Interrupts σ → List (Event σ)
  | done, _, _ => []
  | update change next, s, i => next.calls (change s) i
  | inspect next, s, i => (next s i.phase i.inFlight).calls s i
  | request address next, s, i =>
      let (accepted, j) := i.request address
      .request address :: (next accepted).calls s j
  | halt next, s, i => .halt :: next.calls s i.halt
  | queue task next, s, i => .queue task :: next.calls s (i.addTask task)

/-- The calls of tasks that run one after the other. -/
def callsOfAll : List (ResumeTask σ) → σ → Interrupts σ → List (Event σ)
  | [], _, _ => []
  | task :: rest, s, i =>
      let (t, j) := task.run s i
      task.calls s i ++ callsOfAll rest t j

end ResumeTask

namespace History

theorem run_append (h : History σ) (first second : List (Event σ)) :
    h.run (first ++ second) = (h.run first).run second :=
  List.foldl_append ..

theorem interrupts_run_reaction {α : Type} (r : Reaction σ α) (h : History σ) :
    (h.run (r.calls h.interrupts)).interrupts = (r.run h.interrupts).2 := by
  induction r generalizing h with
  | done value => rfl
  | inspect next ih => exact ih _ _ h
  | request address next ih => exact ih _ (h.step (.request address))
  | halt next ih => exact ih (h.step .halt)
  | queue task next ih => exact ih (h.step (.queue task))

theorem interrupts_run_task (task : ResumeTask σ) (s : σ) (h : History σ) :
    (h.run (task.calls s h.interrupts)).interrupts = (task.run s h.interrupts).2 := by
  induction task generalizing s h with
  | done => rfl
  | update change next ih => exact ih _ h
  | inspect next ih => exact ih _ _ _ s h
  | request address next ih => exact ih _ s (h.step (.request address))
  | halt next ih => exact ih s (h.step .halt)
  | queue task next _ ih => exact ih s (h.step (.queue task))

theorem interrupts_run_tasks (tasks : List (ResumeTask σ)) (s : σ) (h : History σ) :
    (h.run (ResumeTask.callsOfAll tasks s h.interrupts)).interrupts =
      (ResumeTask.runAll tasks s h.interrupts).2 := by
  induction tasks generalizing s h with
  | nil => rfl
  | cons task rest ih =>
      have ht := interrupts_run_task task s h
      simp only [ResumeTask.callsOfAll, ResumeTask.runAll, run_append, ← ht]
      exact ih _ _

end History

theorem Reaction.isCall_calls {α : Type} (r : Reaction σ α) (i : Interrupts σ) :
    ∀ e ∈ r.calls i, e.isCall = true := by
  induction r generalizing i with
  | done value => exact fun _ h => absurd h List.not_mem_nil
  | inspect next ih => exact ih _ _ i
  | request address next ih => exact List.forall_mem_cons.mpr ⟨rfl, ih _ _⟩
  | halt next ih => exact List.forall_mem_cons.mpr ⟨rfl, ih _⟩
  | queue task next ih => exact List.forall_mem_cons.mpr ⟨rfl, ih _⟩

namespace ResumeTask

theorem isCall_calls (task : ResumeTask σ) (s : σ) (i : Interrupts σ) :
    ∀ e ∈ task.calls s i, e.isCall = true := by
  induction task generalizing s i with
  | done => exact fun _ h => absurd h List.not_mem_nil
  | update change next ih => exact ih _ i
  | inspect next ih => exact ih _ _ _ s i
  | request address next ih => exact List.forall_mem_cons.mpr ⟨rfl, ih _ s _⟩
  | halt next ih => exact List.forall_mem_cons.mpr ⟨rfl, ih s _⟩
  | queue task next _ ih => exact List.forall_mem_cons.mpr ⟨rfl, ih s _⟩

theorem isCall_callsOfAll (tasks : List (ResumeTask σ)) (s : σ) (i : Interrupts σ) :
    ∀ e ∈ callsOfAll tasks s i, e.isCall = true := by
  induction tasks generalizing s i with
  | nil => exact fun _ h => absurd h List.not_mem_nil
  | cons task rest ih =>
      exact List.forall_mem_append.mpr ⟨task.isCall_calls s i, ih _ _⟩

end ResumeTask

namespace History

variable {events : List (Event σ)}

theorem taken_run_of_calls (he : ∀ e ∈ events, e.isCall = true) (h : History σ) :
    (h.run events).taken = h.taken := by
  induction events generalizing h with
  | nil => rfl
  | cons e rest ih =>
      rw [List.forall_mem_cons] at he
      refine (ih he.2 (h.step e)).trans ?_
      cases e with
      | halt | queue _ | request _ => rfl
      | acknowledge | leaveHalt | take | task | enter _ | advance => cases he.1

/-- Calls among which there is no request and no halt leave the processor as it is. -/
theorem interrupts_run_of_queueing (he : ∀ e ∈ events, e.isCall = true)
    (hr : ∀ address, .request address ∉ events) (hh : .halt ∉ events) (h : History σ) :
    let i := (h.run events).interrupts
    i.phase = h.interrupts.phase ∧ i.inFlight = h.interrupts.inFlight ∧
      i.pending = h.interrupts.pending := by
  induction events generalizing h with
  | nil => exact ⟨rfl, rfl, rfl⟩
  | cons e rest ih =>
      rw [List.forall_mem_cons] at he
      rw [List.mem_cons, not_or] at hh
      have hr' (address : Word) : .request address ∉ rest :=
        fun hm => hr address (List.mem_cons_of_mem _ hm)
      cases e with
      | queue task => exact ih he.2 hr' hh.2 (h.step (.queue task))
      | halt => exact absurd rfl hh.1
      | request address => exact absurd List.mem_cons_self (hr address)
      | acknowledge | leaveHalt | take | task | enter _ | advance => cases he.1

end History
end Z80
