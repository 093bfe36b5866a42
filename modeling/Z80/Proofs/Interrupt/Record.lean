import Z80.Proofs.Interrupt.Licence

/-!
A record that lies in the state of a device: what a reaction makes of it is said of every
value that the reaction can end with, whatever the handshake answers; and a task spares it
if the task changes nothing of it and queues no task that does.
-/

namespace Z80

variable {σ α : Type}

namespace Reaction

/-- Every value in which the reaction can end has the property. -/
def Yields (P : α → Prop) : Reaction σ α → Prop
  | done value => P value
  | inspect next => ∀ phase inFlight, (next phase inFlight).Yields P
  | request _ next => ∀ accepted, (next accepted).Yields P
  | halt next | queue _ next => next.Yields P

theorem Yields.run {P : α → Prop} {r : Reaction σ α} (h : r.Yields P) (i : Interrupts σ) :
    P (r.run i).1 := by
  induction r generalizing i with
  | done value => exact h
  | inspect next ih => exact ih _ _ (h _ _) i
  | request address next ih => exact ih _ (h _) _
  | halt next ih => exact ih h _
  | queue task next ih => exact ih h _

end Reaction

namespace ResumeTask

/-- Neither the task nor any task that it queues changes that part of the state. -/
def Spares (f : σ → α) : ResumeTask σ → Prop
  | done => True
  | update change next => (∀ s, f (change s) = f s) ∧ next.Spares f
  | inspect next => ∀ s phase inFlight, (next s phase inFlight).Spares f
  | request _ next => ∀ accepted, (next accepted).Spares f
  | halt next => next.Spares f
  | queue task next => task.Spares f ∧ next.Spares f

variable {f : σ → α}

theorem Spares.run {t : ResumeTask σ} (h : t.Spares f) (s : σ) (i : Interrupts σ) :
    f (t.run s i).1 = f s := by
  induction t generalizing s i with
  | done => rfl
  | update change next ih => exact (ih h.2 _ i).trans (h.1 s)
  | inspect next ih => exact ih _ _ _ (h _ _ _) s i
  | request address next ih => exact ih _ (h _) s _
  | halt next ih => exact ih h s _
  | queue task next _ ih => exact ih h.2 s _

theorem spares_runAll {tasks : List (ResumeTask σ)} (h : ∀ t ∈ tasks, t.Spares f) (s : σ)
    (i : Interrupts σ) : f (runAll tasks s i).1 = f s := by
  induction tasks generalizing s i with
  | nil => rfl
  | cons t rest ih =>
      rw [List.forall_mem_cons] at h
      exact (ih h.2 _ _).trans (h.1.run s i)

theorem Spares.within {t : ResumeTask σ} (h : t.Spares f) :
    t.Within (.queueing (Spares f)) := by
  induction t with
  | done => trivial
  | update change next ih => exact ih h.2
  | inspect next ih => exact fun s phase inFlight => ih _ _ _ (h _ _ _)
  | request address next ih => exact ⟨trivial, fun accepted => ih _ (h _)⟩
  | halt next ih => exact ⟨trivial, ih h⟩
  | queue task next _ ih => exact ⟨h.1, ih h.2⟩

end ResumeTask
end Z80
