import Z80.Proofs.Interrupt.Calls

/-!
The producer behind the taking of its address. It tells that it was taken by the address that
is pending, which another request can have put there before the producer is scheduled. If that
is for another address the wait is over all the same; if it is for the same one, the producer
takes it for its own and waits for it to be taken, too.
-/

namespace Z80

variable {σ : Type}

/-- A section of the execution thread. The others are those of the producer. -/
def Event.isExecution : Event σ → Bool
  | halt | acknowledge | leaveHalt | queue _ | request _ | take | task => true
  | enter _ | advance => false

namespace History

variable {a : Word} {h g : History σ}

theorem step_take_of_pending (ha : h.interrupts.pending = some a) :
    h.step .take =
      { h with interrupts := h.interrupts.taken, taken := h.taken ++ [a] } := by
  simp only [step, Interrupts.take?_of_pending ha]

/-- What the handshake is like behind a taking while the producer of `a` is not scheduled: all
that was accepted since then was taken since then, but for the pending address. -/
structure BehindTaking (a : Word) (h g : History σ) : Prop where
  producer_eq : g.producer = .awaitingTaking a
  inFlight_eq : g.interrupts.inFlight = g.interrupts.pending.isSome
  exists_taken : ∃ taken, g.taken = h.taken ++ taken ∧
    g.accepted = h.accepted ++ taken ++ g.interrupts.pending.toList

namespace BehindTaking

theorem congr {k : History σ} (hg : BehindTaking a h g)
    (hp : k.interrupts.pending = g.interrupts.pending)
    (hf : k.interrupts.inFlight = g.interrupts.inFlight) (hr : k.producer = g.producer)
    (ha : k.accepted = g.accepted) (ht : k.taken = g.taken) : BehindTaking a h k := by
  refine ⟨hr.trans hg.producer_eq, ?_, ?_⟩
  · rw [hf, hp]
    exact hg.inFlight_eq
  · rw [ht, ha, hp]
    exact hg.exists_taken

theorem halt (hg : BehindTaking a h g) :
    BehindTaking a h { g with interrupts := g.interrupts.halt } := by
  by_cases hr : g.interrupts.phase = .running
  · apply hg.congr <;> simp [Interrupts.halt, hr]
  · simpa only [Interrupts.halt, if_neg hr] using hg

theorem request (hg : BehindTaking a h g) (address : Word) :
    BehindTaking a h (g.request address).2 := by
  cases hf : g.interrupts.inFlight with
  | true => simpa [History.request, Interrupts.request, hf] using hg
  | false =>
      obtain ⟨taken, ht, ha⟩ := hg.exists_taken
      have hn : g.interrupts.pending = none := by
        rw [← Option.isSome_eq_false_iff.trans Option.isNone_iff_eq_none, ← hg.inFlight_eq, hf]
      rw [hn, Option.toList_none, List.append_nil] at ha
      refine ⟨?_, ?_, taken, ?_, ?_⟩
      · exact hg.producer_eq
      · simp [History.request, Interrupts.request, Interrupts.makePending, hf]
      · exact ht
      · simp [History.request, Interrupts.request, Interrupts.makePending, hf, ha]

theorem take (hg : BehindTaking a h g) : BehindTaking a h (g.step .take) := by
  cases hp : g.interrupts.pending with
  | none => simpa [History.step, Interrupts.take?, hp] using hg
  | some address =>
      obtain ⟨taken, ht, ha⟩ := hg.exists_taken
      rw [hp, List.append_assoc] at ha
      rw [step_take_of_pending hp]
      refine ⟨hg.producer_eq, rfl, taken ++ [address], ?_, ?_⟩
      · rw [ht, List.append_assoc]
      · exact ha.trans (List.append_nil _).symm

theorem runTask (hg : BehindTaking a h g) : BehindTaking a h g.runTask := by
  unfold History.runTask
  split
  · exact hg
  · exact hg.congr rfl rfl rfl rfl rfl
  · exact hg.congr rfl rfl rfl rfl rfl
  · exact hg.congr rfl rfl rfl rfl rfl
  · exact (hg.request _).congr rfl rfl rfl rfl rfl
  · exact hg.halt.congr rfl rfl rfl rfl rfl
  · exact hg.congr rfl rfl rfl rfl rfl

theorem step (hg : BehindTaking a h g) {e : Event σ} (he : e.isExecution = true) :
    BehindTaking a h (g.step e) := by
  cases e with
  | halt => exact hg.halt
  | acknowledge | leaveHalt | queue _ => exact hg.congr rfl rfl rfl rfl rfl
  | request address => exact hg.request address
  | take => exact hg.take
  | task => exact hg.runTask
  | enter _ | advance => cases he

theorem run (hg : BehindTaking a h g) {events : List (Event σ)}
    (he : ∀ e ∈ events, e.isExecution = true) : BehindTaking a h (g.run events) := by
  induction events generalizing g with
  | nil => exact hg
  | cons e rest ih =>
      rw [List.forall_mem_cons] at he
      exact ih (hg.step he.1) he.2

theorem mustWait_iff (hg : BehindTaking a h g) :
    g.producer.mustWait g.interrupts = true ↔ g.interrupts.pending = some a := by
  rw [hg.producer_eq, Producer.mustWait, hg.inFlight_eq, Bool.and_eq_true, beq_iff_eq,
    and_iff_left_iff_imp]
  intro hp
  rw [hp]
  rfl

theorem advance (hg : BehindTaking a h g) (hn : g.interrupts.pending ≠ some a) :
    (g.step .advance).producer = .returned := by
  have hw : g.producer.mustWait g.interrupts = false :=
    Bool.eq_false_iff.mpr fun hw => hn (hg.mustWait_iff.mp hw)
  rw [hg.producer_eq] at hw
  simp [History.step, Producer.advance, hg.producer_eq, hw]

end BehindTaking

/-- A taking leaves nothing pending. -/
theorem behindTaking_step (hp : h.producer = .awaitingTaking a)
    (ha : h.interrupts.pending = some a) :
    (h.step .take).taken = h.taken ++ [a] ∧ (h.step .take).accepted = h.accepted ∧
      BehindTaking a (h.step .take) (h.step .take) := by
  rw [step_take_of_pending ha]
  refine ⟨rfl, rfl, hp, rfl, [], ?_, ?_⟩
  · exact (List.append_nil _).symm
  · simp [Interrupts.taken]

/-- Once its address was taken a producer only waits where the last request since then was
for the same address and has not been taken. Without one it returns when it is scheduled,
whatever the execution thread does before. -/
theorem taken_producer_waits_only_for_same_address (hp : h.producer = .awaitingTaking a)
    (ha : h.interrupts.pending = some a) (events : List (Event σ))
    (he : ∀ e ∈ events, e.isExecution = true) :
    let g := (h.step .take).run events
    g.producer = .awaitingTaking a ∧
    ∃ later, g.accepted = h.accepted ++ later ∧
      (g.producer.mustWait g.interrupts = true ↔
        ∃ taken, later = taken ++ [a] ∧ g.taken = h.taken ++ a :: taken) ∧
      (a ∉ later →
        g.producer.mustWait g.interrupts = false ∧ (g.step .advance).producer = .returned) := by
  intro g
  obtain ⟨ht, hc, hb⟩ := behindTaking_step hp ha
  have hg : BehindTaking a (h.step .take) g := hb.run he
  obtain ⟨taken, hgt, hga⟩ := hg.exists_taken
  rw [ht, List.append_assoc, List.singleton_append] at hgt
  rw [hc, List.append_assoc] at hga
  refine ⟨hg.producer_eq, taken ++ g.interrupts.pending.toList, hga, ?_, ?_⟩
  · rw [hg.mustWait_iff]
    constructor
    · intro hpa
      exact ⟨taken, by rw [hpa]; rfl, hgt⟩
    · rintro ⟨other, ho, hto⟩
      obtain rfl : taken = other := by simpa [hgt] using hto
      simpa using List.append_cancel_left ho
  · intro hn
    have hpa : g.interrupts.pending ≠ some a := fun hpa => hn (by simp [hpa])
    exact ⟨Bool.eq_false_iff.mpr fun hw => hpa (hg.mustWait_iff.mp hw), hg.advance hpa⟩

/-- A resume, a halt and a request for another address do not hold the producer up. -/
theorem producer_returns_beside_other_request :
    let h := (start ()).run [.enter 0x38, .acknowledge, .advance]
    let events := [Event.leaveHalt, .halt, .request 0x40]
    let g := (h.step .take).run events
    h.producer = .awaitingTaking 0x38 ∧ h.interrupts.pending = some 0x38 ∧
      (∀ e ∈ events, e.isExecution = true) ∧ g.interrupts.pending = some 0x40 ∧
      (g.step .advance).producer = .returned := by
  intro h events g
  have he : ∀ e ∈ events, e.isExecution = true := by simp [events, Event.isExecution]
  obtain ⟨-, later, hl, -, hr⟩ :=
    taken_producer_waits_only_for_same_address (h := h) (a := 0x38) rfl rfl events he
  have hl : [0x38, 0x40] = [0x38] ++ later := hl
  obtain rfl : [0x40] = later := (List.cons.inj hl).2
  exact ⟨rfl, rfl, he, rfl, (hr (by decide)).2⟩

/-- A request for the same address does, although the address of the producer was taken. -/
theorem producer_waits_for_request_of_same_address :
    let h := (start ()).run [.enter 0x38, .acknowledge, .advance]
    let g := (h.step .take).run [.leaveHalt, .request 0x38]
    h.producer = .awaitingTaking 0x38 ∧ h.interrupts.pending = some 0x38 ∧ g.taken = [0x38] ∧
      g.producer.mustWait g.interrupts = true ∧
      (g.step .advance).producer = .awaitingTaking 0x38 :=
  ⟨rfl, rfl, rfl, rfl, rfl⟩

end History
end Z80
