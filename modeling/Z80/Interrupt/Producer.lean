import Z80.Interrupt.Handshake

/-!
A producer delivers an address from outside the processor and waits until it is
taken: first for the processor to see the halt that it forces, then for its
address to go. Its position between two of its atomic sections is a value.
-/

namespace Z80

inductive Producer where
  | awaitingHalt (address : Word)
  | awaitingTaking (address : Word)
  | returned
  deriving DecidableEq

namespace Producer

variable {σ : Type}

/-- The condition of the wait at which the producer stands. -/
def mustWait : Producer → Interrupts σ → Bool
  | awaitingHalt _, i => !i.haltAcknowledged && i.phase == .halted
  | awaitingTaking address, i => i.pending == some address && i.inFlight
  | returned, _ => false

/-- What the producer does when it is scheduled: it checks its wait, and past the
first one it makes its address pending in the same atomic section. -/
def advance (p : Producer) (i : Interrupts σ) : Producer × Interrupts σ :=
  if p.mustWait i then (p, i)
  else match p with
    | awaitingHalt address => (awaitingTaking address, i.makePending address)
    | awaitingTaking _ | returned => (returned, i)

/-- A delivery begins unless another request is in flight. It halts a running
processor and goes on to its first wait. -/
def enter? (address : Word) (i : Interrupts σ) : Option (Producer × Interrupts σ) :=
  if i.inFlight then none
  else some ((awaitingHalt address).advance { i with inFlight := true }.halt)

end Producer
end Z80
