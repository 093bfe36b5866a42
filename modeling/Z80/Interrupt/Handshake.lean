import Z80.Word

/-!
The handshake between the processor and the sources of interrupts. At most one
request is in flight: from its acceptance until the processor takes its address,
and every request made meanwhile is refused. Tasks queued for the next resume
run when the processor leaves the halt.
-/

namespace Z80

inductive Phase where
  | running
  | halted
  /-- An address waits for the processor. -/
  | pending
  /-- The processor has taken the address and has not resumed yet. -/
  | delivering
  deriving DecidableEq

/-- A task for the next resume. It may look at and change the state `σ` of its owner,
look at the handshake, request interrupts, halt the processor and queue further
tasks. -/
inductive ResumeTask (σ : Type) where
  | done
  | update (change : σ → σ) (next : ResumeTask σ)
  | inspect (next : σ → Phase → Bool → ResumeTask σ)
  | request (address : Word) (next : Bool → ResumeTask σ)
  | halt (next : ResumeTask σ)
  | queue (task : ResumeTask σ) (next : ResumeTask σ)

/-- What a device with the state `σ` answers the processor with: a value, after any
number of calls on the handshake. It may look at the phase and at whether a request
is in flight, request interrupts, of which each learns whether it was accepted, halt
the processor and queue tasks for the next resume. -/
inductive Reaction (σ : Type) (α : Type := σ) where
  | done (value : α)
  | inspect (next : Phase → Bool → Reaction σ α)
  | request (address : Word) (next : Bool → Reaction σ α)
  | halt (next : Reaction σ α)
  | queue (task : ResumeTask σ) (next : Reaction σ α)

structure Interrupts (σ : Type) where
  phase : Phase
  haltAcknowledged : Bool
  inFlight : Bool
  pending : Option Word
  /-- In the order in which they were queued. -/
  tasks : List (ResumeTask σ)

namespace Interrupts

variable {σ : Type}

def idle : Interrupts σ :=
  ⟨.running, false, false, none, []⟩

/-- From a halt, the processor's own or a forced one, until the next resume. -/
def isHalted (i : Interrupts σ) : Bool :=
  i.phase != .running

/-- Only a new request can end such a halt. -/
def isHaltedWithoutRequest (i : Interrupts σ) : Bool :=
  i.isHalted && !i.inFlight

def halt (i : Interrupts σ) : Interrupts σ :=
  if i.phase = .running then { i with phase := .halted, haltAcknowledged := false } else i

def acknowledgeHalt (i : Interrupts σ) : Interrupts σ :=
  { i with haltAcknowledged := true }

/-- Makes the address pending, whatever the processor does. -/
def makePending (i : Interrupts σ) (address : Word) : Interrupts σ :=
  { i with pending := some address, phase := .pending }

/-- Queues a request without waiting. It is refused while another is in flight. -/
def request (i : Interrupts σ) (address : Word) : Bool × Interrupts σ :=
  if i.inFlight then (false, i)
  else (true, { i with inFlight := true }.makePending address)

/-- Takes the pending address; without one the processor has to wait. -/
def take? (i : Interrupts σ) : Option (Word × Interrupts σ) :=
  i.pending.map fun address =>
    (address, { i with pending := none, phase := .delivering, inFlight := false })

def addTask (i : Interrupts σ) (task : ResumeTask σ) : Interrupts σ :=
  { i with tasks := i.tasks ++ [task] }

end Interrupts

namespace Reaction

variable {α σ : Type}

def run : Reaction σ α → Interrupts σ → α × Interrupts σ
  | done value, i => (value, i)
  | inspect next, i => (next i.phase i.inFlight).run i
  | request address next, i =>
    let (accepted, i) := i.request address
    (next accepted).run i
  | halt next, i => next.run i.halt
  | queue task next, i => next.run (i.addTask task)

end Reaction

namespace ResumeTask

variable {σ : Type}

def run : ResumeTask σ → σ → Interrupts σ → σ × Interrupts σ
  | done, s, i => (s, i)
  | update change next, s, i => next.run (change s) i
  | inspect next, s, i => (next s i.phase i.inFlight).run s i
  | request address next, s, i =>
    let (accepted, i) := i.request address
    (next accepted).run s i
  | halt next, s, i => next.run s i.halt
  | queue task next, s, i => next.run s (i.addTask task)

def runAll : List (ResumeTask σ) → σ → Interrupts σ → σ × Interrupts σ
  | [], s, i => (s, i)
  | task :: rest, s, i =>
    let (s, i) := task.run s i
    runAll rest s i

end ResumeTask

namespace Interrupts

variable {σ : Type}

/-- Leaves the halt and empties the queue of tasks. A request that arrived after the
address was taken stays pending. -/
def leaveHalt (i : Interrupts σ) : Interrupts σ :=
  { i with
    phase := if i.pending.isSome then .pending else .running
    haltAcknowledged := false
    tasks := [] }

def resume (i : Interrupts σ) (s : σ) : σ × Interrupts σ :=
  ResumeTask.runAll i.tasks s i.leaveHalt

end Interrupts
end Z80
