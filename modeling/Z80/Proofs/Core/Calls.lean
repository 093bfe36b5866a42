import Z80.Core.Run

/-!
What the surroundings can do with a core, and what they see of it: the answers to their
calls, and after each call everything but the cache.
-/

namespace Z80

inductive Call where
  | step
  | runFor (cycles : Nat)
  /-- Runs until the clock reaches `target`, for at most `steps`. -/
  | runUntil (target steps : Nat)
  | writeByte (address : Word) (value : Byte)
  | writeWord (address value : Word)
  | writeBytes (address : Word) (values : List Byte)
  | transfer (source destination : Word)
  | request (address : Word)
  | invalidate (address : Word) (length : Nat)
  | clear
  | modifyRegisters (f : Registers → Registers)

inductive Answer where
  | ran (cost : Cost)
  | fault (fault : DecodeFault)
  | waiting
  | stopped (reason : StopReason)
  | exhausted
  | byte (value : Byte)
  | accepted (accepted : Bool)
  | done

namespace Core

variable {η : Type}

structure View (η : Type) where
  registers : Registers
  memory : Memory
  host : η
  interrupts : Interrupts η
  clock : Nat
  parked : Bool

def view (c : Core η) : View η :=
  ⟨c.registers, c.memory, c.machine.host, c.interrupts, c.clock, c.parked⟩

def Step.answer : Step η → Answer × Core η
  | .ran cost c => (.ran cost, c)
  | .fault f c => (.fault f, c)
  | .waiting c => (.waiting, c)

def Run.answer : Run η → Answer × Core η
  | .stopped reason c => (.stopped reason, c)
  | .fault f c => (.fault f, c)
  | .waiting c => (.waiting, c)
  | .exhausted c => (.exhausted, c)

variable [Host η]

def call (c : Core η) : Call → Answer × Core η
  | .step => c.step.answer
  | .runFor cycles => (c.runFor cycles).answer
  | .runUntil target steps => (c.runUntil target steps).answer
  | .writeByte address value => (.done, c.modifyBus (·.writeByte address value))
  | .writeWord address value => (.done, c.modifyBus (·.writeWord address value))
  | .writeBytes address values => (.done, c.modifyBus (·.writeBytes address values))
  | .transfer source destination =>
      let value := (c.machine.bus.transfer source destination).1
      (.byte value, c.modifyBus fun b => (b.transfer source destination).2)
  | .request address =>
      let (accepted, c) := c.request address
      (.accepted accepted, c)
  | .invalidate address length => (.done, c.modifyCache fun k => (k.invalidate address length).2)
  | .clear => (.done, c.modifyCache (·.clear))
  | .modifyRegisters f => (.done, c.modifyRegisters f)

def trace (c : Core η) : List Call → List (Answer × View η)
  | [] => []
  | call :: rest =>
      let (answer, c) := c.call call
      (answer, c.view) :: c.trace rest

end Core
end Z80
