import Z80.Core.Step

/-!
Runs of many steps: for a number of clock cycles, or until an undefined opcode.
-/

namespace Z80

inductive StopReason where
  | cycleBudget
  /-- Halted with interrupts disabled and nothing in flight: nothing can wake the
  processor. -/
  | haltedWithInterruptsDisabled
  /-- Halted with interrupts enabled and no request: the next step would wait. -/
  | haltedAwaitingInterrupt
  deriving DecidableEq

namespace Core

variable {η : Type} [Host η]

/-- How a run ends. A run is exhausted when its steps are used up, which a run for
a number of cycles only is if the host keeps it busy without time passing. -/
inductive Run (η : Type) where
  | stopped (reason : StopReason) (core : Core η)
  | fault (fault : DecodeFault) (core : Core η)
  | waiting (core : Core η)
  | exhausted (core : Core η)

def runUntil (target : Nat) : (steps : Nat) → Core η → Run η
  | 0, c => .exhausted c
  | steps + 1, c =>
    if target ≤ c.clock then .stopped .cycleBudget c
    else if c.registers.iff1 && c.interrupts.isHaltedWithoutRequest then
      .stopped .haltedAwaitingInterrupt c
    else match c.step with
      | .fault fault c => .fault fault c
      | .waiting c => .waiting c
      | .ran _ c =>
        if c.parked then .stopped .haltedWithInterruptsDisabled c
        else runUntil target steps c

/-- Every block takes at least four cycles. Steps without a cost only service a halt
while interrupts are disabled, and so many of them in one run take tasks or a host
that request again at every resume. -/
def idleSteps : Nat := 0x100000000

def runFor (c : Core η) (cycles : Nat) : Run η :=
  c.runUntil (c.clock + cycles) (cycles + idleSteps)

def run : (steps : Nat) → Core η → Run η
  | 0, c => .exhausted c
  | steps + 1, c =>
    match c.step with
    | .fault fault c => .fault fault c
    | .waiting c => .waiting c
    | .ran _ c => run steps c

end Core
end Z80
