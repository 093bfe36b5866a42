import Z80.Block.Compile
import Z80.Cache
import Z80.Snapshot

/-!
A core joins a machine with a decoder for one processor, a clock and the sinks
that advance in step with it. Its bus is watched by the cache of blocks, so every
write invalidates what it touches, also the writes of the surroundings.
-/

namespace Z80

inductive Strategy where
  /-- Compile a block once and use it until a write touches it. -/
  | caching
  /-- Compile every block before each run. -/
  | uncached
  deriving DecidableEq

/-- A component that is told every cost; it may use the handshake. -/
abbrev Sink (η : Type) := Cost → η → Reaction η

structure Core (η : Type) where
  machine : Machine Cache η
  mode : Mode
  strategy : Strategy
  /-- In the order in which they are told. -/
  sinks : List (Sink η)
  /-- Clock cycles since the core was built. -/
  clock : Nat
  /-- The last step halted with interrupts disabled and no request in flight. -/
  parked : Bool

namespace Core

variable {η : Type} [Host η]

def new (mode : Mode) (strategy : Strategy) (start : Snapshot) (segments : List Segment)
    (host : η) : Except MapFault (Core η) := do
  let memory ← Memory.ofSegments segments
  return {
    machine := {
      registers := start.toRegisters mode.flagLayout
      bus := ⟨memory, .empty⟩
      host := Host.attach host
      interrupts := .idle }
    mode := mode
    strategy := strategy
    sinks := []
    clock := 0
    parked := false }

def registers (c : Core η) : Registers := c.machine.registers

def memory (c : Core η) : Memory := c.machine.bus.memory

def cache (c : Core η) : Cache := c.machine.bus.observer

def interrupts (c : Core η) : Interrupts η := c.machine.interrupts

def addSink (c : Core η) (sink : Sink η) : Core η :=
  { c with sinks := c.sinks ++ [sink] }

def modifyMachine (c : Core η) (f : Machine Cache η → Machine Cache η) : Core η :=
  match c with
  | ⟨machine, mode, strategy, sinks, clock, parked⟩ =>
    ⟨f machine, mode, strategy, sinks, clock, parked⟩

def modifyRegisters (c : Core η) (f : Registers → Registers) : Core η :=
  c.modifyMachine (·.modifyRegisters f)

def modifyBus (c : Core η) (f : Bus Cache → Bus Cache) : Core η :=
  c.modifyMachine fun
    | ⟨registers, bus, host, interrupts⟩ => ⟨registers, f bus, host, interrupts⟩

def modifyCache (c : Core η) (f : Cache → Cache) : Core η :=
  c.modifyBus fun
    | ⟨memory, cache⟩ => ⟨memory, f cache⟩

def modifyHost (c : Core η) (f : η → η) : Core η :=
  c.modifyMachine fun m => { m with host := f m.host }

def modifyInterrupts (c : Core η) (f : Interrupts η → Interrupts η) : Core η :=
  c.modifyMachine fun m => { m with interrupts := f m.interrupts }

def request (c : Core η) (address : Word) : Bool × Core η :=
  let (accepted, interrupts) := c.interrupts.request address
  (accepted, c.modifyInterrupts fun _ => interrupts)

/-- Leaves the halt in the handshake alone, without a word to the host. -/
def resumeInterrupts (c : Core η) : Core η :=
  c.modifyMachine fun m =>
    let (host, interrupts) := m.interrupts.resume m.host
    { m with host := host, interrupts := interrupts }

end Core
end Z80
