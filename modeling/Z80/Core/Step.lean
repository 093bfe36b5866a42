import Z80.Core.Basic
import Z80.Interrupt.Producer

/-!
One step of a core runs the block at PC or, in a halt, services the handshake. A
halted core waits for a request unless interrupts are disabled and none is in
flight; a request taken while interrupts are disabled is spent without effect.
-/

namespace Z80.Core

variable {η : Type} [Host η]

/-- How a step ends. A core that has to wait for a request has acknowledged its
halt. -/
inductive Step (η : Type) where
  | ran (cost : Cost) (core : Core η)
  | fault (fault : DecodeFault) (core : Core η)
  | waiting (core : Core η)

/-- Tells every sink in order and moves the clock. No time, no call. -/
def advance (c : Core η) (cost : Cost) : Core η :=
  if cost.isZero then c
  else match c with
    | ⟨machine, mode, strategy, sinks, clock, parked⟩ =>
      ⟨sinks.foldl (fun m sink => m.react (sink cost)) machine,
        mode, strategy, sinks, clock + cost.clock, parked⟩

def acceptCost : Mode → InterruptMode → Cost
  | .gameBoy, _ => ⟨5, 20⟩
  | .z80, .im0 | .z80, .im1 => ⟨3, 13⟩
  | .z80, .im2 => ⟨5, 19⟩

/-- Where an accepted value leads: the Game Boy takes it as an address; the Z80 as
a restart instruction, not at all, or as the low half of a vector's address. -/
def acceptTarget (mode : Mode) (m : Machine Cache η) (value : Word) : Word :=
  match mode, m.registers.interruptMode with
  | .gameBoy, _ => value
  | .z80, .im0 => value &&& 0x38
  | .z80, .im1 => 0x0038
  | .z80, .im2 => m.readWord (.ofBytes (Word.low value &&& 0xFE) m.registers.i)

/-- Calls the interrupt routine: interrupts are disabled and PC is pushed. A vector
is read after the push. -/
def accept (c : Core η) (value : Word) : Core η :=
  let mode := c.mode
  c.modifyMachine fun m =>
    let m := m.modifyRegisters fun r => { r with iff1 := false, iff2 := false }
    let pc := m.registers.pc
    let m := m.push pc
    let target := acceptTarget mode m value
    m.setPC target

def leaveHalt (c : Core η) (cost : Cost) : Core η :=
  (c.resumeInterrupts.modifyMachine (·.react Host.resumed)).advance cost

/-- Services the halt, where `take` finds the address to service. -/
def waitWith (take : Interrupts η → Option (Word × Interrupts η)) (c : Core η) : Step η :=
  let c := { c with parked := false }.modifyInterrupts (·.acknowledgeHalt)
  if !c.registers.iff1 && !c.interrupts.inFlight then .ran 0 (c.leaveHalt 0)
  else match take c.interrupts with
    | none => .waiting c
    | some (value, interrupts) =>
      let c := c.modifyInterrupts fun _ => interrupts
      if c.registers.iff1 then
        let cost := acceptCost c.mode c.registers.interruptMode
        .ran cost ((c.accept value).leaveHalt cost)
      else .ran 0 (c.leaveHalt 0)

def waitForInterrupt (c : Core η) : Step η :=
  c.waitWith Interrupts.take?

def enterHalt (c : Core η) : Core η :=
  let c := (c.modifyInterrupts (·.halt)).modifyMachine (·.react Host.halted)
  { c with parked := !c.registers.iff1 && !c.interrupts.inFlight }

def fetch (c : Core η) : Except DecodeFault Block × Core η :=
  let address := c.registers.pc
  match c with
  | ⟨⟨registers, ⟨memory, cache⟩, host, interrupts⟩, mode, strategy, sinks, clock, parked⟩ =>
    let (block, cache) := match strategy with
      | .caching => cache.getOrCompile address fun _ => Block.compile mode memory address
      | .uncached => (Block.compile mode memory address, cache)
    (block, ⟨⟨registers, ⟨memory, cache⟩, host, interrupts⟩,
      mode, strategy, sinks, clock, parked⟩)

def runBlock (c : Core η) (b : Block) : Step η :=
  match c with
  | ⟨machine, mode, strategy, sinks, clock, parked⟩ =>
    let (machine, cost) := b.execute machine
    let c : Core η := ⟨machine, mode, strategy, sinks, clock, parked⟩
    let c := if b.halts then c.enterHalt else c
    .ran cost (c.advance cost)

def stepWith (take : Interrupts η → Option (Word × Interrupts η)) (c : Core η) : Step η :=
  if c.interrupts.isHalted then c.waitWith take
  else match c.fetch with
    | (.error fault, c) => .fault fault c
    | (.ok b, c) => c.runBlock b

def step (c : Core η) : Step η :=
  c.stepWith Interrupts.take?

/-- One step beside a producer that delivers an address and is scheduled whenever
the core would wait. None if another request is in flight, which refuses the
delivery. -/
def deliver (c : Core η) (address : Word) : Option (Step η) :=
  (Producer.enter? address c.interrupts).map fun (producer, interrupts) =>
    (c.modifyInterrupts fun _ => interrupts).stepWith fun i => (producer.advance i).2.take?

end Z80.Core
