import Z80.Host
import Z80.Memory.Bus
import Z80.Operand

/-!
The state that instructions act on: registers, memory with its observer, the host
and the interrupt handshake that the host may reach.
-/

namespace Z80

structure Machine (ω η : Type) where
  registers : Registers
  bus : Bus ω
  host : η
  interrupts : Interrupts η

namespace Machine

variable {ω η : Type}

@[inline] def modifyRegisters (m : Machine ω η) (f : Registers → Registers) : Machine ω η :=
  { m with registers := f m.registers }

def setPC (m : Machine ω η) (address : Word) : Machine ω η :=
  m.modifyRegisters fun r => { r with pc := address }

def setFlags (m : Machine ω η) (f : Flags) : Machine ω η :=
  m.modifyRegisters (·.setFlags f)

def readByte (m : Machine ω η) (address : Word) : Byte :=
  m.bus.readByte address

def readWord (m : Machine ω η) (address : Word) : Word :=
  m.bus.readWord address

def read (m : Machine ω η) : Operand → Byte
  | .register reg => reg.read m.registers
  | .immediate value => value
  | operand =>
    match operand.address? m.registers with
    | some address => m.readByte address
    | none => 0xFF

def react (m : Machine ω η) (reaction : η → Reaction η) : Machine ω η :=
  match m with
  | ⟨registers, bus, host, interrupts⟩ =>
    let (host, interrupts) := (reaction host).run interrupts
    ⟨registers, bus, host, interrupts⟩

def readPort [Host η] (m : Machine ω η) (port context : Byte) : Byte × Machine ω η :=
  match m with
  | ⟨registers, bus, host, interrupts⟩ =>
    let ((value, host), interrupts) := (Host.readPort port context host).run interrupts
    (value, ⟨registers, bus, host, interrupts⟩)

def writePort [Host η] (m : Machine ω η) (port context value : Byte) : Machine ω η :=
  m.react (Host.writePort port context value)

variable [Observer ω]

def writeByte (m : Machine ω η) (address : Word) (value : Byte) : Machine ω η :=
  match m with
  | ⟨registers, bus, host, interrupts⟩ =>
    ⟨registers, bus.writeByte address value, host, interrupts⟩

def writeWord (m : Machine ω η) (address : Word) (value : Word) : Machine ω η :=
  match m with
  | ⟨registers, bus, host, interrupts⟩ =>
    ⟨registers, bus.writeWord address value, host, interrupts⟩

/-- Stores a byte in an operand; a write to an immediate is lost. -/
def write (m : Machine ω η) (operand : Operand) (value : Byte) : Machine ω η :=
  match operand with
  | .register reg => m.modifyRegisters (reg.write · value)
  | .immediate _ => m
  | operand =>
    match operand.address? m.registers with
    | some address => m.writeByte address value
    | none => m

def push (m : Machine ω η) (value : Word) : Machine ω η :=
  let sp := m.registers.sp - 2
  (m.modifyRegisters fun r => { r with sp := sp }).writeWord sp value

def pop (m : Machine ω η) : Word × Machine ω η :=
  let sp := m.registers.sp
  (m.readWord sp, m.modifyRegisters fun r => { r with sp := sp + 2 })

end Machine
end Z80
