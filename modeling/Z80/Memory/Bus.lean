import Z80.Memory.Map

/-!
The bus joins a memory with an observer that is told of every write: once per
call, with the address and length of the whole access, whether or not a segment
accepted it.
-/

namespace Z80

class Observer (ω : Type) where
  written : ω → Word → Nat → ω

/-- Listeners that share a state, in the order in which they subscribed. -/
structure Listeners (σ : Type) where
  state : σ
  listeners : List (σ → Word → Nat → σ)

namespace Listeners

variable {σ : Type}

def subscribe (l : Listeners σ) (listener : σ → Word → Nat → σ) : Listeners σ :=
  { l with listeners := l.listeners ++ [listener] }

/-- Each listener is told once, the earliest first. -/
instance : Observer (Listeners σ) where
  written
    | ⟨state, listeners⟩, address, length =>
      ⟨listeners.foldl (fun s listener => listener s address length) state, listeners⟩

end Listeners

structure Bus (ω : Type) where
  memory : Memory
  observer : ω

namespace Bus

variable {ω : Type}

def readByte (b : Bus ω) (address : Word) : Byte :=
  b.memory.readByte address

def readWord (b : Bus ω) (address : Word) : Word :=
  b.memory.readWord address

variable [Observer ω]

def writeByte : Bus ω → Word → Byte → Bus ω
  | ⟨memory, observer⟩, address, value =>
    ⟨memory.writeByte address value, Observer.written observer address 1⟩

def writeWord : Bus ω → Word → Word → Bus ω
  | ⟨memory, observer⟩, address, value =>
    ⟨memory.writeWord address value, Observer.written observer address 2⟩

def writeBytes : Bus ω → Word → List Byte → Bus ω
  | ⟨memory, observer⟩, address, values =>
    ⟨memory.writeBytes address values, Observer.written observer address values.length⟩

def transfer (b : Bus ω) (source destination : Word) : Byte × Bus ω :=
  let value := b.readByte source
  (value, b.writeByte destination value)

end Bus
end Z80
