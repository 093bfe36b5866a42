import Z80.Execute
import Z80.Text.Hex

/-!
A block is the code from one address up to its first exit, decoded once so that
it can run any number of times. It moves PC and the refresh counter as a whole.
-/

namespace Z80

/-- An operation and the number of bytes of its block that are fetched once it
runs, itself included. -/
structure Line where
  operation : Operation
  fetched : Nat

structure Block where
  address : Word
  length : Nat
  lines : Array Line
  /-- None in a block that was cut at the byte limit. -/
  exit? : Option Exit
  /-- What every run costs at least. -/
  cost : Cost
  /-- True when a run may cost more. -/
  varies : Bool

namespace Block

/-- The address behind the block, where a run goes on unless the exit leads away. -/
def next (b : Block) : Word :=
  b.address + .ofNat b.length

/-- One past the last byte, above 0x10000 for a block that runs past the top of
memory. -/
def stop (b : Block) : Nat :=
  b.address.toNat + b.length

def halts (b : Block) : Bool :=
  b.exit? == some .halt

/-- True when a byte of the block is among `length` bytes from `address`. Both
ranges may go past the top of memory. -/
def overlaps (b : Block) (address : Word) (length : Nat) : Bool :=
  length != 0 &&
    ((address - b.address).toNat < b.length || (b.address - address).toNat < length)

/-- What a run is charged of the extra cost that its exit asks for. A block that does
not vary drops it. -/
def charged (b : Block) (extra : Cost) : Cost :=
  if b.varies then extra else 0

variable {ω η : Type} [Observer ω] [Host η]

def execute (b : Block) (m : Machine ω η) : Machine ω η × Cost :=
  let m := b.lines.foldl (fun m line => line.operation.execute line.fetched m) m
  let (m, extra) := match b.exit? with
    | some e => e.execute b.next m
    | none => (m.setPC b.next, 0)
  (m.modifyRegisters (·.refresh b.length), b.cost + b.charged extra)

def describe (b : Block) : String :=
  let timing := if b.varies then "Dynamic" else "Static"
  s!"CompiledBlock \x7b address: {Hex.address b.address.toNat}, length: {b.length}, " ++
    s!"timing: {timing}(InstructionTimings \x7b machine_cycles: {b.cost.machine}, " ++
    s!"clock_cycles: {b.cost.clock} \x7d), .. \x7d"

end Block
end Z80
