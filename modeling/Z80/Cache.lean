import Std.Data.TreeMap.Slice
import Std.Data.TreeSet
import Z80.Block
import Z80.Memory.Bus

/-!
The cache of blocks, by start address. A block stays until a write touches one of
the bytes it was decoded from. To find those blocks quickly the cache bounds their
length and keeps apart the ones that run past the top of memory.
-/

namespace Z80

namespace Cache

structure Stats where
  hits : Nat
  misses : Nat
  compilations : Nat
  /-- Blocks that were dropped because a write touched them. -/
  invalidations : Nat
  deriving DecidableEq

def Stats.hitRatio (s : Stats) : Float :=
  let total := s.hits + s.misses
  if total = 0 then 0 else s.hits.toFloat / total.toFloat

end Cache

structure Cache where
  blocks : Std.TreeMap Word Block
  /-- The start addresses of the blocks that stop above 0x10000. -/
  wrapping : Std.TreeSet Word
  /-- No cached block is longer. -/
  longest : Nat
  stats : Cache.Stats

namespace Cache

def empty : Cache := ⟨∅, ∅, 0, ⟨0, 0, 0, 0⟩⟩

def size (c : Cache) : Nat := c.blocks.size

def isEmpty (c : Cache) : Bool := c.blocks.isEmpty

/-- Looks a block up without counting. -/
def get? (c : Cache) (address : Word) : Option Block := c.blocks[address]?

def insert (c : Cache) (b : Block) : Cache :=
  match c with
  | ⟨blocks, wrapping, longest, stats⟩ =>
    { blocks := blocks.insert b.address b
      wrapping :=
        if b.stop > 0x10000 then wrapping.insert b.address else wrapping.erase b.address
      longest := max longest b.length
      stats := stats }

/-- The block at an address; on a miss it is compiled and stored. A failed
compilation stores nothing. -/
def getOrCompile {ε : Type} (c : Cache) (address : Word) (compile : Unit → Except ε Block) :
    Except ε Block × Cache :=
  match c.get? address with
  | some b => (.ok b, { c with stats.hits := c.stats.hits + 1 })
  | none =>
    let c := { c with stats.misses := c.stats.misses + 1 }
    match compile () with
    | .error e => (.error e, c)
    | .ok b => (.ok b, { c with stats.compilations := c.stats.compilations + 1 }.insert b)

def startsBetween (c : Cache) (low high : Word) : List Word :=
  c.blocks[low...=high].toList.map Prod.fst

/-- The start addresses of all blocks that can share a byte with `length` bytes
from `address`: those that start in the range or not further below it than a block
is long, and those that wrap. -/
def candidates (c : Cache) (address : Word) (length : Nat) : List Word :=
  let start := address.toNat
  let stop := start + min length 0x10000
  let lowest := start - min (c.longest - 1) start
  c.startsBetween (.ofNat lowest) (.ofNat (min stop 0x10000 - 1)) ++
    (if stop > 0x10000 then c.startsBetween 0 (.ofNat (stop - 0x10000 - 1)) else []) ++
    c.wrapping.toList

/-- Drops the block at a candidate address if it shares a byte with the range, and
counts it. -/
def dropTouched (address : Word) (length : Nat) : List Word → Nat × Cache → Nat × Cache
  | [], result => result
  | candidate :: rest, (removed, c) =>
    match c.get? candidate with
    | some b =>
      if b.overlaps address length then
        dropTouched address length rest (removed + 1,
          { c with blocks := c.blocks.erase candidate, wrapping := c.wrapping.erase candidate })
      else dropTouched address length rest (removed, c)
    | none => dropTouched address length rest (removed, c)

def invalidate (c : Cache) (address : Word) (length : Nat) : Nat × Cache :=
  if length = 0 ∨ c.isEmpty then (0, c)
  else
    let (removed, c) := dropTouched address length (c.candidates address length) (0, c)
    (removed, { c with stats.invalidations := c.stats.invalidations + removed })

/-- Drops all blocks, uncounted. -/
def clear (c : Cache) : Cache :=
  { c with blocks := ∅, wrapping := ∅, longest := 0 }

/-- Watching the bus keeps the cache coherent with memory. -/
instance : Observer Cache :=
  ⟨fun c address length => (c.invalidate address length).2⟩

end Cache
end Z80
