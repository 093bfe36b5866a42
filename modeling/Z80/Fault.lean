import Z80.Word
import Z80.Text.Hex

/-!
What can go wrong: a list of segments that does not tile the address space, and
an opcode that no table defines. Each kind has one message.
-/

namespace Z80

/-- Ranges run from `start` up to but not including `stop`. -/
inductive MapFault where
  | noSegments
  | zeroLength (base : Word)
  | outOfRange (base : Word) (length : Nat)
  | gap (start stop : Nat)
  | overlap (start stop : Nat)
  deriving DecidableEq

def MapFault.message : MapFault → String
  | noSegments => "no address segments were supplied"
  | zeroLength base => s!"address segment at {Hex.address base.toNat} has zero length"
  | outOfRange base length =>
    s!"address segment at {Hex.address base.toNat} with length {Hex.number 1 length} " ++
      "runs past the end of the address space"
  | gap start stop =>
    s!"address segments leave a gap at [{Hex.address start}, {Hex.address stop})"
  | overlap start stop =>
    s!"address segments overlap at [{Hex.address start}, {Hex.address stop})"

/-- The opcode tables, named by the bytes that lead to them. -/
inductive OpcodeTable where
  | primary | cb | ed | dd | fd | ddcb | fdcb
  deriving DecidableEq

def OpcodeTable.name : OpcodeTable → String
  | primary => "primary"
  | cb => "CB"
  | ed => "ED"
  | dd => "DD"
  | fd => "FD"
  | ddcb => "DDCB"
  | fdcb => "FDCB"

/-- An undefined opcode. The address is that of the first byte of its
instruction; skipping bytes instead would lose the instruction boundaries. -/
structure DecodeFault where
  table : OpcodeTable
  opcode : Byte
  address : Word
  deriving DecidableEq

def DecodeFault.message (f : DecodeFault) : String :=
  s!"unsupported {f.table.name} opcode {Hex.number 2 f.opcode.toNat} at " ++
    Hex.address f.address.toNat

end Z80
