import Z80.Block
import Z80.Decode.Instruction

/-!
Builds a block by decoding until an exit or until the byte limit is reached.
-/

namespace Z80.Block

/-- A NOP needs no line. -/
def addLine (lines : Array Line) (op : Operation) (fetched : Nat) : Array Line :=
  match op with
  | .nop => lines
  | op => lines.push ⟨op, fetched⟩

def compileFrom (mode : Mode) (c : Cursor) (lines : Array Line) (cost : Cost) :
    Except DecodeFault Block :=
  match _ : c.instruction mode with
  | .error fault => .error fault
  | .ok (.exit e extra varies, d) =>
    .ok ⟨d.start, d.consumed, lines, some e, cost + extra, varies⟩
  | .ok (.operation op extra, d) =>
    let lines := addLine lines op d.consumed
    let cost := cost + extra
    if _ : d.limitReached then .ok ⟨d.start, d.consumed, lines, none, cost, false⟩
    else compileFrom mode d lines cost
termination_by Cursor.limit - c.consumed
decreasing_by
  have := Cursor.lt_consumed_of_instruction ‹c.instruction mode = _›
  simp only [Cursor.limitReached, decide_eq_true_eq] at *
  omega

/-- The block that starts at an address, or the first undefined opcode before its
end. -/
def compile (mode : Mode) (memory : Memory) (address : Word) : Except DecodeFault Block :=
  compileFrom mode (.begin memory address) #[] 0

end Z80.Block
