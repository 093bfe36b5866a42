import Z80.Flags

/-!
Flags after one round of a block instruction. The undocumented ones come from a
sum or difference that the instruction never stores.
-/

namespace Z80.Alu

/-- Bit 1 of the byte stands for flag 5 here, not bit 5. -/
def withBlockUndocumented (f : Flags) (n : Byte) : Flags :=
  { f with five := n &&& 0x02 != 0, three := n &&& 0x08 != 0 }

/-- After a byte was copied; `remaining` is BC after the decrement. -/
def blockTransfer (f : Flags) (a value : Byte) (remaining : Word) : Flags :=
  { withBlockUndocumented f (value + a) with
    halfCarry := false
    subtract := false
    parityOverflow := remaining != 0 }

/-- After A was compared with a byte; the carry is not affected. -/
def blockCompare (f : Flags) (a value : Byte) (remaining : Word) : Flags :=
  let difference := a - value
  let half := a.toNat % 16 < value.toNat % 16
  { withBlockUndocumented f (difference - if half then 1 else 0) with
    sign := isNegative difference
    zero := difference == 0
    halfCarry := half
    subtract := true
    parityOverflow := remaining != 0 }

/-- After a port transfer; `counter` is B after the decrement. -/
def blockPort (f : Flags) (counter : Byte) : Flags :=
  { f.withResult counter with subtract := true }

end Z80.Alu
