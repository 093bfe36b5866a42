import Z80.Flags

/-!
Decimal adjustment: after an addition or subtraction of packed decimal bytes it
brings A back to two decimal digits. The correction is six for the low digit and
sixty (hexadecimal) for the high one.
-/

namespace Z80.Alu

/-- Each digit is corrected when it overflowed into its carry or is no decimal
digit any more, in both directions. -/
def decimalAdjust (f : Flags) (a : Byte) : Byte × Flags :=
  let low := f.halfCarry || a.toNat % 16 > 9
  let high := f.carry || a.toNat > 0x99
  let correction : Byte := (if low then 0x06 else 0) + (if high then 0x60 else 0)
  let result := if f.subtract then a - correction else a + correction
  let halfCarry :=
    if f.subtract then f.halfCarry && a.toNat % 16 < 6 else a.toNat % 16 > 9
  (result, { f.withParity result with halfCarry := halfCarry, carry := high })

/-- The digits themselves are looked at only after an addition, and the half
carry always ends clear. -/
def decimalAdjustGameBoy (f : Flags) (a : Byte) : Byte × Flags :=
  let low := f.halfCarry || (!f.subtract && a.toNat % 16 > 9)
  let high := f.carry || (!f.subtract && a.toNat > 0x99)
  let correction : Byte := (if low then 0x06 else 0) + (if high then 0x60 else 0)
  let result := if f.subtract then a - correction else a + correction
  (result, { f with zero := result == 0, halfCarry := false, carry := high })

end Z80.Alu
