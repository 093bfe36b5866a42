import Z80.Flags

/-!
The two processors: the Z80 and the Game Boy's Sharp LR35902, which drops the
index registers, the alternate banks and the ports and packs its flags anew.
-/

namespace Z80

inductive Mode where
  | z80
  | gameBoy
  deriving DecidableEq

def Mode.flagLayout : Mode → FlagLayout
  | z80 => .z80
  | gameBoy => .gameBoy

/-- What an accepted request does with its value. -/
inductive InterruptMode where
  | im0 | im1 | im2
  deriving DecidableEq

end Z80
