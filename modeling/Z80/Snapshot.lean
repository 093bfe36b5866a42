import Z80.Registers

/-!
Register contents by name, from which a register file starts. Every field is
zero unless given, which is the state of a Z80 after reset.
-/

namespace Z80

structure Snapshot where
  af : Word := 0
  bc : Word := 0
  de : Word := 0
  hl : Word := 0
  alternateAF : Word := 0
  alternateBC : Word := 0
  alternateDE : Word := 0
  alternateHL : Word := 0
  ix : Word := 0
  iy : Word := 0
  i : Byte := 0
  r : Byte := 0
  sp : Word := 0
  pc : Word := 0
  iff1 : Bool := false
  iff2 : Bool := false
  interruptMode : InterruptMode := .im0
  deriving DecidableEq

namespace Snapshot

/-- What the boot ROM of the Game Boy leaves behind when it jumps to the
cartridge; interrupts are disabled. -/
def gameBoy : Snapshot :=
  { af := 0x01B0, bc := 0x0013, de := 0x00D8, hl := 0x014D, sp := 0xFFFE, pc := 0x0100 }

def bank (bc de hl : Word) : Bank :=
  ⟨Word.high bc, Word.low bc, Word.high de, Word.low de, Word.high hl, Word.low hl⟩

/-- Flags without a place in the layout are lost. -/
def toRegisters (s : Snapshot) (layout : FlagLayout) : Registers where
  layout := layout
  accumulator := .ofWord layout s.af
  bank := bank s.bc s.de s.hl
  alternateAccumulator := .ofWord layout s.alternateAF
  alternateBank := bank s.alternateBC s.alternateDE s.alternateHL
  ix := s.ix
  iy := s.iy
  i := s.i
  r := s.r
  sp := s.sp
  pc := s.pc
  iff1 := s.iff1
  iff2 := s.iff2
  interruptMode := s.interruptMode

def ofRegisters (r : Registers) : Snapshot where
  af := r.af
  bc := r.bc
  de := r.de
  hl := r.hl
  alternateAF := r.alternateAccumulator.toWord r.layout
  alternateBC := r.alternateBank.bc
  alternateDE := r.alternateBank.de
  alternateHL := r.alternateBank.hl
  ix := r.ix
  iy := r.iy
  i := r.i
  r := r.r
  sp := r.sp
  pc := r.pc
  iff1 := r.iff1
  iff2 := r.iff2
  interruptMode := r.interruptMode

end Snapshot
end Z80
