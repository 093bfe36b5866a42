import Z80.Mode

/-!
The register file. The alternate banks are kept beside the active ones and trade
places with them on EXX and EX AF,AF'.
-/

namespace Z80

structure Accumulator where
  a : Byte
  flags : Flags
  deriving DecidableEq

structure Bank where
  b : Byte
  c : Byte
  d : Byte
  e : Byte
  h : Byte
  l : Byte
  deriving DecidableEq

namespace Bank

def bc (r : Bank) : Word := .ofBytes r.c r.b

def de (r : Bank) : Word := .ofBytes r.e r.d

def hl (r : Bank) : Word := .ofBytes r.l r.h

def setBC (r : Bank) (w : Word) : Bank := { r with b := Word.high w, c := Word.low w }

def setDE (r : Bank) (w : Word) : Bank := { r with d := Word.high w, e := Word.low w }

def setHL (r : Bank) (w : Word) : Bank := { r with h := Word.high w, l := Word.low w }

end Bank

structure Registers where
  layout : FlagLayout
  accumulator : Accumulator
  bank : Bank
  alternateAccumulator : Accumulator
  alternateBank : Bank
  ix : Word
  iy : Word
  i : Byte
  /-- Counts fetched bytes in its low seven bits. -/
  r : Byte
  sp : Word
  pc : Word
  iff1 : Bool
  iff2 : Bool
  interruptMode : InterruptMode
  deriving DecidableEq

namespace Accumulator

def toWord (layout : FlagLayout) (x : Accumulator) : Word :=
  .ofBytes (layout.pack x.flags) x.a

def ofWord (layout : FlagLayout) (w : Word) : Accumulator :=
  ⟨Word.high w, layout.unpack (Word.low w)⟩

end Accumulator

namespace Registers

def a (r : Registers) : Byte := r.accumulator.a

def flags (r : Registers) : Flags := r.accumulator.flags

def af (r : Registers) : Word := r.accumulator.toWord r.layout

def bc (r : Registers) : Word := r.bank.bc

def de (r : Registers) : Word := r.bank.de

def hl (r : Registers) : Word := r.bank.hl

def setA (r : Registers) (a : Byte) : Registers :=
  { r with accumulator := ⟨a, r.accumulator.flags⟩ }

def setFlags (r : Registers) (f : Flags) : Registers :=
  { r with accumulator := ⟨r.accumulator.a, f⟩ }

def setAccumulator (r : Registers) (x : Byte × Flags) : Registers :=
  { r with accumulator := ⟨x.1, x.2⟩ }

def setAF (r : Registers) (w : Word) : Registers :=
  { r with accumulator := .ofWord r.layout w }

def setBC (r : Registers) (w : Word) : Registers := { r with bank := r.bank.setBC w }

def setDE (r : Registers) (w : Word) : Registers := { r with bank := r.bank.setDE w }

def setHL (r : Registers) (w : Word) : Registers := { r with bank := r.bank.setHL w }

/-- EXX -/
def exchangeBanks (r : Registers) : Registers :=
  { r with bank := r.alternateBank, alternateBank := r.bank }

/-- EX AF,AF' -/
def exchangeAccumulators (r : Registers) : Registers :=
  { r with accumulator := r.alternateAccumulator, alternateAccumulator := r.accumulator }

/-- EX DE,HL -/
def exchangeDEHL (r : Registers) : Registers :=
  { r with bank := (r.bank.setDE r.hl).setHL r.de }

end Registers

/-- The refresh counter after so many more fetched bytes: it counts modulo 128
and keeps its top bit. -/
def refreshAfter (r : Byte) (bytes : Nat) : Byte :=
  .ofNat (r.toNat / 128 * 128 + (r.toNat + bytes) % 128)

/-- The counter value that so many fetched bytes later reads `r`. -/
def refreshBefore (r : Byte) (bytes : Nat) : Byte :=
  .ofNat (r.toNat / 128 * 128 + (r.toNat + 128 - bytes % 128) % 128)

def Registers.refresh (r : Registers) (bytes : Nat) : Registers :=
  { r with r := refreshAfter r.r bytes }

end Z80
