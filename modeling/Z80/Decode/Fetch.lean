import Z80.Decode.Cursor
import Z80.Operation

/-!
How an opcode is read to its end: a tree of the bytes it still fetches, which
ends in a value or at an undefined opcode. The tables of opcodes are written in
these terms and see nothing of memory but the bytes they ask for.
-/

namespace Z80

inductive Fetch (α : Type) where
  | done (value : α)
  | byte (next : Byte → Fetch α)
  | word (next : Word → Fetch α)
  | undefined (table : OpcodeTable) (opcode : Byte)

namespace Fetch

variable {α β : Type}

def bind : Fetch α → (α → Fetch β) → Fetch β
  | done value, f => f value
  | byte next, f => .byte fun b => (next b).bind f
  | word next, f => .word fun w => (next w).bind f
  | undefined table opcode, _ => .undefined table opcode

instance : Monad Fetch where
  pure := .done
  bind := bind

def nextByte : Fetch Byte := .byte .done

def nextWord : Fetch Word := .word .done

/-- Fetches from a cursor; the result comes with the cursor behind it. -/
def run : Fetch α → Cursor → Except (OpcodeTable × Byte) (α × Cursor)
  | done value, c => .ok (value, c)
  | byte next, c =>
    let (b, c) := c.byte
    (next b).run c
  | word next, c =>
    let (w, c) := c.word
    (next w).run c
  | undefined table opcode, _ => .error (table, opcode)

theorem consumed_le_of_run {f : Fetch α} {c d : Cursor} {value : α}
    (h : f.run c = .ok (value, d)) : c.consumed ≤ d.consumed := by
  induction f generalizing c with
  | done v =>
    simp only [run, Except.ok.injEq, Prod.mk.injEq] at h
    exact h.2 ▸ Nat.le_refl _
  | byte next ih =>
    exact Nat.le_trans (Nat.le_add_right _ _) (ih _ h)
  | word next ih =>
    exact Nat.le_trans (Nat.le_add_right _ _) (ih _ h)
  | undefined table opcode => simp [run] at h

end Fetch

/-- The three fields of an opcode: two bits, three bits, three bits. -/
structure Opcode where
  x : Fin 4
  y : Fin 8
  z : Fin 8

namespace Opcode

def ofByte (b : Byte) : Opcode where
  x := ⟨b.toNat / 64 % 4, by omega⟩
  y := ⟨b.toNat / 8 % 8, by omega⟩
  z := ⟨b.toNat % 8, by omega⟩

end Opcode

/-- The register pair that the upper two bits of a three-bit field select. -/
def pairField (y : Fin 8) : Fin 4 :=
  ⟨y.val / 2, by omega⟩

inductive Index where
  | hl | ix | iy
  deriving DecidableEq

namespace Index

def pair : Index → WordReg
  | hl => .hl
  | ix => .ix
  | iy => .iy

def high : Index → ByteReg
  | hl => .h
  | ix => .ixh
  | iy => .iyh

def low : Index → ByteReg
  | hl => .l
  | ix => .ixl
  | iy => .iyl

/-- BC, DE, HL or its stand-in, SP. -/
def pairOf (index : Index) : Fin 4 → WordReg
  | 0 => .bc
  | 1 => .de
  | 2 => index.pair
  | 3 => .sp

/-- As for other pairs, with AF in place of SP. -/
def stackPairOf (index : Index) : Fin 4 → WordReg
  | 3 => .af
  | p => index.pairOf p

end Index

def plainOperand (field : Fin 8) : Operand :=
  match ByteReg.ofField field with
  | some reg => .register reg
  | none => .indirect .hl

end Z80
