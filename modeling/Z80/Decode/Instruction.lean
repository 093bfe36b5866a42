import Z80.Decode.GameBoy
import Z80.Decode.Primary

/-!
Reads one whole instruction from a cursor. In a run of index bytes only the last
one counts and each costs a NOP. The limit of a block is checked between them
too, since such a run may go on for ever; a run cut there is spent without effect.
-/

namespace Z80.Cursor

/-- Puts the address of the instruction's first byte to an undefined opcode. -/
def locate {α : Type} (start : Word) :
    Except (OpcodeTable × Byte) α → Except DecodeFault α
  | .ok value => .ok value
  | .error (table, opcode) => .error ⟨table, opcode, start⟩

theorem lt_consumed_of_locate_run {α : Type} {f : Fetch α} {start : Word} {c d : Cursor}
    {value : α} (h : locate start (f.run c.byte.2) = .ok (value, d)) :
    c.consumed < d.consumed := by
  cases hr : f.run c.byte.2 with
  | error e => simp [hr, locate] at h
  | ok r =>
    simp only [hr, locate, Except.ok.injEq] at h
    exact Fetch.consumed_le_of_run (h ▸ hr)

/-- Reads on from the next opcode, with the index bytes before it in effect and
their cost paid. -/
def indexedInstruction (start : Word) (index : Index) (paid : Cost) (c : Cursor) :
    Except DecodeFault (Instruction × Cursor) :=
  match _ : locate start ((Primary.decode index c.byte.1).run c.byte.2) with
  | .error fault => .error fault
  | .ok (.instruction i, d) => .ok (i.addCost paid, d)
  | .ok (.index index, d) =>
    if _ : d.limitReached then .ok (.operation .nop (paid + ⟨1, 4⟩), d)
    else indexedInstruction start index (paid + ⟨1, 4⟩) d
termination_by limit - c.consumed
decreasing_by
  have := lt_consumed_of_locate_run ‹locate _ _ = _›
  simp only [limitReached, decide_eq_true_eq] at *
  omega

def instruction (mode : Mode) (c : Cursor) : Except DecodeFault (Instruction × Cursor) :=
  match mode with
  | .z80 => indexedInstruction c.address .hl 0 c
  | .gameBoy => locate c.address ((GameBoy.decode c.byte.1).run c.byte.2)

theorem lt_consumed_of_indexedInstruction {start : Word} {index : Index} {paid : Cost}
    {c d : Cursor} {i : Instruction} (h : indexedInstruction start index paid c = .ok (i, d)) :
    c.consumed < d.consumed := by
  induction hn : limit - c.consumed using Nat.strongRecOn generalizing c index paid with
  | _ n ih =>
    rw [indexedInstruction] at h
    split at h
    · simp at h
    · rename_i j e he
      simp only [Except.ok.injEq, Prod.mk.injEq] at h
      exact h.2 ▸ lt_consumed_of_locate_run he
    · rename_i k e he
      have hlt := lt_consumed_of_locate_run he
      split at h
      · simp only [Except.ok.injEq, Prod.mk.injEq] at h
        exact h.2 ▸ hlt
      · rename_i hl
        simp only [limitReached, decide_eq_true_eq] at hl
        exact Nat.lt_trans hlt (ih _ (by omega) h rfl)

theorem lt_consumed_of_instruction {mode : Mode} {c d : Cursor} {i : Instruction}
    (h : c.instruction mode = .ok (i, d)) : c.consumed < d.consumed := by
  cases mode with
  | z80 => exact lt_consumed_of_indexedInstruction h
  | gameBoy => exact lt_consumed_of_locate_run h

end Z80.Cursor
