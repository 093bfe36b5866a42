import Z80.Proofs.Block.Sequential
import Z80.Proofs.Decode.Price

/-!
The Game Boy counts in machine cycles of four clock cycles each. All of its table is priced
in them, and so is what a conditional exit costs on top; only a block instruction of the Z80
would add rounds of another length, and the Game Boy has none.
-/

namespace Z80

/-- A cost in which every machine cycle takes four clock cycles. -/
def Cost.Steady (c : Cost) : Prop := c.clock = 4 * c.machine

theorem Cost.steady_ofMachine (cycles : Nat) : (ofMachine cycles).Steady := rfl

theorem Cost.steady_zero : (0 : Cost).Steady := rfl

theorem Cost.Steady.add {a b : Cost} (ha : a.Steady) (hb : b.Steady) : (a + b).Steady := by
  change a.clock + b.clock = 4 * (a.machine + b.machine)
  rw [ha, hb, Nat.mul_add]

/-- The exit costs a steady amount on top, whichever way it goes. -/
def Exit.Steady : Exit → Prop
  | jumpIf _ _ taken | decrementAndJump _ taken | callIf _ _ taken | retIf _ taken => taken.Steady
  | repeatBlock _ _ => False
  | _ => True

def Instruction.Steady : Instruction → Prop
  | operation _ cost => cost.Steady
  | exit e cost _ => cost.Steady ∧ e.Steady

open Instruction (Steady)

namespace GameBoy

@[simp] theorem steady_operation (op : Operation) (cycles : Nat) :
    (operation op cycles).Yields Steady ↔ True :=
  iff_true_intro (Cost.steady_ofMachine cycles)

@[simp] theorem steady_exit_iff (e : Exit) (cycles : Nat) (varies : Bool) :
    (exit e cycles varies).Yields Steady ↔ e.Steady :=
  and_iff_right (Cost.steady_ofMachine cycles)

attribute [local simp] Exit.Steady Cost.steady_ofMachine

theorem steady_bit : (Bit.decode .gameBoy).Yields Steady :=
  fun _ => Cost.steady_ofMachine _

theorem steady_jumps (y : Fin 8) : (jumps y).Yields Steady := by
  unfold jumps
  dsimp only
  split <;> simp

theorem steady_general (y z : Fin 8) : (general y z).Yields Steady := by
  unfold general
  dsimp only
  split
  · exact steady_jumps y
  · split <;> simp
  · unfold loads
    split <;> simp
  · split <;> simp
  all_goals simp

theorem steady_copies (y z : Fin 8) : (copies y z).Yields Steady := by
  unfold copies
  split <;> simp

theorem steady_conditional (b : Byte) (y z : Fin 8) : (conditional b y z).Yields Steady := by
  unfold conditional
  dsimp only
  split
  · split <;> simp
  · split <;> simp

theorem steady_control (b : Byte) (y z : Fin 8) : (control b y z).Yields Steady := by
  unfold control
  split
  · exact steady_conditional b y _
  · exact steady_conditional b y _
  · exact steady_conditional b y _
  · split
    · simp
    · unfold returns
      split <;> simp
  · split
    · simp
    · exact steady_bit
    · simp
    · simp
    · trivial
  · split
    · simp
    · split <;> simp
  · simp
  · simp

theorem steady_decode (b : Byte) : (decode b).Yields Steady := by
  unfold decode
  dsimp only
  split
  · exact steady_general _ _
  · exact steady_copies _ _
  · exact Cost.steady_ofMachine _
  · exact steady_control _ _ _

end GameBoy

theorem Cursor.steady_of_instruction {c d : Cursor} {i : Instruction}
    (h : c.instruction .gameBoy = .ok (i, d)) : i.Steady :=
  (GameBoy.steady_decode c.byte.1).of_locate_run h

/-- Every run of the block costs a steady amount. -/
structure Block.Steady (b : Block) : Prop where
  cost : b.cost.Steady
  exit : ∀ e, b.exit? = some e → e.Steady

theorem Block.steady_of_compileFrom {c : Cursor} {lines : Array Line} {cost : Cost} {b : Block}
    (h : compileFrom .gameBoy c lines cost = .ok b) (hc : cost.Steady) : b.Steady := by
  fun_induction compileFrom .gameBoy c lines cost with
  | case1 c lines cost fault hi => cases h
  | case2 c lines cost e extra varies d hi =>
      cases h
      obtain ⟨hx, he⟩ := Cursor.steady_of_instruction hi
      refine ⟨hc.add hx, ?_⟩
      rintro _ ⟨⟩
      exact he
  | case3 c lines cost op extra d hi =>
      cases h
      exact ⟨hc.add (Cursor.steady_of_instruction hi), fun _ he => by cases he⟩
  | case4 c lines cost op extra d hi lines' cost' _ ih =>
      exact ih h (hc.add (Cursor.steady_of_instruction hi))

theorem Block.steady_of_compile {memory : Memory} {address : Word} {b : Block}
    (h : compile .gameBoy memory address = .ok b) : b.Steady :=
  steady_of_compileFrom h Cost.steady_zero

variable {ω η : Type} [Observer ω] [Host η]

theorem Exit.Steady.execute {e : Exit} (h : e.Steady) (next : Word) (m : Machine ω η) :
    (e.execute next m).2.Steady := by
  cases e with
  | jumpIf _ _ _ | decrementAndJump _ _ | callIf _ _ _ | retIf _ _ =>
      simp only [Exit.execute]
      split
      · exact h
      · exact Cost.steady_zero
  | repeatBlock _ _ => exact h.elim
  | jump _ | jumpToRegister _ | call _ | ret | returnFromInterrupt | returnAndEnableInterrupts
  | halt => exact Cost.steady_zero

theorem Cost.Steady.charged {extra : Cost} (h : extra.Steady) (b : Block) :
    (b.charged extra).Steady := by
  rw [Block.charged]
  split
  · exact h
  · exact steady_zero

theorem Block.Steady.execute {b : Block} (h : b.Steady) (m : Machine ω η) :
    (b.execute m).2.Steady := by
  rw [execute_eq]
  refine h.cost.add (Cost.Steady.charged ?_ b)
  cases he : b.exit? with
  | none => exact Cost.steady_zero
  | some e => exact (h.exit e he).execute b.next _

end Z80
