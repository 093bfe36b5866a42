import Z80.Proofs.Block.Sequential
import Z80.Proofs.Decode.Price
import Z80.Proofs.Execution.Hidden

/-!
What a Game Boy compiles consists of instructions that a Game Boy has. So its blocks look at
nothing that it does not show, and leave alone what it does not use.
-/

namespace Z80

def Instruction.onGameBoy : Instruction → Bool
  | operation op _ => op.onGameBoy
  | exit e _ _ => e.onGameBoy

namespace GameBoy

/-- The instruction is one of the Game Boy. -/
def Own (i : Instruction) : Prop := i.onGameBoy = true

@[simp] theorem own_operation_iff (op : Operation) (cycles : Nat) :
    (operation op cycles).Yields Own ↔ op.onGameBoy = true :=
  Iff.rfl

@[simp] theorem own_exit_iff (e : Exit) (cycles : Nat) (varies : Bool) :
    (exit e cycles varies).Yields Own ↔ e.onGameBoy = true :=
  Iff.rfl

@[simp] theorem onGameBoy_plainOperand (field : Fin 8) :
    (plainOperand field).onGameBoy = true := by
  revert field
  decide

@[simp] theorem onGameBoy_pair (y : Fin 8) : (pair y).onGameBoy = true := by
  revert y
  decide

@[simp] theorem onGameBoy_stackPair (y : Fin 8) : (stackPair y).onGameBoy = true := by
  revert y
  decide

theorem own_bit : (Bit.decode .gameBoy).Yields Own := by
  simp only [Bit.decode, Fetch.yields_nextByte, Fetch.yields_pure]
  intro b
  have ho := onGameBoy_plainOperand (Opcode.ofByte b).z
  simp only [Own, Instruction.onGameBoy, Bit.operation]
  split
  · exact Bool.and_eq_true_iff.mpr ⟨ho, rfl⟩
  · exact ho
  · exact Bool.and_eq_true_iff.mpr ⟨ho, rfl⟩
  · exact Bool.and_eq_true_iff.mpr ⟨ho, rfl⟩

theorem own_jumps (y : Fin 8) : (jumps y).Yields Own := by
  unfold jumps
  split
  case h_1 => rfl
  all_goals exact fun _ => rfl

theorem own_general (y z : Fin 8) : (general y z).Yields Own := by
  have hp := onGameBoy_pair y
  have ho := onGameBoy_plainOperand y
  unfold general
  dsimp only
  split
  · exact own_jumps y
  · split
    · exact fun _ => hp
    · exact hp
  · unfold loads
    split <;> rfl
  · split
    · exact hp
    · exact hp
  · exact ho
  · exact ho
  · exact fun _ => Bool.and_eq_true_iff.mpr ⟨ho, rfl⟩
  · unfold accumulator
    split <;> rfl

theorem own_copies (y z : Fin 8) : (copies y z).Yields Own := by
  unfold copies
  split
  · rfl
  · exact Bool.and_eq_true_iff.mpr ⟨onGameBoy_plainOperand y, onGameBoy_plainOperand z⟩

theorem onGameBoy_condition {y : Fin 8} (h : y.val < 4) :
    (Condition.ofField y).onGameBoy = true := by
  revert y
  decide

theorem own_conditional (b : Byte) (y z : Fin 8) : (conditional b y z).Yields Own := by
  unfold conditional
  dsimp only
  split
  · rename_i hy
    have hc := onGameBoy_condition hy
    split
    · exact hc
    · exact fun _ => hc
    · exact fun _ => hc
  · split
    · exact fun _ => rfl
    · exact fun _ => rfl
    · exact fun _ => rfl
    · exact fun _ => rfl
    · rfl
    · exact fun _ => rfl
    · rfl
    · exact fun _ => rfl
    · trivial

theorem own_control (b : Byte) (y z : Fin 8) : (control b y z).Yields Own := by
  have hp := onGameBoy_stackPair y
  unfold control
  split
  · exact own_conditional b y _
  · exact own_conditional b y _
  · exact own_conditional b y _
  · split
    · exact hp
    · unfold returns
      split <;> rfl
  · split
    · exact fun _ => rfl
    · exact own_bit
    · rfl
    · rfl
    · trivial
  · split
    · exact hp
    · split
      · exact fun _ => rfl
      · trivial
  · exact fun _ => rfl
  · rfl

theorem own_decode (b : Byte) : (decode b).Yields Own := by
  unfold decode
  dsimp only
  split
  · exact own_general _ _
  · exact own_copies _ _
  · exact onGameBoy_plainOperand _
  · exact own_control _ _ _

end GameBoy

theorem Cursor.onGameBoy_of_instruction {c d : Cursor} {i : Instruction}
    (h : c.instruction .gameBoy = .ok (i, d)) : i.onGameBoy = true :=
  (GameBoy.own_decode c.byte.1).of_locate_run h

namespace Block

/-- The block has only instructions of the Game Boy. -/
structure OnGameBoy (b : Block) : Prop where
  lines : ∀ line ∈ b.lines.toList, line.operation.onGameBoy = true
  exit : ∀ e, b.exit? = some e → e.onGameBoy = true

theorem forall_mem_addLine {P : Operation → Prop} {lines : Array Line}
    (h : ∀ line ∈ lines.toList, P line.operation) {op : Operation} (ho : P op) (fetched : Nat) :
    ∀ line ∈ (addLine lines op fetched).toList, P line.operation := by
  have hp : ∀ line ∈ (lines.push ⟨op, fetched⟩).toList, P line.operation := by
    rw [Array.toList_push]
    exact List.forall_mem_append.mpr ⟨h, List.forall_mem_singleton.mpr ho⟩
  cases op with
  | nop => exact h
  | _ => exact hp

theorem onGameBoy_of_compileFrom {c : Cursor} {lines : Array Line} {cost : Cost} {b : Block}
    (h : compileFrom .gameBoy c lines cost = .ok b)
    (hl : ∀ line ∈ lines.toList, line.operation.onGameBoy = true) : b.OnGameBoy := by
  have add {lines : Array Line} (hl : ∀ line ∈ lines.toList, line.operation.onGameBoy = true)
      {c d : Cursor} {op : Operation} {extra : Cost}
      (hi : c.instruction .gameBoy = .ok (.operation op extra, d)) :
      ∀ line ∈ (addLine lines op d.consumed).toList, line.operation.onGameBoy = true :=
    forall_mem_addLine (P := fun op => op.onGameBoy = true) hl
      (Cursor.onGameBoy_of_instruction hi) _
  fun_induction compileFrom .gameBoy c lines cost with
  | case1 c lines cost fault hi => cases h
  | case2 c lines cost e extra varies d hi =>
      cases h
      refine ⟨hl, ?_⟩
      rintro _ ⟨⟩
      exact Cursor.onGameBoy_of_instruction hi
  | case3 c lines cost op extra d hi =>
      cases h
      exact ⟨add hl hi, fun _ he => by cases he⟩
  | case4 c lines cost op extra d hi lines' cost' _ ih => exact ih h (add hl hi)

theorem onGameBoy_of_compile {memory : Memory} {address : Word} {b : Block}
    (h : compile .gameBoy memory address = .ok b) : b.OnGameBoy :=
  onGameBoy_of_compileFrom h fun _ hm => absurd hm List.not_mem_nil

end Block

variable {ω η : Type} [Observer ω] [Host η]

namespace Machine

variable {lines : List Line} {m n : Machine ω η}

theorem idle_runLines (h : ∀ line ∈ lines, line.operation.onGameBoy = true) :
    (m.runLines lines).registers.idle = m.registers.idle := by
  induction lines generalizing m with
  | nil => rfl
  | cons line rest ih =>
      rw [List.forall_mem_cons] at h
      exact (ih h.2).trans (Operation.idle_execute h.1 line.fetched m)

theorem runLines_congr (h : ∀ line ∈ lines, line.operation.onGameBoy = true)
    (hmn : m.blank = n.blank) (hl : m.registers.layout = .gameBoy) :
    (m.runLines lines).blank = (n.runLines lines).blank := by
  induction lines generalizing m n with
  | nil => exact hmn
  | cons line rest ih =>
      rw [List.forall_mem_cons] at h
      have hi := Operation.idle_execute h.1 line.fetched m
      exact ih h.2 (Operation.execute_congr h.1 line.fetched hmn hl)
        ((congrArg Idle.layout hi).trans hl)

end Machine

namespace Block.OnGameBoy

variable {b : Block} {m n : Machine ω η}

/-- A block of the Game Boy cannot tell machines apart that show the same. -/
theorem execute_congr (h : b.OnGameBoy) (hmn : m.blank = n.blank)
    (hl : m.registers.layout = .gameBoy) :
    (b.execute m).1.blank = (b.execute n).1.blank ∧ (b.execute m).2 = (b.execute n).2 := by
  have hr := Machine.runLines_congr h.lines hmn hl
  have hx : (leave b.exit? b.next (m.runLines b.lines.toList)).1.blank =
        (leave b.exit? b.next (n.runLines b.lines.toList)).1.blank ∧
      (leave b.exit? b.next (m.runLines b.lines.toList)).2 =
        (leave b.exit? b.next (n.runLines b.lines.toList)).2 := by
    cases he : b.exit? with
    | none =>
        exact ⟨Machine.modifyRegisters_congr hr (fun r => { r with pc := b.next }) fun _ => rfl,
          rfl⟩
    | some e => exact Exit.execute_congr (h.exit e he) b.next hr
  rw [execute_eq, execute_eq]
  exact ⟨Machine.modifyRegisters_congr hx.1 (·.refresh b.length) fun _ => rfl,
    congrArg (b.cost + b.charged ·) hx.2⟩

theorem idle_execute (h : b.OnGameBoy) (m : Machine ω η) :
    (b.execute m).1.registers.idle = m.registers.idle := by
  have hr := Machine.idle_runLines (m := m) h.lines
  rw [execute_eq]
  cases he : b.exit? with
  | none => exact hr
  | some e => exact (Exit.idle_execute (h.exit e he) b.next _).trans hr

end Block.OnGameBoy

end Z80
