import Z80.Proofs.Decode.Locality

/-!
No code is free: an instruction costs at least one machine cycle of four clock cycles. Nor
does an entry of a table cost more than six of them, or take more than three bytes behind its
opcode. And an exit is marked as varying just if its code can ask for more than its price. The
tables are searched through for this once, for all their entries.
-/

namespace Z80

namespace Cost

instance : LE Cost := ⟨fun a b => a.machine ≤ b.machine ∧ a.clock ≤ b.clock⟩

instance (a b : Cost) : Decidable (a ≤ b) :=
  inferInstanceAs (Decidable (a.machine ≤ b.machine ∧ a.clock ≤ b.clock))

theorem le_add_left {a b : Cost} (h : a ≤ b) (c : Cost) : a ≤ c + b :=
  ⟨Nat.le_trans h.1 (Nat.le_add_left _ _), Nat.le_trans h.2 (Nat.le_add_left _ _)⟩

/-- What an opcode takes to be fetched. -/
def fetch : Cost := ⟨1, 4⟩

theorem fetch_le_mk {machine clock : Nat} :
    .fetch ≤ Cost.mk machine clock ↔ 1 ≤ machine ∧ 4 ≤ clock :=
  Iff.rfl

theorem fetch_le_ofMachine {cycles : Nat} : .fetch ≤ ofMachine cycles ↔ 1 ≤ cycles := by
  rw [ofMachine, fetch_le_mk]
  omega

theorem isZero_mk (machine clock : Nat) :
    (Cost.mk machine clock).isZero = (machine == 0 && clock == 0) :=
  rfl

theorem isZero_zero : (0 : Cost).isZero = true :=
  rfl

theorem isZero_ofMachine (cycles : Nat) : (ofMachine cycles).isZero = (cycles == 0) := by
  rw [ofMachine, isZero_mk, Bool.eq_iff_iff, Bool.and_eq_true, beq_iff_eq, beq_iff_eq]
  omega

/-- No more than the dearest entry of a table for each byte. -/
def Within (c : Cost) (bytes : Nat) : Prop :=
  c.machine ≤ 6 * bytes ∧ c.clock ≤ 24 * bytes

instance (c : Cost) (bytes : Nat) : Decidable (c.Within bytes) :=
  inferInstanceAs (Decidable (c.machine ≤ 6 * bytes ∧ c.clock ≤ 24 * bytes))

theorem within_mk {machine clock bytes : Nat} :
    (Cost.mk machine clock).Within bytes ↔ machine ≤ 6 * bytes ∧ clock ≤ 24 * bytes :=
  Iff.rfl

theorem within_ofMachine {cycles : Nat} : (ofMachine cycles).Within 1 ↔ cycles ≤ 6 := by
  rw [ofMachine, within_mk]
  omega

theorem within_zero (bytes : Nat) : (0 : Cost).Within bytes :=
  ⟨Nat.zero_le _, Nat.zero_le _⟩

namespace Within

variable {a b : Cost} {m n : Nat}

theorem mono (h : a.Within m) (hn : m ≤ n) : a.Within n :=
  ⟨Nat.le_trans h.1 (Nat.mul_le_mul_left 6 hn), Nat.le_trans h.2 (Nat.mul_le_mul_left 24 hn)⟩

theorem add (ha : a.Within m) (hb : b.Within n) : (a + b).Within (m + n) := by
  rw [Within, machine_add, clock_add, Nat.mul_add, Nat.mul_add]
  exact ⟨Nat.add_le_add ha.1 hb.1, Nat.add_le_add ha.2 hb.2⟩

theorem of_add (h : (a + b).Within n) : b.Within n :=
  ⟨Nat.le_trans (Nat.le_add_left _ _) h.1, Nat.le_trans (Nat.le_add_left _ _) h.2⟩

end Within
end Cost

/-- What a conditional exit costs on top if it is taken. -/
def Exit.taken : Exit → Cost
  | jumpIf _ _ taken | decrementAndJump _ taken | callIf _ _ taken | retIf _ taken => taken
  | _ => 0

/-- True of an exit that can ask for more than its own cost: it has a price if it is taken, or
goes round again. -/
def Exit.asksForMore : Exit → Bool
  | repeatBlock _ _ => true
  | e => !e.taken.isZero

namespace Fetch

variable {α β : Type}

/-- Every value in which the fetch can end has the property. -/
def Yields (P : α → Prop) : Fetch α → Prop
  | done value => P value
  | byte next => ∀ b, (next b).Yields P
  | word next => ∀ w, (next w).Yields P
  | undefined _ _ => True

@[simp] theorem yields_pure (P : α → Prop) (value : α) :
    (pure value : Fetch α).Yields P ↔ P value :=
  Iff.rfl

@[simp] theorem yields_undefined (P : α → Prop) (table : OpcodeTable) (opcode : Byte) :
    (undefined table opcode : Fetch α).Yields P ↔ True :=
  Iff.rfl

@[simp] theorem yields_nextByte (P : α → Prop) (g : Byte → Fetch α) :
    (nextByte >>= g).Yields P ↔ ∀ b, (g b).Yields P :=
  Iff.rfl

@[simp] theorem yields_nextWord (P : α → Prop) (g : Word → Fetch α) :
    (nextWord >>= g).Yields P ↔ ∀ w, (g w).Yields P :=
  Iff.rfl

theorem Yields.of_run {P : α → Prop} {f : Fetch α} (h : f.Yields P) {c d : Cursor} {value : α}
    (hr : f.run c = .ok (value, d)) : P value := by
  induction f generalizing c with
  | done v =>
      cases hr
      exact h
  | byte next ih => exact ih _ (h _) hr
  | word next ih => exact ih _ (h _) hr
  | undefined table opcode => cases hr

/-- The fetch takes at most so many bytes, and every value in which it can end has the
property. -/
def Bounded (P : α → Prop) : Fetch α → Nat → Prop
  | done value, _ => P value
  | byte next, n => 1 ≤ n ∧ ∀ b, (next b).Bounded P (n - 1)
  | word next, n => 2 ≤ n ∧ ∀ w, (next w).Bounded P (n - 2)
  | undefined _ _, _ => True

@[simp] theorem bounded_pure (P : α → Prop) (value : α) (n : Nat) :
    (pure value : Fetch α).Bounded P n ↔ P value :=
  Iff.rfl

@[simp] theorem bounded_undefined (P : α → Prop) (table : OpcodeTable) (opcode : Byte) (n : Nat) :
    (undefined table opcode : Fetch α).Bounded P n ↔ True :=
  Iff.rfl

@[simp] theorem bounded_nextByte (P : α → Prop) (g : Byte → Fetch α) (n : Nat) :
    (nextByte >>= g).Bounded P n ↔ 1 ≤ n ∧ ∀ b, (g b).Bounded P (n - 1) :=
  Iff.rfl

@[simp] theorem bounded_nextWord (P : α → Prop) (g : Word → Fetch α) (n : Nat) :
    (nextWord >>= g).Bounded P n ↔ 2 ≤ n ∧ ∀ w, (g w).Bounded P (n - 2) :=
  Iff.rfl

namespace Bounded

variable {P : α → Prop} {Q : β → Prop} {f : Fetch α} {m n : Nat}

theorem mono (h : f.Bounded P m) (hn : m ≤ n) : f.Bounded P n := by
  induction f generalizing m n with
  | done value => exact h
  | byte next ih => exact ⟨Nat.le_trans h.1 hn, fun b => ih b (h.2 b) (Nat.sub_le_sub_right hn 1)⟩
  | word next ih => exact ⟨Nat.le_trans h.1 hn, fun w => ih w (h.2 w) (Nat.sub_le_sub_right hn 2)⟩
  | undefined table opcode => trivial

theorem bind (h : f.Bounded P m) {g : α → Fetch β}
    (hg : ∀ value, P value → (g value).Bounded Q n) : (f >>= g).Bounded Q (m + n) := by
  induction f generalizing m with
  | done value => exact (hg value h).mono (Nat.le_add_left n m)
  | byte next ih =>
      refine ⟨Nat.le_trans h.1 (Nat.le_add_right m n), fun b => ?_⟩
      rw [Nat.sub_add_comm h.1]
      exact ih b (h.2 b)
  | word next ih =>
      refine ⟨Nat.le_trans h.1 (Nat.le_add_right m n), fun w => ?_⟩
      rw [Nat.sub_add_comm h.1]
      exact ih w (h.2 w)
  | undefined table opcode => trivial

theorem of_run (h : f.Bounded P n) {c d : Cursor} {value : α}
    (hr : f.run c = .ok (value, d)) : P value ∧ d.consumed ≤ c.consumed + n := by
  induction f generalizing c n with
  | done v =>
      cases hr
      exact ⟨h, Nat.le_add_right _ _⟩
  | byte next ih =>
      obtain ⟨h1, hnext⟩ := h
      obtain ⟨hv, hd⟩ := ih _ (hnext _) hr
      change d.consumed ≤ c.consumed + 1 + (n - 1) at hd
      exact ⟨hv, by omega⟩
  | word next ih =>
      obtain ⟨h2, hnext⟩ := h
      obtain ⟨hv, hd⟩ := ih _ (hnext _) hr
      change d.consumed ≤ c.consumed + 2 + (n - 2) at hd
      exact ⟨hv, by omega⟩
  | undefined table opcode => cases hr

end Bounded
end Fetch

namespace Instruction

def exit? : Instruction → Option Exit
  | operation _ _ => none
  | exit e _ _ => some e

def taken : Instruction → Cost
  | operation _ _ => 0
  | exit e _ _ => e.taken

def varies : Instruction → Bool
  | operation _ _ => false
  | exit _ _ varies => varies

/-- The instruction says that it varies just if it can ask for more than its own cost. -/
def Declared (i : Instruction) : Prop :=
  i.varies = i.exit?.any Exit.asksForMore

/-- No entry of a table is cheaper than the fetch of its opcode, or dearer than the dearest
one, whether it is taken or not; and it is dearer when it runs only if the table says so. -/
def Priced (i : Instruction) : Prop :=
  .fetch ≤ i.cost ∧ i.cost.Within 1 ∧ i.taken.Within 1 ∧ i.Declared

@[simp] theorem priced_operation_iff (op : Operation) (cost : Cost) :
    Priced (.operation op cost) ↔ .fetch ≤ cost ∧ cost.Within 1 :=
  and_congr_right' (and_iff_left ⟨Cost.within_zero 1, rfl⟩)

@[simp] theorem priced_exit_iff (e : Exit) (cost : Cost) (varies : Bool) :
    Priced (.exit e cost varies) ↔
      .fetch ≤ cost ∧ cost.Within 1 ∧ e.taken.Within 1 ∧ varies = e.asksForMore :=
  Iff.rfl

end Instruction

open Instruction (Priced)

attribute [local simp] Exit.taken Exit.asksForMore Cost.isZero_mk Cost.isZero_zero
  Cost.fetch_le_mk Cost.within_mk Cost.within_zero

theorem Bit.bounded_decode (mode : Mode) : (Bit.decode mode).Bounded Priced 1 := by
  simp only [decode, Fetch.bounded_nextByte, Fetch.bounded_pure, Instruction.priced_operation_iff]
  refine ⟨Nat.le_refl 1, fun b => ?_⟩
  cases mode with
  | z80 =>
      simp only [cost]
      split
      · decide
      · split <;> decide
  | gameBoy =>
      simp only [cost]
      split
      · decide
      · split <;> decide

theorem Bit.bounded_decodeIndexed (pointer : WordReg) :
    (Bit.decodeIndexed pointer).Bounded Priced 2 := by
  simp only [decodeIndexed, Fetch.bounded_nextByte, Fetch.bounded_pure,
    Instruction.priced_operation_iff]
  refine ⟨by decide, fun d => ⟨by decide, fun b => ?_⟩⟩
  split <;> decide

namespace Extended

theorem bounded_general (b : Byte) (y z : Fin 8) : (general b y z).Bounded Priced 2 := by
  unfold general
  split
  · simp
  · simp
  · dsimp only
    split <;> simp
  · simp only [Fetch.bounded_nextWord]
    refine ⟨Nat.le_refl 2, fun w => ?_⟩
    split <;> simp
  · simp
  · simp
  · simp
  · split <;> simp

theorem bounded_block (b : Byte) (y z : Fin 8) : (block b y z).Bounded Priced 2 := by
  unfold block
  split
  · dsimp only
    split <;> simp
  · simp

theorem bounded_decode : decode.Bounded Priced 3 := by
  simp only [decode, Fetch.bounded_nextByte]
  refine ⟨by decide, fun b => ?_⟩
  split
  · exact bounded_general _ _ _
  · exact bounded_block _ _ _
  · trivial
  · trivial

end Extended

namespace GameBoy

attribute [local simp] Cost.within_ofMachine Cost.isZero_ofMachine

@[simp] theorem bounded_operation_iff (op : Operation) (cycles n : Nat) :
    (operation op cycles).Bounded Priced n ↔ 1 ≤ cycles ∧ cycles ≤ 6 :=
  (Instruction.priced_operation_iff op _).trans
    (and_congr Cost.fetch_le_ofMachine Cost.within_ofMachine)

@[simp] theorem bounded_exit_iff (e : Exit) (cycles n : Nat) (varies : Bool) :
    (exit e cycles varies).Bounded Priced n ↔
      1 ≤ cycles ∧ cycles ≤ 6 ∧ e.taken.Within 1 ∧ varies = e.asksForMore :=
  and_congr Cost.fetch_le_ofMachine (and_congr_left' Cost.within_ofMachine)

theorem bounded_jumps (y : Fin 8) : (jumps y).Bounded Priced 2 := by
  unfold jumps
  dsimp only
  split <;> simp

theorem bounded_loads (y : Fin 8) : (loads y).Bounded Priced 2 := by
  unfold loads
  split <;> simp

theorem bounded_general (y z : Fin 8) : (general y z).Bounded Priced 2 := by
  unfold general
  dsimp only
  split
  · exact bounded_jumps y
  · split <;> simp
  · exact bounded_loads y
  · split <;> simp
  · simp only [bounded_operation_iff, costOf]
    split <;> decide
  · simp only [bounded_operation_iff, costOf]
    split <;> decide
  · simp only [Fetch.bounded_nextByte, bounded_operation_iff, costOf]
    refine ⟨by decide, fun b => ?_⟩
    split <;> decide
  · simp

theorem bounded_copies (y z : Fin 8) : (copies y z).Bounded Priced 2 := by
  unfold copies
  split
  · simp
  · simp only [bounded_operation_iff]
    split <;> decide

theorem bounded_arithmetic (y z : Fin 8) : (arithmetic y z).Bounded Priced 2 := by
  simp only [arithmetic, bounded_operation_iff, costOf]
  split <;> decide

theorem bounded_conditional (b : Byte) (y z : Fin 8) :
    (conditional b y z).Bounded Priced 2 := by
  unfold conditional
  dsimp only
  split <;> split <;> simp

theorem bounded_control (b : Byte) (y z : Fin 8) : (control b y z).Bounded Priced 2 := by
  have hr (p : Fin 4) : (returns p).Bounded Priced 2 := by
    unfold returns
    split <;> simp
  unfold control
  split
  · exact bounded_conditional _ _ _
  · exact bounded_conditional _ _ _
  · exact bounded_conditional _ _ _
  · split
    · simp
    · exact hr _
  · split
    · simp
    · exact (Bit.bounded_decode _).mono (by decide)
    · simp
    · simp
    · simp
  · split
    · simp
    · split <;> simp
  · simp
  · simp

theorem bounded_decode (b : Byte) : (decode b).Bounded Priced 2 := by
  unfold decode
  dsimp only
  split
  · exact bounded_general _ _
  · exact bounded_copies _ _
  · exact bounded_arithmetic _ _
  · exact bounded_control _ _ _

end GameBoy

namespace Primary

@[simp] theorem bounded_operation_iff (op : Operation) (cost : Cost) (n : Nat) :
    (operation op cost).Bounded Priced n ↔ .fetch ≤ cost ∧ cost.Within 1 :=
  Instruction.priced_operation_iff op cost

@[simp] theorem bounded_exit_iff (e : Exit) (cost : Cost) (n : Nat) (varies : Bool) :
    (exit e cost varies).Bounded Priced n ↔
      .fetch ≤ cost ∧ cost.Within 1 ∧ e.taken.Within 1 ∧ varies = e.asksForMore :=
  Iff.rfl

/-- An operand in memory may have a displacement, which costs more. -/
theorem bounded_costOf (op : Operation) (o : Operand) {memory register : Cost} {n : Nat}
    (hf : .fetch ≤ memory) (hm : (⟨2, 8⟩ + memory : Cost).Within 1)
    (hr : .fetch ≤ register ∧ register.Within 1) :
    (operation op (costOf o memory register)).Bounded Priced n := by
  have h0 : (0 + memory : Cost).Within 1 := by
    rw [Cost.zero_add]
    exact hm.of_add
  rw [bounded_operation_iff]
  cases o with
  | register _ | immediate _ => exact hr
  | indexed _ _ => exact ⟨Cost.le_add_left hf _, hm⟩
  | indirect _ | absolute _ | highPage _ | highPageC => exact ⟨Cost.le_add_left hf _, h0⟩

theorem bounded_memoryOperand (index : Index) :
    (memoryOperand index).Bounded (fun _ => True) 1 := by
  cases index with
  | hl => trivial
  | ix | iy => exact ⟨Nat.le_refl 1, fun _ => trivial⟩

theorem bounded_operand (index : Index) (y : Fin 8) :
    (operand index y).Bounded (fun _ => True) 1 := by
  unfold operand
  split
  · trivial
  · trivial
  · exact bounded_memoryOperand index
  · trivial

/-- Whatever operand the opcode selects. -/
theorem bounded_bind {f : Fetch Operand} (hf : f.Bounded (fun _ => True) 1)
    {g : Operand → Fetch Instruction} (hg : ∀ o, (g o).Bounded Priced 1) :
    (f >>= g).Bounded Priced 2 :=
  hf.bind fun o _ => hg o

theorem bounded_jumps (y : Fin 8) : (jumps y).Bounded Priced 2 := by
  unfold jumps
  split <;> simp

theorem bounded_loads (index : Index) (y : Fin 8) : (loads index y).Bounded Priced 2 := by
  unfold loads
  dsimp only
  split <;> simp

theorem bounded_general (index : Index) (y z : Fin 8) :
    (general index y z).Bounded Priced 2 := by
  unfold general
  dsimp only
  split
  · exact bounded_jumps y
  · split <;> simp
  · exact bounded_loads index y
  · split <;> simp
  · exact bounded_bind (bounded_operand index y) fun o =>
      bounded_costOf _ o (by decide) (by decide) (by decide)
  · exact bounded_bind (bounded_operand index y) fun o =>
      bounded_costOf _ o (by decide) (by decide) (by decide)
  · refine bounded_bind (bounded_operand index y) fun o => ⟨Nat.le_refl 1, fun b => ?_⟩
    refine bounded_costOf _ o ?_ ?_ (by decide)
    · split <;> decide
    · split <;> decide
  · simp

theorem bounded_copies (index : Index) (y z : Fin 8) :
    (copies index y z).Bounded Priced 2 := by
  unfold copies
  split
  · simp
  · split
    · exact bounded_bind (bounded_memoryOperand index) fun o =>
        bounded_costOf _ o (by decide) (by decide) (by decide)
    · split
      · exact bounded_bind (bounded_memoryOperand index) fun o =>
          bounded_costOf _ o (by decide) (by decide) (by decide)
      · exact bounded_bind (bounded_operand index y) fun o =>
          (bounded_operand index z).bind (n := 0) fun _ _ => by simp

theorem bounded_arithmetic (index : Index) (y z : Fin 8) :
    (arithmetic index y z).Bounded Priced 2 :=
  bounded_bind (bounded_operand index z) fun o =>
    bounded_costOf _ o (by decide) (by decide) (by decide)

theorem bounded_control (index : Index) (y z : Fin 8) :
    (control index y z).Bounded Priced 2 := by
  have hb : (bit index).Bounded Priced 2 := by
    cases index with
    | hl => exact (Bit.bounded_decode .z80).mono (by decide)
    | ix | iy => exact Bit.bounded_decodeIndexed _
  have hr (p : Fin 4) : (returns index p).Bounded Priced 2 := by
    unfold returns
    split <;> simp
  have he : (exchanges index y).Bounded Priced 2 := by
    unfold exchanges
    split <;> simp [hb]
  unfold control
  dsimp only
  split
  · simp
  · split
    · simp
    · exact hr _
  · simp
  · exact he
  · simp
  · simp
  · simp
  · simp

/-- An index byte is not an instruction yet; its own fetch is paid for with the next one. -/
theorem bounded_decode (index : Index) (b : Byte) :
    (decode index b).Bounded (fun entry => ∀ i, entry = .instruction i → i.Priced) 3 := by
  have hi {f : Fetch Instruction} {n : Nat} (hf : f.Bounded Priced n) (hn : n ≤ 3) :
      (f >>= fun i => pure (Entry.instruction i)).Bounded
        (fun entry => ∀ i, entry = .instruction i → i.Priced) 3 := by
    have hg : ∀ i : Instruction, i.Priced → (pure (Entry.instruction i) : Fetch Entry).Bounded
        (fun entry => ∀ i, entry = .instruction i → i.Priced) 0 := by
      intro i hp j hj
      cases hj
      exact hp
    exact (hf.bind hg).mono hn
  unfold decode
  dsimp only
  split
  · exact hi (bounded_general _ _ _) (by decide)
  · exact hi (bounded_copies _ _ _) (by decide)
  · exact hi (bounded_arithmetic _ _ _) (by decide)
  · split
    · refine ⟨by decide, fun w i h => ?_⟩
      cases h
      simp
    · split
      · intro i h
        cases h
      · split
        · exact hi Extended.bounded_decode (by decide)
        · split
          · intro i h
            cases h
          · exact hi (bounded_control _ _ _) (by decide)

end Primary

theorem Fetch.Yields.of_locate_run {α : Type} {P : α → Prop} {f : Fetch α} (h : f.Yields P)
    {start : Word} {c d : Cursor} {value : α}
    (hr : Cursor.locate start (f.run c) = .ok (value, d)) : P value :=
  h.of_run (Cursor.locate_eq_ok.mp hr)

theorem Instruction.taken_addCost (i : Instruction) (extra : Cost) :
    (i.addCost extra).taken = i.taken := by
  cases i <;> rfl

theorem Instruction.cost_addCost (i : Instruction) (extra : Cost) :
    (i.addCost extra).cost = extra + i.cost := by
  cases i <;> rfl

theorem Instruction.declared_addCost {i : Instruction} (h : i.Declared) (extra : Cost) :
    (i.addCost extra).Declared := by
  cases i <;> exact h

/-- The bytes behind an opcode at most. -/
def Mode.reach : Mode → Nat
  | z80 => 3
  | gameBoy => 2

theorem Mode.reach_le (mode : Mode) : mode.reach ≤ 3 := by
  cases mode <;> decide

namespace Cursor

/-- What an instruction costs, and how far it reaches past the limit. The index bytes in front
of its opcode cost less than an entry of a table each. -/
structure Spends (mode : Mode) (c : Cursor) (i : Instruction) (d : Cursor) : Prop where
  consumed_lt : c.consumed < d.consumed
  fetch_le : .fetch ≤ i.cost
  within : i.cost.Within (d.consumed - c.consumed)
  taken : i.taken.Within 1
  declared : i.Declared
  consumed_le : c.consumed < limit → d.consumed ≤ limit + mode.reach

theorem Spends.within_add {mode : Mode} {c d : Cursor} {i : Instruction} {total : Cost}
    (h : Spends mode c i d) (ht : total.Within c.consumed) :
    (total + i.cost).Within d.consumed := by
  have hlt := h.consumed_lt
  exact (ht.add h.within).mono (by omega)

theorem spends_of_indexedInstruction {start : Word} {index : Index} {paid : Cost} {c d : Cursor}
    {i : Instruction} {n : Nat} (hp : paid.Within n)
    (h : indexedInstruction start index paid c = .ok (i, d)) :
    .fetch ≤ i.cost ∧ i.cost.Within (n + (d.consumed - c.consumed)) ∧ i.taken.Within 1 ∧
      i.Declared ∧ (c.consumed < limit → d.consumed ≤ limit + 3) := by
  fun_induction indexedInstruction start index paid c generalizing n with
  | case1 index paid c fault he => cases h
  | case2 index paid c j e he =>
      cases h
      have hlt := lt_consumed_of_locate_run he
      obtain ⟨hj, hd⟩ := (Primary.bounded_decode index c.byte.1).of_run (locate_eq_ok.mp he)
      obtain ⟨hf, hw, ht, hv⟩ := hj j rfl
      change d.consumed ≤ c.consumed + 1 + 3 at hd
      rw [Instruction.cost_addCost, Instruction.taken_addCost]
      exact ⟨Cost.le_add_left hf paid, (hp.add hw).mono (by omega), ht,
        Instruction.declared_addCost hv paid, by omega⟩
  | case3 index paid c k e he hl =>
      cases h
      have hd := (Primary.isIndexByte_of_run (locate_eq_ok.mp he)).2
      have hc : d.consumed = c.consumed + 1 := congrArg consumed hd
      refine ⟨Cost.le_add_left (b := ⟨1, 4⟩) (by decide) paid, ?_, Cost.within_zero 1, rfl,
        by omega⟩
      exact (hp.add (by decide : (⟨1, 4⟩ : Cost).Within 1)).mono (by omega)
  | case4 index paid c k e he hl ih =>
      have hd := (Primary.isIndexByte_of_run (locate_eq_ok.mp he)).2
      have hc : e.consumed = c.consumed + 1 := congrArg consumed hd
      have hlt := lt_consumed_of_indexedInstruction h
      obtain ⟨hf, hw, ht, hv, hr⟩ := ih (hp.add (by decide : (⟨1, 4⟩ : Cost).Within 1)) h
      simp only [limitReached_iff] at hl
      exact ⟨hf, hw.mono (by omega), ht, hv, fun _ => hr (by omega)⟩

theorem spends_of_instruction {mode : Mode} {c d : Cursor} {i : Instruction}
    (h : c.instruction mode = .ok (i, d)) : Spends mode c i d := by
  have hlt := lt_consumed_of_instruction h
  cases mode with
  | z80 =>
      obtain ⟨hf, hw, ht, hv, hr⟩ := spends_of_indexedInstruction (Cost.within_zero 0) h
      rw [Nat.zero_add] at hw
      exact ⟨hlt, hf, hw, ht, hv, hr⟩
  | gameBoy =>
      obtain ⟨⟨hf, hw, ht, hv⟩, hd⟩ :=
        (GameBoy.bounded_decode c.byte.1).of_run (locate_eq_ok.mp h)
      change d.consumed ≤ c.consumed + 1 + 2 at hd
      refine ⟨hlt, hf, hw.mono (by omega), ht, hv, fun hc => ?_⟩
      change d.consumed ≤ limit + 2
      omega

end Cursor

end Z80
