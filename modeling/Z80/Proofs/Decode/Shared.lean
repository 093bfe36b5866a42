import Z80.Proofs.Decode.Index
import Z80.Proofs.Execution.Layout

/-!
What the table of the Game Boy takes over from the Z80: the same operations and exits, at a
price of its own. Five opcodes on the accumulator and the carry are taken over too, but clear
a flag on top. None of them names AF, the one register that the two processors pack
differently.
-/

namespace Z80

/-- The exit without a price for being taken. -/
def Exit.free : Exit → Exit
  | jumpIf condition target _ => .jumpIf condition target 0
  | decrementAndJump target _ => .decrementAndJump target 0
  | callIf condition address _ => .callIf condition address 0
  | retIf condition _ => .retIf condition 0
  | e => e

namespace Instruction

def sparesAF : Instruction → Bool
  | operation op _ => op.sparesAF
  | exit e _ _ => e.sparesAF

/-- The two differ in their prices only. -/
def Alike : Instruction → Instruction → Prop
  | operation op _, operation other _ => op = other
  | exit e _ _, exit other _ _ => e.free = other.free
  | _, _ => False

theorem Alike.cases {i j : Instruction} (h : i.Alike j) :
    (∃ op cost price, i = .operation op cost ∧ j = .operation op price) ∨
      ∃ e other cost price varies flag, i = .exit e cost varies ∧ j = .exit other price flag ∧
        e.free = other.free := by
  cases i with
  | operation op cost =>
      cases j with
      | operation other price => exact .inl ⟨op, cost, price, rfl, by rw [show op = other from h]⟩
      | exit _ _ _ => exact h.elim
  | exit e cost varies =>
      cases j with
      | operation _ _ => exact h.elim
      | exit other price flag =>
          exact .inr ⟨e, other, cost, price, varies, flag, rfl, rfl, h⟩

/-- An instruction of the Z80 that the Game Boy has as well. -/
def Shared (i j : Instruction) : Prop :=
  i.Alike j ∧ i.sparesAF = true

end Instruction

open Instruction (Shared)

/-- A value on the way is put into another one on both sides. -/
theorem Fetch.Matches.map_left {α β γ : Type} {R : α → β → Prop} {f : Fetch α} {g : Fetch β}
    (h : f.Matches R g) (k : α → γ) :
    (f >>= fun v => pure (k v)).Matches (fun x w => ∃ v, x = k v ∧ R v w) g := by
  induction f generalizing g with
  | done v =>
      cases g with
      | done w => exact ⟨v, rfl, h⟩
      | byte _ | word _ | undefined _ _ => exact h.elim
  | byte next ih =>
      cases g with
      | byte other => exact fun b => ih b (h b)
      | done _ | word _ | undefined _ _ => exact h.elim
  | word next ih =>
      cases g with
      | word other => exact fun w => ih w (h w)
      | done _ | byte _ | undefined _ _ => exact h.elim
  | undefined table opcode => exact h.elim

/-- What the byte behind CB stands for. -/
def Bit.instruction (mode : Mode) (byte : Byte) : Instruction :=
  let opcode := Opcode.ofByte byte
  .operation (operation mode opcode (plainOperand opcode.z) none) (cost mode opcode)

theorem Bit.run_decode (mode : Mode) (c : Cursor) :
    (decode mode).run c = .ok (instruction mode (c.peek 0), c.skip 1) :=
  Fetch.run_byte _ _

theorem Primary.run_decode_prefix (c : Cursor) :
    (decode .hl 0xCB).run c = .ok (.instruction (Bit.instruction .z80 (c.peek 0)), c.skip 1) := by
  have hd : decode .hl 0xCB = Bit.decode .z80 >>= fun i => pure (Entry.instruction i) := rfl
  rw [hd]
  exact Fetch.run_byte _ _

/-- Where neither shifts ones in or exchanges nibbles. -/
theorem Bit.operation_eq {opcode : Opcode} (h : ¬ (opcode.x = 0 ∧ opcode.y = 6))
    (operand : Operand) (copy : Option ByteReg) :
    operation .gameBoy opcode operand copy = operation .z80 opcode operand copy := by
  obtain ⟨x, y, z⟩ := opcode
  match x with
  | 0 =>
      have hs : shift .gameBoy y = shift .z80 y := by
        unfold shift
        split
        case h_7 => exact absurd ⟨rfl, rfl⟩ h
        all_goals rfl
      simp only [operation, hs]
  | 1 | 2 | 3 => rfl

theorem Bit.sparesAF_operation {mode : Mode} {opcode : Opcode} {operand : Operand}
    {copy : Option ByteReg} (h : operand.sparesAF = true) :
    (operation mode opcode operand copy).sparesAF = true := by
  unfold operation
  split <;> exact h

namespace GameBoy

/-- First bytes at which the Game Boy has another instruction than the Z80, or none. -/
def replaced : List Byte :=
  [0x08, 0x10, 0x22, 0x27, 0x2A, 0x32, 0x3A, 0xD3, 0xD9, 0xDB, 0xDD, 0xE0, 0xE2, 0xE3, 0xE4,
    0xE8, 0xEA, 0xEB, 0xEC, 0xED, 0xF0, 0xF1, 0xF2, 0xF4, 0xF5, 0xF8, 0xFA, 0xFC, 0xFD]

/-- First bytes at which it has the same instruction, but for a flag. -/
def adjusted : List Byte :=
  [0x07, 0x0F, 0x17, 0x1F, 0x3F]

@[simp] theorem shared_operation_iff (op other : Operation) (cost : Cost) (cycles : Nat) :
    (Primary.operation op cost).Matches Shared (operation other cycles) ↔
      op = other ∧ op.sparesAF = true :=
  Iff.rfl

@[simp] theorem shared_exit_iff (e other : Exit) (cost : Cost) (cycles : Nat)
    (varies flag : Bool) : (Primary.exit e cost varies).Matches Shared (exit other cycles flag) ↔
      e.free = other.free ∧ e.sparesAF = true :=
  Iff.rfl

@[simp] theorem sparesAF_plainOperand (field : Fin 8) :
    (plainOperand field).sparesAF = true := by
  revert field
  decide

/-- Behind CB the two differ only where the Game Boy exchanges nibbles. -/
theorem shared_bit {b : Byte} (h : ¬ (0x30 ≤ b ∧ b ≤ 0x37)) :
    Shared (Bit.instruction .z80 b) (Bit.instruction .gameBoy b) := by
  have ho : ¬ ((Opcode.ofByte b).x = 0 ∧ (Opcode.ofByte b).y = 6) := by
    rintro ⟨hx, hy⟩
    have hn := Opcode.toNat_eq b
    have hz := (Opcode.ofByte b).z.isLt
    rw [hx, hy] at hn
    simp only [UInt8.le_iff_toNat_le, UInt8.reduceToNat, hn] at h
    omega
  exact ⟨(Bit.operation_eq ho _ _).symm, Bit.sparesAF_operation (sparesAF_plainOperand _)⟩

theorem operand_eq (field : Fin 8) : Primary.operand .hl field = pure (plainOperand field) := by
  match field with
  | 0 | 1 | 2 | 3 | 4 | 5 | 6 | 7 => rfl

theorem pairOf_ne (p : Fin 4) : Index.hl.pairOf p ≠ .af := by
  revert p
  decide

theorem stackPairOf_ne {p : Fin 4} (h : p ≠ 3) : Index.hl.stackPairOf p ≠ .af := by
  revert p
  decide

attribute [local simp] Operation.sparesAF Operand.sparesAF Exit.sparesAF Exit.free

theorem shared_jumps {y : Fin 8} (h : y ≠ 1 ∧ y ≠ 2) :
    (Primary.jumps y).Matches Shared (jumps y) := by
  unfold Primary.jumps jumps
  match y with
  | 1 => exact absurd rfl h.1
  | 2 => exact absurd rfl h.2
  | 0 | 3 | 4 | 5 | 6 | 7 => simp

theorem shared_loads {y : Fin 8} (h : y.val < 4) :
    (Primary.loads .hl y).Matches Shared (loads y) := by
  unfold Primary.loads loads
  match y with
  | 0 | 1 | 2 | 3 => simp

theorem shared_accumulator {y : Fin 8} (h : y = 5 ∨ y = 6) :
    Primary.accumulator y = accumulator y ∧ (Primary.accumulator y).sparesAF = true := by
  obtain rfl | rfl := h <;> exact ⟨rfl, rfl⟩

/-- The opcodes 00 to 3F. -/
theorem shared_general {y z : Fin 8} (h0 : z = 0 → y ≠ 1 ∧ y ≠ 2) (h2 : z = 2 → y.val < 4)
    (h7 : z = 7 → y = 5 ∨ y = 6) :
    (Primary.general .hl y z).Matches Shared (general y z) := by
  have hp := pairOf_ne (pairField y)
  have ho := sparesAF_plainOperand y
  match z with
  | 0 => exact shared_jumps (h0 rfl)
  | 1 =>
      simp only [Primary.general, general]
      split
      · simp [pair, hp]
      · simp [pair, hp, Index.pair]
  | 2 => exact shared_loads (h2 rfl)
  | 3 =>
      simp only [Primary.general, general]
      split <;> simp [pair, hp]
  | 4 | 5 =>
      simp only [Primary.general, general, operand_eq]
      exact ⟨rfl, ho⟩
  | 6 =>
      simp only [Primary.general, general, operand_eq]
      exact fun _ => ⟨rfl, Bool.and_eq_true_iff.mpr ⟨ho, rfl⟩⟩
  | 7 => exact shared_accumulator (h7 rfl)

/-- The opcodes 40 to 7F. -/
theorem shared_copies (y z : Fin 8) : (Primary.copies .hl y z).Matches Shared (copies y z) := by
  have six {field : Fin 8} (h : field.val = 6) : plainOperand field = .indirect .hl := by
    obtain rfl : field = 6 := Fin.ext h
    rfl
  have hl {destination source : Operand} (hd : destination.sparesAF = true)
      (hs : source.sparesAF = true) (cost : Cost) (cycles : Nat) :
      (Primary.operation (.load destination source) cost).Matches Shared
        (operation (.load destination source) cycles) :=
    ⟨rfl, Bool.and_eq_true_iff.mpr ⟨hd, hs⟩⟩
  simp only [Primary.copies, copies, operand_eq]
  split
  · simp
  · split
    · rename_i h
      rw [six h]
      exact hl rfl (sparesAF_plainOperand z) _ _
    · split
      · rename_i h
        rw [six h]
        exact hl (sparesAF_plainOperand y) rfl _ _
      · exact hl (sparesAF_plainOperand y) (sparesAF_plainOperand z) _ _

/-- The opcodes 80 to BF. -/
theorem shared_arithmetic (y z : Fin 8) :
    (Primary.arithmetic .hl y z).Matches Shared (arithmetic y z) := by
  simp only [Primary.arithmetic, operand_eq]
  exact ⟨rfl, sparesAF_plainOperand z⟩

theorem shared_conditional (b : Byte) {y z : Fin 8} (hy : y.val < 4)
    (hz : z = 0 ∨ z = 2 ∨ z = 4) :
    (Primary.control .hl y z).Matches Shared (conditional b y z) := by
  unfold conditional
  rw [if_pos hy]
  obtain rfl | rfl | rfl := hz <;> simp [Primary.control]

theorem shared_returns {p : Fin 4} (h : p ≠ 1) :
    (Primary.returns .hl p).Matches Shared (returns p) := by
  match p with
  | 1 => exact absurd rfl h
  | 0 | 2 | 3 => simp [Primary.returns, returns, Index.pair]

/-- The opcodes C0 to FF but for CB and CALL. -/
theorem shared_control (b : Byte) {y z : Fin 8} (h0 : z = 0 ∨ z = 2 ∨ z = 4 → y.val < 4)
    (h1 : z = 1 → y.val ≠ 3 ∧ y.val ≠ 6) (h3 : z = 3 → y = 0 ∨ y = 6 ∨ y = 7)
    (h5 : z = 5 → y.val % 2 = 0 ∧ y.val ≠ 6) :
    (Primary.control .hl y z).Matches Shared (control b y z) := by
  match z with
  | 0 => exact shared_conditional b (h0 (.inl rfl)) (.inl rfl)
  | 2 => exact shared_conditional b (h0 (.inr (.inl rfl))) (.inr (.inl rfl))
  | 4 => exact shared_conditional b (h0 (.inr (.inr rfl))) (.inr (.inr rfl))
  | 1 =>
      obtain ⟨hx, haf⟩ := h1 rfl
      simp only [Primary.control, control]
      split
      · have hp : pairField y ≠ 3 := fun hp => by
          have hv : y.val / 2 = 3 := congrArg Fin.val hp
          omega
        simp [stackPair, stackPairOf_ne hp]
      · have hp : pairField y ≠ 1 := fun hp => by
          have hv : y.val / 2 = 1 := congrArg Fin.val hp
          omega
        exact shared_returns hp
  | 3 =>
      obtain rfl | rfl | rfl := h3 rfl
      · exact fun _ => ⟨rfl, rfl⟩
      · exact ⟨rfl, rfl⟩
      · exact ⟨rfl, rfl⟩
  | 5 =>
      obtain ⟨he, haf⟩ := h5 rfl
      have hp : pairField y ≠ 3 := fun hp => by
        have hv : y.val / 2 = 3 := congrArg Fin.val hp
        omega
      simp [Primary.control, control, he, stackPair, stackPairOf_ne hp]
  | 6 => exact fun _ => ⟨rfl, rfl⟩
  | 7 => exact ⟨rfl, rfl⟩

theorem fields_of_not_mem_low : ∀ y z : Fin 8,
    let b := UInt8.ofNat (64 * (0 : Fin 4).val + 8 * y.val + z.val)
    b ∉ replaced → b ∉ adjusted →
      (z = 0 → y ≠ 1 ∧ y ≠ 2) ∧ (z = 2 → y.val < 4) ∧ (z = 7 → y = 5 ∨ y = 6) := by
  decide +kernel

theorem fields_of_not_mem_high : ∀ y z : Fin 8,
    let b := UInt8.ofNat (64 * (3 : Fin 4).val + 8 * y.val + z.val)
    b ∉ replaced → b ≠ 0xCB → ¬ (z.val = 5 ∧ y.val = 1) →
      (z = 0 ∨ z = 2 ∨ z = 4 → y.val < 4) ∧ (z = 1 → y.val ≠ 3 ∧ y.val ≠ 6) ∧
      (z = 3 → y = 0 ∨ y = 6 ∨ y = 7) ∧ (z.val = 5 → y.val % 2 = 0 ∧ y.val ≠ 6) := by
  decide +kernel

/-- Everything else but the opcodes behind CB is the same instruction in both tables. -/
theorem shared_decode {b : Byte} (hr : b ∉ replaced) (ha : b ∉ adjusted) (hcb : b ≠ 0xCB) :
    (Primary.decode .hl b).Matches (fun e j => ∃ i, e = .instruction i ∧ Shared i j)
      (decode b) := by
  have hb : b = .ofNat b.toNat := UInt8.ofNat_toNat.symm
  rw [Opcode.toNat_eq] at hb
  simp only [Primary.decode, decode]
  generalize Opcode.ofByte b = o at hb
  obtain ⟨x, y, z⟩ := o
  simp only at hb ⊢
  match x with
  | 0 =>
      rw [hb] at hr ha
      obtain ⟨h0, h2, h7⟩ := fields_of_not_mem_low y z hr ha
      exact (shared_general h0 h2 h7).map_left _
  | 1 => exact (shared_copies y z).map_left _
  | 2 => exact (shared_arithmetic y z).map_left _
  | 3 =>
      by_cases hc : z.val = 5 ∧ y.val = 1
      · obtain rfl : z = 5 := Fin.ext hc.1
        obtain rfl : y = 1 := Fin.ext hc.2
        exact fun w => ⟨_, rfl, rfl, rfl⟩
      · rw [hb] at hr hcb
        obtain ⟨h0, h1, h3, h5⟩ := fields_of_not_mem_high y z hr hcb hc
        -- The index bytes and ED have odd fields.
        have hodd {n : Nat} (hn : n % 2 = 1) : ¬ (z.val = 5 ∧ y.val = n) := by
          rintro ⟨hz, rfl⟩
          have := (h5 hz).1
          omega
        simp only [if_neg hc, if_neg (hodd (n := 3) rfl), if_neg (hodd (n := 5) rfl),
          if_neg (hodd (n := 7) rfl)]
        exact (shared_control b h0 h1 h3 fun hz => h5 (congrArg Fin.val hz)).map_left _

end GameBoy
end Z80
