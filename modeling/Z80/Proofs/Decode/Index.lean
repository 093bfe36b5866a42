import Z80.Proofs.Decode.Locality
import Z80.Proofs.Execution.Exchange

/-!
What an index register changes in the table of opcodes. Either an opcode has a memory
operand, and then a displacement is fetched and everything else in it keeps its meaning; or
it has none, and then the same instruction comes out under the traded names. EX DE,HL, EXX
and the table behind ED are left alone.
-/

namespace Z80

namespace Fetch

variable {α β : Type}

/-- Two fetches that ask for the same bytes and never come to an undefined opcode. -/
def Matches (R : α → β → Prop) : Fetch α → Fetch β → Prop
  | done v, done w => R v w
  | byte f, byte g => ∀ b, (f b).Matches R (g b)
  | word f, word g => ∀ w, (f w).Matches R (g w)
  | _, _ => False

variable {R : α → β → Prop}

@[simp] theorem matches_pure (v : α) (w : β) :
    (pure v : Fetch α).Matches R (pure w : Fetch β) ↔ R v w :=
  Iff.rfl

@[simp] theorem matches_nextByte (f : Byte → Fetch α) (g : Byte → Fetch β) :
    (nextByte >>= f).Matches R (nextByte >>= g) ↔ ∀ b, (f b).Matches R (g b) :=
  Iff.rfl

@[simp] theorem matches_nextWord (f : Word → Fetch α) (g : Word → Fetch β) :
    (nextWord >>= f).Matches R (nextWord >>= g) ↔ ∀ w, (f w).Matches R (g w) :=
  Iff.rfl

theorem Matches.bind {γ δ : Type} {S : γ → δ → Prop} {f : Fetch α} {g : Fetch β}
    (h : f.Matches R g) {k : α → Fetch γ} {l : β → Fetch δ}
    (hk : ∀ v w, R v w → (k v).Matches S (l w)) : (f >>= k).Matches S (g >>= l) := by
  induction f generalizing g with
  | done v =>
      cases g with
      | done w => exact hk v w h
      | byte _ | word _ | undefined _ _ => exact h.elim
  | byte next ih =>
      cases g with
      | byte other => exact fun b => ih b (h b)
      | done _ | word _ | undefined _ _ => exact h.elim
  | word next ih =>
      cases g with
      | word other => exact fun w => ih w (h w)
      | done _ | byte _ | undefined _ _ => exact h.elim
  | undefined table opcode => exact h.elim

theorem run_byte (next : Byte → Fetch α) (c : Cursor) :
    (byte next).run c = (next (c.peek 0)).run (c.skip 1) := by
  simp only [run, Cursor.byte_eq]

theorem run_word (next : Word → Fetch α) (c : Cursor) :
    (word next).run c = (next (.ofBytes (c.peek 0) (c.peek 1))).run (c.skip 2) := by
  simp only [run, Cursor.word_eq]

theorem run_eq_error {f : Fetch α} {c d : Cursor} {e : OpcodeTable × Byte}
    (h : f.run c = .error e) (hp : ∀ i, d.peek i = c.peek i) : f.run d = .error e := by
  induction f generalizing c d with
  | done v => cases h
  | byte next ih =>
      rw [run_byte] at h ⊢
      rw [hp]
      refine ih _ h fun i => ?_
      rw [Cursor.peek_skip, Cursor.peek_skip, hp]
  | word next ih =>
      rw [run_word] at h ⊢
      rw [hp, hp]
      refine ih _ h fun i => ?_
      rw [Cursor.peek_skip, Cursor.peek_skip, hp]
  | undefined table opcode => exact h

theorem Matches.exists_run {f : Fetch α} {g : Fetch β} (h : f.Matches R g) {c d : Cursor}
    (hp : ∀ i, d.peek i = c.peek i) :
    ∃ v w n, f.run c = .ok (v, c.skip n) ∧ g.run d = .ok (w, d.skip n) ∧ R v w := by
  induction f generalizing g c d with
  | done v =>
      cases g with
      | done w => exact ⟨v, w, 0, rfl, rfl, h⟩
      | byte _ | word _ | undefined _ _ => exact h.elim
  | byte next ih =>
      cases g with
      | byte other =>
          have hs (i : Nat) : (d.skip 1).peek i = (c.skip 1).peek i := by
            rw [Cursor.peek_skip, Cursor.peek_skip, hp]
          obtain ⟨v, w, n, hf, hg, hr⟩ := ih _ (h (c.peek 0)) hs
          refine ⟨v, w, 1 + n, ?_, ?_, hr⟩
          · rw [run_byte, hf, Cursor.skip_skip]
          · rw [run_byte, hp, hg, Cursor.skip_skip]
      | done _ | word _ | undefined _ _ => exact h.elim
  | word next ih =>
      cases g with
      | word other =>
          have hs (i : Nat) : (d.skip 2).peek i = (c.skip 2).peek i := by
            rw [Cursor.peek_skip, Cursor.peek_skip, hp]
          obtain ⟨v, w, n, hf, hg, hr⟩ := ih _ (h (.ofBytes (c.peek 0) (c.peek 1))) hs
          refine ⟨v, w, 2 + n, ?_, ?_, hr⟩
          · rw [run_word, hf, Cursor.skip_skip]
          · rw [run_word, hp, hp, hg, Cursor.skip_skip]
      | done _ | byte _ | undefined _ _ => exact h.elim
  | undefined table opcode => exact h.elim

end Fetch

namespace Instruction

def exchangeHL (index : Index) : Instruction → Instruction
  | operation op cost => .operation (op.exchangeHL index) cost
  | exit e cost varies => .exit (e.exchangeHL index) cost varies

def NamesRegisters : Instruction → Prop
  | operation op _ => op.NamesRegisters
  | exit e _ _ => e.NamesRegisters

/-- The second instruction is the first one under the traded names. -/
def Traded (index : Index) (i j : Instruction) : Prop :=
  i.NamesRegisters ∧ j = i.exchangeHL index

end Instruction

namespace Index

/-- The byte that selects an index register. -/
def SelectedBy : Index → Byte → Prop
  | hl, _ => False
  | ix, b => b = 0xDD
  | iy, b => b = 0xFD

/-- The bytes that the memory operand takes in the instruction. -/
def displacements : Index → Nat
  | hl => 0
  | ix | iy => 1

def operand (displacement : Byte) : Index → Operand
  | hl => .indirect .hl
  | ix => .indexed .ix displacement
  | iy => .indexed .iy displacement

end Index

namespace Opcode

/-- Field 6 of an increment, a decrement, a load or an arithmetic instruction stands for
the byte at HL. -/
def hasMemoryOperand (o : Opcode) : Bool :=
  match o.x with
  | 0 => o.y.val = 6 && (o.z.val = 4 || o.z.val = 5 || o.z.val = 6)
  | 1 => (o.y.val = 6) != (o.z.val = 6)
  | 2 => o.z.val = 6
  | 3 => false

/-- The opcodes with one: INC, DEC and LD n; LD to and from it, HALT apart; arithmetic. -/
theorem cases_of_hasMemoryOperand {o : Opcode} (h : o.hasMemoryOperand = true) :
    (∃ z, (z = 4 ∨ z = 5 ∨ z = 6) ∧ o = ⟨0, 6, z⟩) ∨ (∃ z, z ≠ 6 ∧ o = ⟨1, 6, z⟩) ∨
      (∃ y, y ≠ 6 ∧ o = ⟨1, y, 6⟩) ∨ ∃ y, o = ⟨2, y, 6⟩ := by
  obtain ⟨x, y, z⟩ := o
  match x with
  | 0 =>
      simp only [hasMemoryOperand, Bool.and_eq_true, Bool.or_eq_true, decide_eq_true_eq] at h
      obtain ⟨hy, hz⟩ := h
      exact .inl ⟨z, by omega, by rw [Fin.ext (b := 6) hy]⟩
  | 1 =>
      simp only [hasMemoryOperand, bne_iff_ne, ne_eq, decide_eq_decide] at h
      by_cases hy : y.val = 6
      · exact .inr (.inl ⟨z, by omega, by rw [Fin.ext (b := 6) hy]⟩)
      · have hz : z.val = 6 := by omega
        exact .inr (.inr (.inl ⟨y, by omega, by rw [Fin.ext (b := 6) hz]⟩))
  | 2 =>
      simp only [hasMemoryOperand, decide_eq_true_eq] at h
      exact .inr (.inr (.inr ⟨y, by rw [Fin.ext (b := 6) h]⟩))
  | 3 => cases h

/-- What an opcode with a memory operand does, with that operand left open. -/
def onOperand (o : Opcode) (immediate : Byte) (operand : Operand) : Operation :=
  match o.x with
  | 0 =>
    if o.z.val = 4 then .increment operand
    else if o.z.val = 5 then .decrement operand
    else .load operand (.immediate immediate)
  | 1 =>
    if o.y.val = 6 then .load operand (plainOperand o.z) else .load (plainOperand o.y) operand
  | 2 | 3 => .binary (.ofField o.y) operand

/-- Only the load of a byte has one. -/
def hasImmediate (o : Opcode) : Bool :=
  o.x.val = 0 && o.z.val = 6

def immediate (o : Opcode) : Fetch Byte :=
  if o.hasImmediate then .nextByte else pure 0

def immediates (o : Opcode) : Nat :=
  if o.hasImmediate then 1 else 0

/-- The displacement of that load is added while its immediate byte is fetched. -/
def memoryCost (o : Opcode) (operand : Operand) : Cost :=
  match o.x, operand with
  | 0, .indexed _ _ => if o.hasImmediate then ⟨4, 15⟩ else ⟨5, 19⟩
  | 0, _ => if o.hasImmediate then ⟨3, 10⟩ else ⟨3, 11⟩
  | _, .indexed _ _ => ⟨4, 15⟩
  | _, _ => ⟨2, 7⟩

theorem onOperand_congr {o : Opcode} (h : o.hasMemoryOperand = true)
    (hi : o.hasImmediate = false) (v w : Byte) (operand : Operand) :
    o.onOperand v operand = o.onOperand w operand := by
  obtain ⟨z, rfl | rfl | rfl, rfl⟩ | ⟨z, -, rfl⟩ | ⟨y, -, rfl⟩ | ⟨y, rfl⟩ :=
    cases_of_hasMemoryOperand h
  case inl.inr.inr => cases hi
  all_goals rfl

end Opcode

namespace Primary

open Instruction (Traded)

variable (index : Index)

@[simp] theorem exchangeHL_pair : WordReg.exchangeHL index Index.hl.pair = index.pair := by
  cases index <;> rfl

@[simp] theorem exchangeHL_pairOf (p : Fin 4) :
    WordReg.exchangeHL index (Index.hl.pairOf p) = index.pairOf p := by
  revert p
  cases index <;> decide

@[simp] theorem exchangeHL_stackPairOf (p : Fin 4) :
    WordReg.exchangeHL index (Index.hl.stackPairOf p) = index.stackPairOf p := by
  revert p
  cases index <;> decide

@[simp] theorem exchangeHL_a : ByteReg.exchangeHL index .a = .a := by
  cases index <;> rfl

@[simp] theorem exchangeHL_bc : WordReg.exchangeHL index .bc = .bc := by
  cases index <;> rfl

@[simp] theorem exchangeHL_de : WordReg.exchangeHL index .de = .de := by
  cases index <;> rfl

@[simp] theorem exchangeHL_sp : WordReg.exchangeHL index .sp = .sp := by
  cases index <;> rfl

/-- Every field but 6 names a register. -/
theorem operand_of_ne {y : Fin 8} (hy : y ≠ 6) :
    ∃ reg, operand .hl y = pure (.register reg) ∧
      operand index y = pure (.register (reg.exchangeHL index)) := by
  match y with
  | 0 => exact ⟨.b, rfl, by cases index <;> rfl⟩
  | 1 => exact ⟨.c, rfl, by cases index <;> rfl⟩
  | 2 => exact ⟨.d, rfl, by cases index <;> rfl⟩
  | 3 => exact ⟨.e, rfl, by cases index <;> rfl⟩
  | 4 => exact ⟨.h, rfl, by cases index <;> rfl⟩
  | 5 => exact ⟨.l, rfl, by cases index <;> rfl⟩
  | 6 => exact absurd rfl hy
  | 7 => exact ⟨.a, rfl, by cases index <;> rfl⟩

@[simp] theorem traded_operation_iff (op other : Operation) (cost price : Cost) :
    (operation op cost).Matches (Traded index) (operation other price) ↔
      op.NamesRegisters ∧
        Instruction.operation other price = .operation (op.exchangeHL index) cost :=
  Iff.rfl

@[simp] theorem traded_exit_iff (e other : Exit) (cost price : Cost) (varies flag : Bool) :
    (exit e cost varies).Matches (Traded index) (exit other price flag) ↔
      e.NamesRegisters ∧
        Instruction.exit other price flag = .exit (e.exchangeHL index) cost varies :=
  Iff.rfl

attribute [local simp] Operation.NamesRegisters.eq_def Operation.exchangeHL Operand.exchangeHL
  Exit.NamesRegisters Exit.exchangeHL

theorem traded_jumps (y : Fin 8) : (jumps y).Matches (Traded index) (jumps y) := by
  unfold jumps
  split <;> simp

theorem traded_loads (y : Fin 8) : (loads .hl y).Matches (Traded index) (loads index y) := by
  unfold loads
  dsimp only
  split <;> simp

/-- An instruction whose operand is in a register. -/
theorem traded_operand {y : Fin 8} (hy : y ≠ 6) {f g : Operand → Fetch Instruction}
    (h : ∀ reg : ByteReg,
      (f (.register reg)).Matches (Traded index) (g (.register (reg.exchangeHL index)))) :
    (operand .hl y >>= f).Matches (Traded index) (operand index y >>= g) := by
  obtain ⟨reg, hf, hg⟩ := operand_of_ne index hy
  rw [hf, hg]
  exact h reg

theorem traded_general {y z : Fin 8} (h : ¬ (y = 6 ∧ (z = 4 ∨ z = 5 ∨ z = 6))) :
    (general .hl y z).Matches (Traded index) (general index y z) := by
  have hy (hz : z = 4 ∨ z = 5 ∨ z = 6) : y ≠ 6 := fun hy => h ⟨hy, hz⟩
  unfold general
  dsimp only
  split
  · exact traded_jumps index y
  · split <;> simp
  · exact traded_loads index y
  · split <;> simp
  · refine traded_operand index (hy (by decide)) fun reg => ?_
    simp [costOf, Operand.isMemory]
  · refine traded_operand index (hy (by decide)) fun reg => ?_
    simp [costOf, Operand.isMemory]
  · refine traded_operand index (hy (by decide)) fun reg => ?_
    simp [costOf, Operand.isMemory]
  · unfold accumulator
    split <;> simp

theorem traded_copies {y z : Fin 8} (h : y = 6 ↔ z = 6) :
    (copies .hl y z).Matches (Traded index) (copies index y z) := by
  by_cases hy : y = 6
  · have hz := h.mp hy
    subst hy
    subst hz
    exact ⟨trivial, rfl⟩
  · have hz : z ≠ 6 := fun hz => hy (h.mpr hz)
    have hy' : ¬ y.val = 6 := fun hv => hy (Fin.ext hv)
    have hz' : ¬ z.val = 6 := fun hv => hz (Fin.ext hv)
    simp only [copies, hy', hz', false_and, if_false]
    refine traded_operand index hy fun reg => ?_
    refine traded_operand index hz fun other => ?_
    simp

theorem traded_arithmetic (y : Fin 8) {z : Fin 8} (h : z ≠ 6) :
    (arithmetic .hl y z).Matches (Traded index) (arithmetic index y z) := by
  refine traded_operand index h fun reg => ?_
  simp [costOf, Operand.isMemory]

theorem traded_returns {p : Fin 4} (h : p ≠ 1) :
    (returns .hl p).Matches (Traded index) (returns index p) := by
  match p with
  | 0 => simp [returns]
  | 1 => exact absurd rfl h
  | 2 => simp [returns]
  | 3 => simp [returns]

theorem traded_exchanges {y : Fin 8} (hb : y ≠ 1) (he : y ≠ 5) :
    (exchanges .hl y).Matches (Traded index) (exchanges index y) := by
  unfold exchanges
  split
  case h_2 => exact absurd rfl hb
  case h_6 => exact absurd rfl he
  all_goals simp

/-- The last quarter of the table, but for CB, EX DE,HL and EXX. -/
theorem traded_control {y z : Fin 8} (hb : ¬ (z = 3 ∧ (y = 1 ∨ y = 5))) (hx : ¬ (z = 1 ∧ y = 3)) :
    (control .hl y z).Matches (Traded index) (control index y z) := by
  unfold control
  dsimp only
  split
  · simp
  · split
    · simp
    · rename_i hy
      refine traded_returns index fun hp => hx ⟨rfl, Fin.ext ?_⟩
      have hv := congrArg Fin.val hp
      change y.val / 2 = 1 at hv
      change y.val = 3
      omega
  · simp
  · exact traded_exchanges index (fun hy => hb ⟨rfl, .inl hy⟩) fun hy => hb ⟨rfl, .inr hy⟩
  · simp
  · simp
  · simp
  · simp

/-- An opcode without a memory operand that is no prefix itself does the same under the
traded names, unless it is EX DE,HL or EXX. -/
theorem traded_decode {b : Byte} (hp : b ∉ [0xCB, 0xDD, 0xED, 0xFD])
    (hm : (Opcode.ofByte b).hasMemoryOperand = false) (he : b ∉ [0xEB, 0xD9]) :
    (decode .hl b).Matches
      (fun e f => ∃ i j, e = .instruction i ∧ f = .instruction j ∧ Traded index i j)
      (decode index b) := by
  have hi {f g : Fetch Instruction} (h : f.Matches (Traded index) g) :
      (f >>= fun i => pure (Entry.instruction i)).Matches
        (fun e f => ∃ i j, e = .instruction i ∧ f = .instruction j ∧ Traded index i j)
        (g >>= fun i => pure (Entry.instruction i)) :=
    h.bind fun i j ht => ⟨i, j, rfl, rfl, ht⟩
  have hb := Opcode.toNat_eq b
  have is_six (v : Fin 8) : v = 6 ↔ v.val = 6 := Fin.ext_iff
  have ne (n : Byte) (hn : n ∈ [0xCB, 0xDD, 0xED, 0xFD] ∨ n ∈ [0xEB, 0xD9]) :
      b.toNat ≠ n.toNat := by
    intro h
    rw [UInt8.toNat_inj] at h
    subst h
    exact hn.elim hp he
  simp only [decode]
  generalize Opcode.ofByte b = o at hm hb
  obtain ⟨x, y, z⟩ := o
  simp only [Opcode.hasMemoryOperand] at hm hb ⊢
  match x with
  | 0 =>
      refine hi (traded_general index fun h => ?_)
      obtain ⟨rfl, rfl | rfl | rfl⟩ := h <;> cases hm
  | 1 =>
      refine hi (traded_copies index ?_)
      simpa [is_six] using hm
  | 2 =>
      refine hi (traded_arithmetic index y ?_)
      simpa [is_six] using hm
  | 3 =>
      have hcb := ne 0xCB (.inl (by decide))
      have hdd := ne 0xDD (.inl (by decide))
      have hed := ne 0xED (.inl (by decide))
      have hfd := ne 0xFD (.inl (by decide))
      have heb := ne 0xEB (.inr (by decide))
      have hd9 := ne 0xD9 (.inr (by decide))
      simp only [UInt8.reduceToNat, Fin.isValue] at *
      split
      · intro w
        exact ⟨_, _, rfl, rfl, trivial, rfl⟩
      · have h3 : ¬ (z.val = 5 ∧ y.val = 3) := by omega
        have h5 : ¬ (z.val = 5 ∧ y.val = 5) := by omega
        have h7 : ¬ (z.val = 5 ∧ y.val = 7) := by omega
        simp only [if_neg h3, if_neg h5, if_neg h7]
        refine hi (traded_control index ?_ ?_)
        · rintro ⟨rfl, rfl | rfl⟩ <;> omega
        · rintro ⟨rfl, rfl⟩
          omega

/-- An opcode with a memory operand fetches the operand first and then does with it what it
does with the byte at HL. -/
theorem decode_of_hasMemoryOperand {b : Byte} (h : (Opcode.ofByte b).hasMemoryOperand = true) :
    let o := Opcode.ofByte b
    decode index b = do
      let operand ← memoryOperand index
      let immediate ← o.immediate
      return .instruction (.operation (o.onOperand immediate operand) (o.memoryCost operand)) := by
  simp only [decode]
  generalize Opcode.ofByte b = o at h
  obtain ⟨z, hz, rfl⟩ | ⟨z, hz, rfl⟩ | ⟨y, hy, rfl⟩ | ⟨y, rfl⟩ :=
    Opcode.cases_of_hasMemoryOperand h
  · obtain rfl | rfl | rfl := hz <;> cases index <;> rfl
  · have hz' : ¬ z.val = 6 := fun hv => hz (Fin.ext hv)
    simp only [copies, hz', and_false, if_false]
    cases index <;> rfl
  · have hy' : ¬ y.val = 6 := fun hv => hy (Fin.ext hv)
    simp only [copies, hy', false_and, if_false]
    cases index <;> simp only [Opcode.onOperand, hy', if_false] <;> rfl
  · cases index <;> rfl

theorem run_of_hasMemoryOperand {b : Byte} (h : (Opcode.ofByte b).hasMemoryOperand = true)
    (c : Cursor) :
    let o := Opcode.ofByte b
    let operand := index.operand (c.peek 0)
    let n := index.displacements
    (decode index b).run c =
      .ok (.instruction
        (.operation (o.onOperand (c.peek n) operand) (o.memoryCost operand)),
        c.skip (n + o.immediates)) := by
  intro o operand n
  have hd := decode_of_hasMemoryOperand index h
  simp only at hd
  rw [hd]
  -- The immediate byte follows the displacement, if there is one.
  have hrun (x : Operand) (d : Cursor) :
      (do
        let immediate ← o.immediate
        return Entry.instruction (.operation (o.onOperand immediate x) (o.memoryCost x)) :
          Fetch Entry).run d =
        .ok (.instruction (.operation (o.onOperand (d.peek 0) x) (o.memoryCost x)),
          d.skip o.immediates) := by
    simp only [Opcode.immediate, Opcode.immediates]
    cases hi : o.hasImmediate with
    | true => exact Fetch.run_byte _ _
    | false =>
        rw [Opcode.onOperand_congr h hi (d.peek 0) 0]
        rfl
  cases index with
  | hl =>
      have hn : n + o.immediates = o.immediates := Nat.zero_add _
      rw [hn]
      exact hrun (.indirect .hl) c
  | ix | iy =>
      refine (Fetch.run_byte _ _).trans ((hrun (.indexed _ (c.peek 0)) (c.skip 1)).trans ?_)
      rw [Cursor.peek_skip, Cursor.skip_skip]
      rfl

/-- EX DE,HL, EXX and the byte ED. -/
theorem decode_of_unaffected {b : Byte} (h : b ∈ [0xEB, 0xD9, 0xED]) :
    decode index b = decode .hl b := by
  simp only [List.mem_cons, List.not_mem_nil, or_false] at h
  obtain rfl | rfl | rfl := h <;> cases index <;> rfl

end Primary
end Z80
