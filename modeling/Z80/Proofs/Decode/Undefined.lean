import Z80.Proofs.Decode.Boundary
import Z80.Proofs.Decode.Shared

/-!
Where decoding fails. All opcodes of the Z80 are defined but some behind ED, and all of the
Game Boy but eleven; no other fetch comes to an undefined opcode, whatever bytes it asks for.
So an instruction fails at the byte ED, behind any run of index bytes that the limit does not
cut, or with its first byte, and a block fails with the first instruction in it that does.
-/

namespace Z80

namespace Fetch

variable {α β : Type}

/-- The fetch comes to no undefined opcode. -/
def Defined : Fetch α → Prop
  | done _ => True
  | byte next => ∀ b, (next b).Defined
  | word next => ∀ w, (next w).Defined
  | undefined _ _ => False

theorem Defined.bind {f : Fetch α} (h : f.Defined) {g : α → Fetch β}
    (hg : ∀ value, (g value).Defined) : (f >>= g).Defined := by
  induction f with
  | done value => exact hg value
  | byte next ih => exact fun b => ih b (h b)
  | word next ih => exact fun w => ih w (h w)
  | undefined table opcode => exact h.elim

theorem Matches.defined_right {R : α → β → Prop} {f : Fetch α} {g : Fetch β}
    (h : f.Matches R g) : g.Defined := by
  induction f generalizing g with
  | done v =>
      cases g with
      | done w => trivial
      | byte _ | word _ | undefined _ _ => exact h.elim
  | byte next ih =>
      cases g with
      | byte other => exact fun b => ih b (h b)
      | done _ | word _ | undefined _ _ => exact h.elim
  | word next ih =>
      cases g with
      | word other => exact fun w => ih w (h w)
      | done _ | byte _ | undefined _ _ => exact h.elim
  | undefined table opcode => exact h.elim

theorem Defined.exists_run {f : Fetch α} (h : f.Defined) (c : Cursor) :
    ∃ value d, f.run c = .ok (value, d) := by
  induction f generalizing c with
  | done value => exact ⟨value, c, rfl⟩
  | byte next ih => exact ih _ (h _) _
  | word next ih => exact ih _ (h _) _
  | undefined table opcode => exact h.elim

end Fetch

theorem Bit.defined_decode (mode : Mode) : (decode mode).Defined :=
  fun _ => trivial

theorem Bit.defined_decodeIndexed (pointer : WordReg) : (decodeIndexed pointer).Defined :=
  fun _ _ => trivial

namespace Extended

/-- The opcodes that stand in the table behind ED. -/
def Defines (b : Byte) : Prop :=
  (0x40 ≤ b ∧ b ≤ 0x7F ∧ b ≠ 0x77 ∧ b ≠ 0x7F) ∨ (0xA0 ≤ b ∧ b ≤ 0xA3) ∨
    (0xA8 ≤ b ∧ b ≤ 0xAB) ∨ (0xB0 ≤ b ∧ b ≤ 0xB3) ∨ (0xB8 ≤ b ∧ b ≤ 0xBB)

instance : DecidablePred Defines :=
  fun _ => instDecidableOr

/-- By the fields of the opcode. -/
theorem defines_iff (b : Byte) :
    Defines b ↔
      ((Opcode.ofByte b).x = 1 ∧ ¬ ((Opcode.ofByte b).z = 7 ∧ 6 ≤ (Opcode.ofByte b).y.val)) ∨
        ((Opcode.ofByte b).x = 2 ∧ (Opcode.ofByte b).z.val < 4 ∧ 4 ≤ (Opcode.ofByte b).y.val) := by
  have hb := Opcode.toNat_eq b
  simp only [Defines, UInt8.le_iff_toNat_le, ne_eq, ← UInt8.toNat_inj, Fin.ext_iff]
  simp only [UInt8.reduceToNat, Fin.isValue]
  omega

/-- What follows the byte behind ED. -/
def entry (b : Byte) : Fetch Instruction :=
  let opcode := Opcode.ofByte b
  match opcode.x with
  | 1 => general b opcode.y opcode.z
  | 2 => block b opcode.y opcode.z
  | 0 | 3 => .undefined .ed b

theorem decode_eq : decode = .byte entry := rfl

theorem defined_general (b : Byte) {y z : Fin 8} (h : ¬ (z = 7 ∧ 6 ≤ y.val)) :
    (general b y z).Defined := by
  unfold general
  split
  · trivial
  · trivial
  · dsimp only
    split <;> trivial
  · intro w
    dsimp only
    split <;> trivial
  · trivial
  · trivial
  · trivial
  · split
    case h_7 => exact absurd ⟨rfl, by decide⟩ h
    case h_8 => exact absurd ⟨rfl, by decide⟩ h
    all_goals trivial

theorem defined_block (b : Byte) {y z : Fin 8} (h : z.val < 4 ∧ 4 ≤ y.val) :
    (block b y z).Defined := by
  unfold block
  rw [dif_pos h]
  dsimp only
  split <;> trivial

theorem defined_entry {b : Byte} (h : Defines b) : (entry b).Defined := by
  obtain ⟨hx, hf⟩ | ⟨hx, hf⟩ := (defines_iff b).mp h
  · simp only [entry, hx]
    exact defined_general b hf
  · simp only [entry, hx]
    exact defined_block b hf

theorem entry_of_not_defines {b : Byte} (h : ¬ Defines b) : entry b = .undefined .ed b := by
  rw [defines_iff] at h
  simp only [entry]
  generalize Opcode.ofByte b = o at h
  obtain ⟨x, y, z⟩ := o
  match x with
  | 0 | 3 => rfl
  | 1 =>
      obtain ⟨rfl, hy⟩ : z = 7 ∧ 6 ≤ y.val := by simpa using h
      match y, hy with
      | 6, _ | 7, _ => rfl
  | 2 =>
      have hf : ¬ (z.val < 4 ∧ 4 ≤ y.val) := by simpa using h
      exact dif_neg hf

end Extended

namespace Primary

theorem defined_memoryOperand (index : Index) : (memoryOperand index).Defined := by
  cases index with
  | hl => trivial
  | ix | iy => exact fun _ => trivial

/-- Only behind ED are there opcodes without a meaning. -/
theorem defined_decode (index : Index) {b : Byte} (h : b ≠ 0xED) : (decode index b).Defined := by
  by_cases hm : (Opcode.ofByte b).hasMemoryOperand = true
  · have hd := decode_of_hasMemoryOperand index hm
    simp only at hd
    rw [hd]
    refine (defined_memoryOperand index).bind fun operand => ?_
    unfold Opcode.immediate
    split
    · exact fun _ => trivial
    · trivial
  · rw [Bool.not_eq_true] at hm
    by_cases hs : b ∈ [0xCB, 0xDD, 0xFD, 0xEB, 0xD9]
    · simp only [List.mem_cons, List.not_mem_nil, or_false] at hs
      obtain rfl | rfl | rfl | rfl | rfl := hs
      · cases index with
        | hl => exact (Bit.defined_decode .z80).bind fun _ => trivial
        | ix | iy => exact (Bit.defined_decodeIndexed _).bind fun _ => trivial
      all_goals trivial
    · refine (traded_decode index ?_ hm ?_).defined_right
      · simp_all
      · simp_all

theorem decode_extended (index : Index) :
    decode index 0xED = Extended.decode >>= fun i => pure (Entry.instruction i) := rfl

/-- Behind ED the next byte decides. -/
theorem run_extended (index : Index) (c : Cursor) :
    if Extended.Defines (c.peek 0) then
      ∃ i d, (decode index 0xED).run c = .ok (.instruction i, d)
    else (decode index 0xED).run c = .error (.ed, c.peek 0) := by
  rw [decode_extended, Fetch.run_bind, Extended.decode_eq, Fetch.run_byte]
  split
  · rename_i h
    obtain ⟨i, d, hr⟩ := (Extended.defined_entry h).exists_run (c.skip 1)
    rw [hr]
    exact ⟨i, d, rfl⟩
  · rename_i h
    rw [Extended.entry_of_not_defines h]
    rfl

end Primary

namespace GameBoy

def undefinedOpcodes : List Byte :=
  [0xD3, 0xDB, 0xDD, 0xE3, 0xE4, 0xEB, 0xEC, 0xED, 0xF4, 0xFC, 0xFD]

theorem decode_of_mem {b : Byte} (h : b ∈ undefinedOpcodes) :
    decode b = .undefined .primary b := by
  simp only [undefinedOpcodes, List.mem_cons, List.not_mem_nil, or_false] at h
  obtain rfl | rfl | rfl | rfl | rfl | rfl | rfl | rfl | rfl | rfl | rfl := h <;> rfl

/-- What the Game Boy has of its own is either a hole in its table or one more instruction. -/
theorem defined_own :
    ∀ b ∈ 0xCB :: replaced ++ adjusted, b ∈ undefinedOpcodes ∨ (decode b).Defined := by
  simp only [replaced, adjusted, List.cons_append, List.nil_append, List.forall_mem_cons]
  and_intros
  all_goals first
    | exact .inl (by decide)
    | exact .inr trivial
    | exact .inr fun _ => trivial
    | exact fun _ h => absurd h List.not_mem_nil

theorem defined_decode {b : Byte} (h : b ∉ undefinedOpcodes) : (decode b).Defined := by
  by_cases ho : b ∈ 0xCB :: replaced ++ adjusted
  · exact (defined_own b ho).resolve_left h
  · simp only [List.cons_append, List.mem_cons, List.mem_append, not_or] at ho
    exact (shared_decode ho.2.1 ho.2.2 ho.1).defined_right

end GameBoy

namespace Cursor

variable {mode : Mode} {c : Cursor} {fault : DecodeFault}

/-- Behind so many index bytes, below the limit, stands ED with an opcode that its table does
not define. -/
structure UndefinedBehind (c : Cursor) (n : Nat) : Prop where
  isIndexByte : ∀ i < n, isIndexByte (c.peek i) = true
  consumed_lt : c.consumed + n < limit
  peek_eq : c.peek n = 0xED
  not_defines : ¬ Extended.Defines (c.peek (n + 1))

/-- The fault names that opcode, and the address as that of the first byte. -/
def UndefinedFrom (start : Word) (c : Cursor) (fault : DecodeFault) : Prop :=
  ∃ n, c.UndefinedBehind n ∧ fault = ⟨.ed, c.peek (n + 1), start⟩

/-- The instruction at the cursor is undefined. Its fault names the opcode, the table that
lacks it and the address of the first byte. -/
def Undefined (mode : Mode) (c : Cursor) (fault : DecodeFault) : Prop :=
  match mode with
  | .z80 => c.UndefinedFrom c.address fault
  | .gameBoy => c.peek 0 ∈ GameBoy.undefinedOpcodes ∧ fault = ⟨.primary, c.peek 0, c.address⟩

theorem undefinedBehind_succ {n : Nat} :
    c.UndefinedBehind (n + 1) ↔
      Z80.isIndexByte (c.peek 0) = true ∧ (c.skip 1).UndefinedBehind n := by
  have hp (i : Nat) : (c.skip 1).peek i = c.peek (i + 1) := by rw [peek_skip, Nat.add_comm]
  have hn : (c.skip 1).consumed + n = c.consumed + (n + 1) := by
    rw [consumed_skip, Nat.add_assoc, Nat.add_comm 1]
  constructor
  · intro h
    refine ⟨h.isIndexByte 0 (Nat.succ_pos n), ?_, hn ▸ h.consumed_lt, ?_, ?_⟩
    · intro i hi
      rw [hp]
      exact h.isIndexByte (i + 1) (Nat.succ_lt_succ hi)
    · rw [hp]
      exact h.peek_eq
    · rw [hp]
      exact h.not_defines
  · rintro ⟨h0, h⟩
    refine ⟨?_, hn ▸ h.consumed_lt, ?_, ?_⟩
    · intro i hi
      cases i with
      | zero => exact h0
      | succ i =>
          rw [← hp]
          exact h.isIndexByte i (Nat.lt_of_succ_lt_succ hi)
    · rw [← hp]
      exact h.peek_eq
    · rw [← hp]
      exact h.not_defines

/-- At an index byte the bytes behind it decide. -/
theorem undefinedFrom_iff_skip {start : Word} (hi : isIndexByte (c.peek 0) = true) :
    c.UndefinedFrom start fault ↔ (c.skip 1).UndefinedFrom start fault := by
  have hp (n : Nat) : (c.skip 1).peek (n + 1) = c.peek (n + 1 + 1) := by
    rw [peek_skip, Nat.add_comm]
  constructor
  · rintro ⟨n, hn, hf⟩
    cases n with
    | zero =>
        rw [hn.peek_eq] at hi
        cases hi
    | succ n => exact ⟨n, (undefinedBehind_succ.mp hn).2, by rw [hp, hf]⟩
  · rintro ⟨n, hn, hf⟩
    exact ⟨n + 1, undefinedBehind_succ.mpr ⟨hi, hn⟩, by rw [← hp, hf]⟩

theorem undefinedFrom_iff_of_not_isIndexByte {start : Word} (hc : c.consumed < limit)
    (hi : ¬ isIndexByte (c.peek 0) = true) :
    c.UndefinedFrom start fault ↔
      c.peek 0 = 0xED ∧ ¬ Extended.Defines (c.peek 1) ∧ fault = ⟨.ed, c.peek 1, start⟩ := by
  constructor
  · rintro ⟨n, hn, hf⟩
    obtain rfl : n = 0 := Nat.eq_zero_of_not_pos fun h => hi (hn.isIndexByte 0 h)
    exact ⟨hn.peek_eq, hn.not_defines, hf⟩
  · rintro ⟨he, hd, hf⟩
    exact ⟨0, ⟨fun _ h => absurd h (Nat.not_lt_zero _), hc, he, hd⟩, hf⟩

theorem not_undefinedFrom_of_limit_le {start : Word} (hc : limit ≤ c.consumed) :
    ¬ c.UndefinedFrom start fault := by
  rintro ⟨n, hn, -⟩
  have := hn.consumed_lt
  omega

/-- By induction on the bytes that are left below the limit. -/
theorem indexedInstruction_eq_error_iff {start : Word} {index : Index} {paid : Cost}
    (hc : c.consumed < limit) :
    indexedInstruction start index paid c = .error fault ↔ c.UndefinedFrom start fault := by
  induction hk : limit - c.consumed using Nat.strongRecOn generalizing c index paid with
  | _ k ih =>
      rw [indexedInstruction_eq]
      by_cases hi : isIndexByte (c.peek 0) = true
      · obtain ⟨register, hr⟩ := Primary.exists_run_eq_index hi
        rw [hr, undefinedFrom_iff_skip hi]
        simp only [locate]
        split
        · rename_i hl
          exact iff_of_false (fun h => by cases h)
            (not_undefinedFrom_of_limit_le ((limitReached_iff _).mp hl))
        · rename_i hl
          rw [limitReached_iff, Nat.not_le] at hl
          exact ih _ (by rw [consumed_skip]; omega) hl rfl
      · rw [undefinedFrom_iff_of_not_isIndexByte hc hi]
        by_cases he : c.peek 0 = 0xED
        · have hx := Primary.run_extended index (c.skip 1)
          rw [peek_skip] at hx
          rw [he, and_iff_right rfl]
          split at hx
          · rename_i hd
            obtain ⟨i, d, hr⟩ := hx
            rw [hr]
            exact iff_of_false (fun h => by cases h) fun h => h.1 hd
          · rename_i hd
            rw [hx, and_iff_right hd]
            simp only [locate, Except.error.injEq]
            exact eq_comm
        · obtain ⟨entry, d, hr⟩ := (Primary.defined_decode index he).exists_run (c.skip 1)
          rw [hr]
          refine iff_of_false ?_ fun h => he h.1
          cases entry with
          | instruction i => exact fun h => by cases h
          | index register => exact absurd (Primary.isIndexByte_of_run hr).1 hi

/-- Below the limit an instruction fails exactly where it is undefined. -/
theorem instruction_eq_error_iff (hc : c.consumed < limit) :
    c.instruction mode = .error fault ↔ c.Undefined mode fault := by
  cases mode with
  | z80 => exact indexedInstruction_eq_error_iff hc
  | gameBoy =>
      simp only [instruction, byte_eq, Undefined]
      by_cases h : c.peek 0 ∈ GameBoy.undefinedOpcodes
      · rw [GameBoy.decode_of_mem h]
        simp only [Fetch.run, locate, Except.error.injEq, and_iff_right h]
        exact eq_comm
      · obtain ⟨i, d, hr⟩ := (GameBoy.defined_decode h).exists_run (c.skip 1)
        rw [hr]
        exact iff_of_false (fun h => by cases h) fun hu => h hu.1

/-- The decoder comes to an undefined instruction at the cursor, or goes on to it. -/
theorem exists_reaches_undefined_iff (hc : c.consumed < limit) :
    (∃ d, Reaches mode c d ∧ d.Undefined mode fault) ↔
      match c.instruction mode with
      | .error other => other = fault
      | .ok (.exit _ _ _, _) => False
      | .ok (.operation _ _, d) =>
          ¬ d.limitReached = true ∧ ∃ e, Reaches mode d e ∧ e.Undefined mode fault := by
  constructor
  · rintro ⟨d, hr, hu⟩
    cases hr with
    | refl => rw [(instruction_eq_error_iff hc).mpr hu]
    | step hi hd hr =>
        rw [hi]
        exact ⟨hd, _, hr, hu⟩
  · split
    · rename_i hi
      rintro rfl
      exact ⟨c, .refl, (instruction_eq_error_iff hc).mp hi⟩
    · exact False.elim
    · rename_i hi
      rintro ⟨hd, e, hr, hu⟩
      exact ⟨e, .step hi hd hr, hu⟩

end Cursor

namespace Block

open Cursor (Reaches)

variable {mode : Mode} {fault : DecodeFault}

theorem compileFrom_eq_error_iff {c : Cursor} {lines : Array Line} {cost : Cost}
    (hc : c.consumed < Cursor.limit) :
    compileFrom mode c lines cost = .error fault ↔
      ∃ d, Reaches mode c d ∧ d.Undefined mode fault := by
  fun_induction compileFrom mode c lines cost with
  | case1 c lines cost other hi =>
      rw [Cursor.exists_reaches_undefined_iff hc, hi]
      exact Except.error.injEq other fault ▸ Iff.rfl
  | case2 c lines cost e extra varies d hi =>
      rw [Cursor.exists_reaches_undefined_iff hc, hi]
      exact iff_of_false nofun id
  | case3 c lines cost op extra d hi lines' cost' hl =>
      rw [Cursor.exists_reaches_undefined_iff hc, hi]
      exact iff_of_false nofun fun h => h.1 hl
  | case4 c lines cost op extra d hi lines' cost' hl ih =>
      rw [Cursor.exists_reaches_undefined_iff hc, hi]
      refine (ih ?_).trans (and_iff_right hl).symm
      rwa [Cursor.limitReached_iff, Nat.not_le] at hl

/-- A block fails with the first undefined instruction that its decoder comes to. -/
theorem compile_eq_error_iff {memory : Memory} {a : Word} :
    compile mode memory a = .error fault ↔
      ∃ c, Reaches mode (.begin memory a) c ∧ c.Undefined mode fault :=
  compileFrom_eq_error_iff (by decide : 0 < Cursor.limit)

end Block
end Z80
