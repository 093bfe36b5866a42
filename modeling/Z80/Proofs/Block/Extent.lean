import Z80.Proofs.Decode.Price

/-!
Where a block ends. The decoder goes from one instruction to the next until one of them is an
exit or takes it to the byte limit. So every instruction begins below the limit, and a block
passes it only by the bytes behind its last opcode.
-/

namespace Z80

/-- Jumps, calls and returns. The other exits go on behind themselves. -/
def Exit.transfers : Exit → Bool
  | jump _ | jumpIf _ _ _ | jumpToRegister _ | decrementAndJump _ _ | call _ | callIf _ _ _
  | ret | retIf _ _ | returnFromInterrupt | returnAndEnableInterrupts => true
  | repeatBlock _ _ | halt => false

theorem Exit.transfers_or (e : Exit) :
    e.transfers = true ∨ (∃ kind direction, e = .repeatBlock kind direction) ∨ e = .halt := by
  cases e with
  | repeatBlock kind direction => exact .inr (.inl ⟨kind, direction, rfl⟩)
  | halt => exact .inr (.inr rfl)
  | _ => exact .inl rfl

namespace Block

variable {mode : Mode} {memory : Memory} {a : Word}

/-- The decoder of the block at an address comes to the cursor, behind instructions that cost
`total` together. -/
inductive Comes (mode : Mode) (memory : Memory) (a : Word) : Cursor → Cost → Prop
  | begin : Comes mode memory a (.begin memory a) 0
  | step {c d : Cursor} {op : Operation} {cost total : Cost} :
      Comes mode memory a c total → c.instruction mode = .ok (.operation op cost, d) →
      ¬ d.limitReached = true → Comes mode memory a d (total + cost)

/-- The block ends with the instruction, behind others that cost `total` together: it is an
exit, or takes the block to the limit. -/
structure EndsWith (mode : Mode) (memory : Memory) (a : Word) (b : Block) (i : Instruction)
    (total : Cost) : Prop where
  decoded : ∃ c d, Comes mode memory a c total ∧ c.instruction mode = .ok (i, d) ∧
    d.consumed = b.length
  exit?_eq : b.exit? = i.exit?
  cost_eq : b.cost = total + i.cost
  varies_eq : b.varies = i.varies
  limit_le : i.exit? = none → Cursor.limit ≤ b.length

namespace Comes

variable {c d : Cursor} {total : Cost} {i : Instruction}

theorem consumed_lt (h : Comes mode memory a c total) : c.consumed < Cursor.limit := by
  cases h with
  | begin => exact (by decide : 0 < Cursor.limit)
  | step _ _ hd => exact Nat.not_le.mp fun hl => hd ((Cursor.limitReached_iff c).mpr hl)

theorem consumed_le (h : Comes mode memory a c total) (hi : c.instruction mode = .ok (i, d)) :
    d.consumed ≤ Cursor.limit + mode.reach :=
  (Cursor.spends_of_instruction hi).consumed_le h.consumed_lt

/-- The costs stay in proportion to the bytes. -/
theorem within (h : Comes mode memory a c total) : total.Within c.consumed := by
  induction h with
  | begin => exact Cost.within_zero 0
  | step _ hi _ ih => exact (Cursor.spends_of_instruction hi).within_add ih

theorem within_add (h : Comes mode memory a c total) (hi : c.instruction mode = .ok (i, d)) :
    (total + i.cost).Within d.consumed :=
  (Cursor.spends_of_instruction hi).within_add h.within

theorem cases_compileFrom (h : Comes mode memory a c total) (lines : Array Line) :
    match compileFrom mode c lines total with
    | .error fault => ∃ c total, Comes mode memory a c total ∧ c.instruction mode = .error fault
    | .ok b => ∃ i total, b.EndsWith mode memory a i total := by
  fun_induction compileFrom mode c lines total with
  | case1 c lines total fault hi => exact ⟨c, total, h, hi⟩
  | case2 c lines total e extra varies d hi =>
      exact ⟨.exit e extra varies, total, ⟨c, d, h, hi, rfl⟩, rfl, rfl, rfl,
        fun hx => absurd hx (Option.some_ne_none e)⟩
  | case3 c lines total op extra d hi lines' total' hl =>
      exact ⟨.operation op extra, total, ⟨c, d, h, hi, rfl⟩, rfl, rfl, rfl,
        fun _ => (Cursor.limitReached_iff d).mp hl⟩
  | case4 c lines total op extra d hi lines' total' hl ih => exact ih (h.step hi hl)

end Comes

namespace EndsWith

variable {b : Block} {i : Instruction} {total : Cost}

theorem length_pos (h : b.EndsWith mode memory a i total) : 0 < b.length := by
  obtain ⟨c, d, -, hi, hd⟩ := h.decoded
  exact hd ▸ Nat.zero_lt_of_lt (Cursor.spends_of_instruction hi).consumed_lt

theorem length_le (h : b.EndsWith mode memory a i total) :
    b.length ≤ Cursor.limit + mode.reach := by
  obtain ⟨c, d, hc, hi, hd⟩ := h.decoded
  exact hd ▸ hc.consumed_le hi

theorem fetch_le (h : b.EndsWith mode memory a i total) : .fetch ≤ b.cost := by
  obtain ⟨c, d, -, hi, -⟩ := h.decoded
  exact h.cost_eq ▸ Cost.le_add_left (Cursor.spends_of_instruction hi).fetch_le total

theorem within_taken (h : b.EndsWith mode memory a i total) : i.taken.Within 1 := by
  obtain ⟨c, d, -, hi, -⟩ := h.decoded
  exact (Cursor.spends_of_instruction hi).taken

/-- The flag that the tables gave the last instruction tells whether the exit can ask for more
than the block costs. -/
theorem varies_eq_asksForMore (h : b.EndsWith mode memory a i total) :
    b.varies = b.exit?.any Exit.asksForMore := by
  obtain ⟨c, d, -, hi, -⟩ := h.decoded
  rw [h.varies_eq, h.exit?_eq]
  exact (Cursor.spends_of_instruction hi).declared

end EndsWith

theorem cases_compile (mode : Mode) (memory : Memory) (a : Word) :
    match compile mode memory a with
    | .error fault => ∃ c total, Comes mode memory a c total ∧ c.instruction mode = .error fault
    | .ok b => ∃ i total, b.EndsWith mode memory a i total :=
  Comes.begin.cases_compileFrom #[]

theorem exists_endsWith_of_compile {b : Block} (h : compile mode memory a = .ok b) :
    ∃ i total, b.EndsWith mode memory a i total := by
  have hc := cases_compile mode memory a
  rwa [h] at hc

/-- Every block costs at least what it takes to fetch one opcode. -/
theorem fetch_le_of_compile {b : Block} (h : compile mode memory a = .ok b) :
    .fetch ≤ b.cost := by
  obtain ⟨i, total, he⟩ := exists_endsWith_of_compile h
  exact he.fetch_le

/-- Decoding ends: at an undefined opcode, or with a block. That is no longer than the limit
and what can stand behind the last opcode below it, and costs no less than one fetch. Below
the limit only an exit ends it. -/
theorem compile_ends_within_reach (mode : Mode) (memory : Memory) (a : Word) :
    match compile mode memory a with
    | .error fault => ∃ c total, Comes mode memory a c total ∧ c.instruction mode = .error fault
    | .ok b =>
      1 ≤ b.length ∧
      b.length ≤ (match mode with
        | .z80 => 0x10002
        | .gameBoy => 0x10001) ∧
      1 ≤ b.cost.machine ∧ 4 ≤ b.cost.clock ∧
      (b.length < 0xFFFF → ∃ e cost total,
        b.EndsWith mode memory a (.exit e cost b.varies) total ∧
        (e.transfers = true ∨ (∃ kind direction, e = .repeatBlock kind direction) ∨
          e = .halt)) := by
  have hends := cases_compile mode memory a
  cases hc : compile mode memory a with
  | error fault => rwa [hc] at hends
  | ok b =>
      rw [hc] at hends
      obtain ⟨i, total, he⟩ := hends
      have hf := he.fetch_le
      have hl := he.length_le
      refine ⟨he.length_pos, by cases mode <;> exact hl, hf.1, hf.2, fun hb => ?_⟩
      cases i with
      | operation op cost => exact absurd (he.limit_le rfl) (Nat.not_le.mpr hb)
      | exit e cost varies =>
          obtain rfl : b.varies = varies := he.varies_eq
          exact ⟨e, cost, total, he, e.transfers_or⟩

end Block
end Z80
