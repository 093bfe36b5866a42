import Z80.Proofs.Decode.Locality

/-!
The instruction boundaries of a block, and the one way in which the byte limit ends a block
elsewhere: a run of index bytes that reaches from a boundary to the limit. A block that
stays below the limit is never cut so.
-/

namespace Z80

theorem Primary.exists_run_eq_index {b : Byte} (hb : isIndexByte b = true) :
    ∃ register : Index, ∀ (index : Index) (c : Cursor),
      (Primary.decode index b).run c = .ok (.index register, c) := by
  simp only [isIndexByte, Bool.or_eq_true, beq_iff_eq] at hb
  obtain rfl | rfl := hb
  · exact ⟨_, fun _ _ => rfl⟩
  · exact ⟨_, fun _ _ => rfl⟩

namespace Cursor

variable {mode : Mode}

/-- In a run of index bytes that reaches to the limit the decoder stops there. -/
theorem consumed_of_runsToLimit {start : Word} {index : Index} {paid : Cost} {c d : Cursor}
    {i : Instruction} (hr : c.RunsToLimit) (hc : c.consumed < limit)
    (h : indexedInstruction start index paid c = .ok (i, d)) : d.consumed = limit := by
  obtain ⟨n, hn, hi⟩ := hr
  induction n generalizing c index paid with
  | zero => omega
  | succ n ih =>
      obtain ⟨register, hd⟩ := Primary.exists_run_eq_index (hi 0 (by omega))
      rw [indexedInstruction_eq, hd] at h
      simp only [locate, limitReached_iff, consumed_skip] at h
      split at h
      · cases h
        rw [consumed_skip]
        omega
      · refine ih (by rw [consumed_skip]; omega) h (by rw [consumed_skip]; omega) ?_
        intro j hj
        rw [peek_skip, Nat.add_comm]
        exact hi (j + 1) (by omega)

/-- The second cursor is a boundary of the instructions that begin at the first one. -/
inductive Reaches (mode : Mode) : Cursor → Cursor → Prop
  | refl {c : Cursor} : Reaches mode c c
  | step {c d e : Cursor} {op : Operation} {cost : Cost} :
      c.instruction mode = .ok (.operation op cost, d) → ¬ d.limitReached = true →
      Reaches mode d e → Reaches mode c e

/-- The byte limit cuts no run of index bytes. Only the Z80 has them. -/
def Uncut (mode : Mode) (c : Cursor) : Prop :=
  mode = .z80 → ∀ d, Reaches mode c d → ¬ d.RunsToLimit

theorem Uncut.step {c d : Cursor} {op : Operation} {cost : Cost} (h : Uncut mode c)
    (hi : c.instruction mode = .ok (.operation op cost, d)) (hd : ¬ d.limitReached = true) :
    Uncut mode d :=
  fun hm e he => h hm e (.step hi hd he)

theorem Reaches.exists_compileFrom {c d : Cursor} (hr : Reaches mode c d) {lines : Array Line}
    {cost : Cost} {b : Block} (h : Block.compileFrom mode c lines cost = .ok b) :
    ∃ lines cost, Block.compileFrom mode d lines cost = .ok b := by
  induction hr generalizing lines cost with
  | refl => exact ⟨lines, cost, h⟩
  | step hi hd _ ih =>
      rw [Block.compileFrom_eq, hi] at h
      simp only [if_neg hd] at h
      exact ih h

theorem Reaches.consumed_lt {c d : Cursor} (hr : Reaches mode c d) (hc : c.consumed < limit) :
    d.consumed < limit := by
  induction hr with
  | refl => exact hc
  | step _ hd _ ih =>
      rw [limitReached_iff, Nat.not_le] at hd
      exact ih hd

theorem Reaches.exists_skip {c d : Cursor} (hr : Reaches mode c d) : ∃ n, d = c.skip n := by
  induction hr with
  | refl => exact ⟨0, rfl⟩
  | step hi _ _ ih =>
      obtain ⟨k, _, rfl, _⟩ := exists_skip_of_instruction hi
      obtain ⟨n, rfl⟩ := ih
      exact ⟨k + n, skip_skip _ k n⟩

theorem uncut_of_length_lt {memory : Memory} {address : Word} {b : Block}
    (h : Block.compile mode memory address = .ok b) (hl : b.length < limit) :
    Uncut mode (.begin memory address) := by
  rintro rfl d hd hr
  have hc : d.consumed < limit := hd.consumed_lt (by simp [begin, limit])
  obtain ⟨lines, cost, hb⟩ := hd.exists_compileFrom h
  rw [Block.compileFrom_eq] at hb
  split at hb
  · cases hb
  · rename_i e extra f hi
    have hf := consumed_of_runsToLimit hr hc hi
    cases hb
    simp only at hl
    omega
  · rename_i op extra f hi
    have hf := consumed_of_runsToLimit hr hc hi
    rw [if_pos ((limitReached_iff f).mpr (by omega))] at hb
    cases hb
    simp only at hl
    omega

end Cursor
end Z80
