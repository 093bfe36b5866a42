import Z80.Proofs.Core.Orderly
import Z80.Proofs.Core.Transparency
import Z80.Proofs.Decode.Undefined

/-!
A core at an undefined instruction. A block is compiled before any of it runs, and nothing is
written meanwhile, so a step that faults has counted a miss of its cache and done nothing
else. Whoever takes it again gets the same answer.
-/

namespace Z80

theorem Cache.getOrCompile_eq_error_iff {ε : Type} (c : Cache) (a : Word)
    (compile : Unit → Except ε Block) (e : ε) (d : Cache) :
    c.getOrCompile a compile = (.error e, d) ↔
      c.get? a = none ∧ compile () = .error e ∧
        d = { c with stats.misses := c.stats.misses + 1 } := by
  unfold getOrCompile
  cases hg : c.get? a with
  | some b => exact iff_of_false nofun fun h => nomatch h.1
  | none =>
      cases hc : compile () with
      | ok b => exact iff_of_false nofun fun h => nomatch h.2.1
      | error other =>
          simp only [Prod.mk.injEq, Except.error.injEq, true_and]
          exact and_congr_right' eq_comm

namespace Core

variable {η : Type}

/-- A lookup in the cache that found nothing is counted. -/
def countMiss (c : Core η) : Core η :=
  match c.strategy with
  | .caching => c.modifyCache fun k => { k with stats.misses := k.stats.misses + 1 }
  | .uncached => c

/-- No block is at hand for PC. -/
def Misses (c : Core η) : Prop :=
  c.strategy = .caching → c.cache.get? c.registers.pc = none

/-- The core cannot go on. -/
structure Stuck (c : Core η) (fault : DecodeFault) : Prop where
  not_halted : c.interrupts.isHalted = false
  misses : c.Misses
  compile_eq : Block.compile c.mode c.memory c.registers.pc = .error fault

theorem view_countMiss (c : Core η) : c.countMiss.view = c.view := by
  unfold countMiss
  split <;> rfl

theorem sinks_countMiss (c : Core η) : c.countMiss.sinks = c.sinks := by
  unfold countMiss
  split <;> rfl

theorem blocks_countMiss (c : Core η) : c.countMiss.cache.blocks = c.cache.blocks := by
  unfold countMiss
  split <;> rfl

/-- What decides whether a core is stuck does not count misses. -/
theorem Stuck.countMiss {c : Core η} {fault : DecodeFault} (h : c.Stuck fault) :
    c.countMiss.Stuck fault := by
  obtain ⟨machine, mode, strategy, sinks, clock, parked⟩ := c
  obtain ⟨hh, hm, hc⟩ := h
  cases strategy with
  | caching => exact ⟨hh, hm, hc⟩
  | uncached => exact ⟨hh, hm, hc⟩

theorem fetch_of_caching {c : Core η} (h : c.strategy = .caching) :
    let r := c.cache.getOrCompile c.registers.pc fun _ =>
      Block.compile c.mode c.memory c.registers.pc
    c.fetch = (r.1, c.modifyCache fun _ => r.2) := by
  obtain ⟨machine, mode, strategy, sinks, clock, parked⟩ := c
  cases h
  rfl

theorem fetch_eq_error_iff {c d : Core η} {fault : DecodeFault} :
    c.fetch = (.error fault, d) ↔
      c.Misses ∧ Block.compile c.mode c.memory c.registers.pc = .error fault ∧
        d = c.countMiss := by
  cases hs : c.strategy with
  | uncached =>
      have hm : c.Misses := fun h => by rw [hs] at h; cases h
      have hd : c.countMiss = c := by simp only [countMiss, hs]
      rw [fetch_of_uncached hs, hd, and_iff_right hm, Prod.mk.injEq]
      exact and_congr_right' eq_comm
  | caching =>
      have hm : c.Misses ↔ c.cache.get? c.registers.pc = none := forall_prop_of_true hs
      have hd : c.countMiss =
          c.modifyCache fun k => { k with stats.misses := k.stats.misses + 1 } := by
        simp only [countMiss, hs]
      have hg := c.cache.getOrCompile_eq_error_iff c.registers.pc
        (fun _ => Block.compile c.mode c.memory c.registers.pc) fault
      rw [fetch_of_caching hs, hm, hd]
      constructor
      · intro h
        obtain ⟨hr, rfl⟩ := Prod.mk.inj h
        obtain ⟨hn, hc, hk⟩ := (hg (Prod.snd _)).mp (Prod.ext hr rfl)
        refine ⟨hn, hc, ?_⟩
        rw [hk]
        rfl
      · rintro ⟨hn, hc, rfl⟩
        rw [(hg _).mpr ⟨hn, hc, rfl⟩]
        rfl

variable [Host η]

theorem step_eq_fault_iff {c d : Core η} {fault : DecodeFault} :
    c.step = .fault fault d ↔ c.Stuck fault ∧ d = c.countMiss := by
  constructor
  · intro h
    have hm := moves_step c
    rw [h] at hm
    cases hm with
    | fault hh hf =>
        obtain ⟨hn, hc, hd⟩ := fetch_eq_error_iff.mp (Prod.ext hf rfl)
        exact ⟨⟨hh, hn, hc⟩, hd⟩
    | service _ hs => cases hs
  · rintro ⟨⟨hh, hn, hc⟩, rfl⟩
    have hf : c.fetch = (.error fault, c.countMiss) := fetch_eq_error_iff.mpr ⟨hn, hc, rfl⟩
    simp only [step, stepWith, hh, hf]
    rfl

/-- Decoding fails exactly where it comes to an undefined instruction, with its opcode, table
and address. A step that fails so leaves everything but the count of misses alone, and fails
again. -/
theorem faults_are_exact_and_leave_no_trace :
    (∀ mode memory a fault,
      Block.compile mode memory a = .error fault ↔
        ∃ c, Cursor.Reaches mode (.begin memory a) c ∧ c.Undefined mode fault) ∧
    ∀ (c d : Core η) (fault : DecodeFault), c.step = .fault fault d →
      Block.compile c.mode c.memory c.registers.pc = .error fault ∧
      d = c.countMiss ∧ d.view = c.view ∧ d.sinks = c.sinks ∧
      d.cache.blocks = c.cache.blocks ∧
      ∃ e, d.step = .fault fault e := by
  refine ⟨fun mode memory a fault => Block.compile_eq_error_iff, ?_⟩
  intro c d fault h
  obtain ⟨hs, rfl⟩ := step_eq_fault_iff.mp h
  exact ⟨hs.compile_eq, rfl, view_countMiss c, sinks_countMiss c, blocks_countMiss c, _,
    step_eq_fault_iff.mpr ⟨hs.countMiss, rfl⟩⟩

/-- A NOP in front of `ED 00`, which two index bytes lead in: the fault has the address of the
first of them. -/
theorem fault_behind_index_bytes :
    ∃ c d : Core NoPorts,
      Core.new .z80 .caching {} [.ram 0 0x10000 #[0x00, 0xDD, 0xFD, 0xED, 0x00]] NoPorts.mk =
        .ok c ∧
      c.step = .fault ⟨.ed, 0x00, 1⟩ d ∧ d.view = c.view ∧
      ∃ e, d.step = .fault ⟨.ed, 0x00, 1⟩ e := by
  obtain ⟨memory, hc, hb⟩ := exists_new_of_ram NoPorts #[0x00, 0xDD, 0xFD, 0xED, 0x00]
  let start := Cursor.begin memory 0
  have hi : start.instruction .z80 = .ok (.operation .nop ⟨1, 4⟩, start.skip 1) := by
    rw [Cursor.instruction, Cursor.indexedInstruction_eq, Cursor.peek_begin, hb _ (by decide)]
    rfl
  have hp (n : Nat) (hn : (0 + .ofNat (1 + n) : Word).toNat < 5) :
      (start.skip 1).peek n =
        #[0x00, 0xDD, 0xFD, 0xED, 0x00][(0 + .ofNat (1 + n) : Word).toNat]?.getD 0xFF := by
    rw [Cursor.peek_skip, Cursor.peek_begin]
    exact hb _ hn
  have hu : (start.skip 1).UndefinedBehind 2 := {
    isIndexByte := by
      intro n hn
      obtain rfl | rfl : n = 0 ∨ n = 1 := by omega
      all_goals
        rw [hp _ (by decide)]
        rfl
    consumed_lt := (by decide : 0 + 1 + 2 < Cursor.limit)
    peek_eq := hp 2 (by decide)
    not_defines := by
      rw [hp _ (by decide)]
      decide }
  have hf : Block.compile .z80 memory 0 = .error ⟨.ed, 0x00, 1⟩ := by
    refine Block.compile_eq_error_iff.mpr ⟨start.skip 1, .step hi ?_ .refl, 2, hu, ?_⟩
    · exact (by decide : ¬ decide (Cursor.limit ≤ 0 + 1) = true)
    · rw [hp _ (by decide)]
      rfl
  let c := initial .z80 .caching {} memory NoPorts.mk
  have hs : c.step = .fault ⟨.ed, 0x00, 1⟩ c.countMiss :=
    step_eq_fault_iff.mpr ⟨⟨rfl, fun _ => rfl, hf⟩, rfl⟩
  obtain ⟨-, -, hv, -, -, he⟩ := faults_are_exact_and_leave_no_trace.2 _ _ _ hs
  exact ⟨c, _, hc _ _ _ _, hs, hv, he⟩

end Core
end Z80
