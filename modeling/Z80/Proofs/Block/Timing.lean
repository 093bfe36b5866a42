import Z80.Proofs.Block.Extent
import Z80.Proofs.Block.Repetition

/-!
What a run of a block costs. All that it costs on top of the block comes from the exit, which
has its price if it is taken, or goes round again. The other instructions have fixed costs, and
a block whose exit does not vary costs the same whenever it runs.
-/

namespace Z80

variable {ω η : Type} [Observer ω] [Host η]

/-- Both counters hold it in 32 bits. -/
def Cost.Fits (c : Cost) : Prop :=
  c.machine < 0x100000000 ∧ c.clock < 0x100000000

/-- Far more bytes than a block can have. -/
theorem Cost.Within.fits {c : Cost} {n : Nat} (h : c.Within n) (hn : n ≤ 0x1000000) : c.Fits := by
  obtain ⟨hm, hc⟩ := h
  exact ⟨by omega, by omega⟩

/-- To go round again costs less than the dearest entry of a table. -/
theorem Cost.within_repeats (n : Nat) : (⟨5 * n, 21 * n⟩ : Cost).Within n :=
  within_mk.mpr (by omega)

namespace Exit

/-- Of an exit that is conditional, that its condition holds. -/
def isTaken (r : Registers) : Exit → Bool
  | jumpIf condition _ _ | callIf condition _ _ | retIf condition _ => condition.holds r.flags
  | decrementAndJump _ _ => r.bank.b - 1 != 0
  | _ => true

/-- What the exit costs on top of its own cost: a conditional one has its price if it is taken,
a block instruction pays for the rounds after which it goes round again. -/
def Adds (e : Exit) (m : Machine ω η) (extra : Cost) : Prop :=
  match e with
  | repeatBlock kind direction =>
    ∃ k, kind.Takes direction m k ∧ extra = ⟨5 * (k - 1), 21 * (k - 1)⟩
  | e => extra = if e.isTaken m.registers then e.taken else 0

theorem adds_execute (e : Exit) (next : Word) (m : Machine ω η) :
    e.Adds m (e.execute next m).2 := by
  cases e with
  | jumpIf condition target taken | callIf condition address taken | retIf condition taken
  | decrementAndJump target taken =>
      simp only [Adds, execute, isTaken, Exit.taken, apply_ite Prod.snd]
      rfl
  | repeatBlock kind direction =>
      obtain ⟨k, hk, -⟩ := BlockInstruction.Takes.exists_takes kind direction m
      exact ⟨k, hk, congrArg Prod.snd (execute_repeatBlock hk next)⟩
  | jump _ | jumpToRegister _ | call _ | ret | returnFromInterrupt | returnAndEnableInterrupts
  | halt => rfl

namespace Adds

variable {e : Exit} {m : Machine ω η} {extra : Cost}

theorem eq_zero (h : e.Adds m extra) (hv : e.asksForMore = false) : extra = 0 := by
  have free {taken : Cost} (ht : (!taken.isZero) = false) : taken = 0 := by
    obtain ⟨hm, hc⟩ : taken.machine = 0 ∧ taken.clock = 0 := by simpa [Cost.isZero] using ht
    exact congrArg₂ Cost.mk hm hc
  cases e with
  | jumpIf condition target taken | callIf condition address taken | retIf condition taken
  | decrementAndJump target taken =>
      obtain rfl := free hv
      simp only [Adds, Exit.taken, ite_self] at h
      exact h
  | repeatBlock kind direction => cases hv
  | jump _ | jumpToRegister _ | call _ | ret | returnFromInterrupt | returnAndEnableInterrupts
  | halt => exact h

theorem within (h : e.Adds m extra) (ht : e.taken.Within 1) : extra.Within 0x10000 := by
  have hb : (if e.isTaken m.registers then e.taken else 0).Within 0x10000 := by
    split
    · exact ht.mono (by decide)
    · exact Cost.within_zero _
  cases e with
  | repeatBlock kind direction =>
      obtain ⟨k, hk, rfl⟩ := h
      have hl := hk.le
      exact (Cost.within_repeats (k - 1)).mono (by omega)
  | _ => exact h ▸ hb

end Adds
end Exit

namespace Block

variable {mode : Mode} {memory : Memory} {a : Word} {b : Block}

namespace EndsWith

variable {i : Instruction} {total : Cost}

/-- If the block does not vary, its exit asks for nothing that could be dropped. -/
theorem leave_eq_zero (h : b.EndsWith mode memory a i total) (hv : b.varies = false)
    (next : Word) (m : Machine ω η) : (leave b.exit? next m).2 = 0 := by
  rw [h.varies_eq_asksForMore] at hv
  cases he : b.exit? with
  | none => rfl
  | some e =>
      rw [he] at hv
      exact (e.adds_execute next m).eq_zero hv

/-- All that a run costs on top of its block comes from the exit, which is charged in full. -/
theorem exists_extra (h : b.EndsWith mode memory a i total) (m : Machine ω η) :
    ∃ extra, (b.execute m).2 = b.cost + extra ∧ extra.Within 0x10000 ∧
      (b.varies = false → extra = 0) ∧
      ∀ e, b.exit? = some e → e.Adds (m.runLines b.lines.toList) extra := by
  have hzero (hv : b.varies = false) := h.leave_eq_zero hv b.next (m.runLines b.lines.toList)
  refine ⟨(leave b.exit? b.next (m.runLines b.lines.toList)).2, ?_, ?_, hzero, ?_⟩
  · rw [execute_eq, charged]
    split
    · rfl
    · rename_i hv
      rw [hzero (Bool.not_eq_true _ ▸ hv)]
  · rw [h.exit?_eq]
    cases i with
    | operation op cost => exact Cost.within_zero _
    | exit e cost varies => exact (e.adds_execute _ _).within h.within_taken
  · intro e he
    rw [he]
    exact e.adds_execute _ _

end EndsWith

theorem Comes.fits_add {c d : Cursor} {i : Instruction} {total extra : Cost}
    (h : Comes mode memory a c total) (hi : c.instruction mode = .ok (i, d))
    (he : extra.Within 0x10000) : (total + i.cost + extra).Fits := by
  have hd := h.consumed_le hi
  have hr := mode.reach_le
  rw [Cursor.limit] at hd
  exact ((h.within_add hi).add he).fits (by omega)

/-- A block varies just if its exit can ask for more. One that does not vary costs what it
says, and drops nothing, for its exit asks for nothing; one that varies costs that and what its
last instruction adds. Neither the sums over the instructions so far, with all their index
bytes, nor those over the rounds so far, nor that of both leave 32 bits. -/
theorem cost_execute (h : compile mode memory a = .ok b) (m : Machine ω η) :
    let last := m.runLines b.lines.toList
    b.varies = b.exit?.any Exit.asksForMore ∧
    (b.varies = false → (b.execute m).2 = b.cost ∧ ∀ e, b.exit? = some e → e.Adds last 0) ∧
    (b.varies = true → ∃ e cost total extra, b.EndsWith mode memory a (.exit e cost true) total ∧
      e.Adds last extra ∧ (b.execute m).2 = b.cost + extra) ∧
    (∀ c total i d, Comes mode memory a c total → c.instruction mode = .ok (i, d) →
      (total + i.cost).Fits) ∧
    (∀ kind direction rounds, b.exit? = some (.repeatBlock kind direction) →
      (kind.iterate direction rounds last 0).2.Fits) ∧
    (b.execute m).2.Fits := by
  intro last
  obtain ⟨i, total, he⟩ := exists_endsWith_of_compile h
  obtain ⟨extra, hx, hw, hzero, hadds⟩ := he.exists_extra m
  refine ⟨he.varies_eq_asksForMore, fun hv => ?_, fun hv => ?_, fun c total i d hc hi => ?_,
    fun kind direction rounds _ => ?_, ?_⟩
  · obtain rfl := hzero hv
    exact ⟨hx, hadds⟩
  · rw [he.varies_eq] at hv
    cases i with
    | operation op cost => cases hv
    | exit e cost varies =>
        obtain rfl : varies = true := hv
        exact ⟨e, cost, total, extra, he, hadds e he.exit?_eq, hx⟩
  · exact hc.fits_add hi (Cost.within_zero _)
  · obtain ⟨k, hk, -⟩ := BlockInstruction.Takes.exists_takes kind direction last
    have hl := hk.le
    rw [hk.iterate_eq, Cost.zero_add]
    exact (Cost.within_repeats _).fits (by omega)
  · obtain ⟨c, d, hc, hi, -⟩ := he.decoded
    rw [hx, he.cost_eq]
    exact hc.fits_add hi hw

/-- `RET NZ` on the Game Boy, with the zero flag clear. -/
theorem cost_of_return_taken :
    ∃ memory, Memory.ofSegments [.ram 0 0x10000 #[0xC0]] = .ok memory ∧
      let m : Machine (Listeners Unit) NoPorts :=
        ⟨({} : Snapshot).toRegisters .gameBoy, ⟨memory, (), []⟩, {}, .idle⟩
      ∃ b, compile .gameBoy memory 0 = .ok b ∧ b.varies = true ∧ b.cost = ⟨2, 8⟩ ∧
        (b.execute m).2 = ⟨5, 20⟩ := by
  obtain ⟨memory, hm, ho⟩ := Memory.exists_ofSegments_ram #[0xC0]
  have h0 : memory.readByte 0 = 0xC0 := by
    rw [Memory.readByte, ho, Segment.readByte_ram _ _ (by decide)]
    rfl
  have hc : compile .gameBoy memory 0 =
      .ok ⟨0, 1, #[], some (.retIf .nonZero (.ofMachine 3)), .ofMachine 2, true⟩ :=
    compile_of_byte h0 rfl
  refine ⟨memory, hm, ?_⟩
  intro m
  obtain ⟨e, cost, total, extra, he, ha, hx⟩ := (cost_execute hc m).2.2.1 rfl
  obtain rfl : .retIf .nonZero (.ofMachine 3) = e := Option.some.inj he.exit?_eq
  obtain rfl : extra = ⟨3, 12⟩ := ha
  exact ⟨_, hc, rfl, rfl, hx⟩

end Block
end Z80
