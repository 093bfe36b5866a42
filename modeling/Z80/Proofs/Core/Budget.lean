import Z80.Proofs.Block.Extent
import Z80.Proofs.Core.Orderly
import Z80.Proofs.Core.Verdict
import Z80.Proofs.Execution.Stack

/-!
A run for a number of cycles ends, and it never waits. A step without a cost ends a halt, so
the next one runs a block, which costs four cycles at least: two steps for every four cycles
are the most. Requests at a resume would break this, since each could halt the core again.
-/

namespace Z80

variable {η : Type} [Host η]

/-- At a resume neither the host nor a task requests an interrupt or halts; elsewhere the
host may. -/
structure Host.QuietAtResume (η : Type) [Host η] : Prop
    extends Host.Within η (.queueing ResumeTask.Quiet) where
  resumed_quiet : ∀ h : η, (Host.resumed h).Within .quiet

theorem Block.IsCompiled.four_le_cost {b : Block} (hb : b.IsCompiled) (m : Machine Cache η) :
    4 ≤ (b.execute m).2.clock := by
  obtain ⟨mode, memory, address, hc⟩ := hb
  have h := (Block.fetch_le_of_compile hc).2
  change 4 ≤ b.cost.clock at h
  simp only [Block.execute, Cost.clock_add]
  omega

namespace Core

variable {c : Core η}

theorem le_acceptCost (mode : Mode) (im : InterruptMode) : 4 ≤ (acceptCost mode im).clock := by
  cases mode <;> cases im <;> decide

theorem isHalted_leaveHalt_zero (hh : Host.QuietAtResume η) (hp : c.interrupts.pending = none)
    (ht : ∀ task ∈ c.interrupts.tasks, task.Quiet) :
    (c.leaveHalt 0).interrupts.isHalted = false := by
  have hr := Interrupts.phase_resume hp ht c.machine.host
  have hq := (hh.resumed_quiet c.resumeInterrupts.machine.host).keeps
    (Licence.keeps_quiet (I := fun i => i.phase = .running) fun _ h _ => h) hr
  simp only [Interrupts.isHalted, bne_eq_false_iff_eq]
  exact hq

/-- A step of a core that does not have to wait takes at least four cycles, or it takes none
and ends the halt. -/
theorem Orderly.step_cases (hh : Host.QuietAtResume η)
    (h : c.Orderly ResumeTask.Quiet .returned)
    (hw : ¬ (c.registers.iff1 = true ∧ c.interrupts.isHaltedWithoutRequest = true)) :
    (∃ f d, c.step = .fault f d) ∨
    ∃ cost d, c.step = .ran cost d ∧ d.clock = c.clock + cost.clock ∧
      (4 ≤ cost.clock ∨ c.interrupts.isHalted = true ∧ d.interrupts.isHalted = false) := by
  have hm := c.moves_step
  generalize c.step = s at hm ⊢
  cases hm with
  | fault _ _ => exact .inl ⟨_, _, rfl⟩
  | block _ hf hc =>
      have hb := (h.fetch.1 _ hf).four_le_cost c.fetch.2.machine
      refine .inr ⟨_, _, rfl, ?_, .inl (hc ▸ hb)⟩
      rw [clock_advance, clock_behindBlock, clock_fetch]
  | service hs hv =>
      refine .inr ?_
      cases hv with
      | skip _ hi =>
          have hp := h.interrupts.tied.pending_eq_none hi
          exact ⟨0, _, rfl, clock_leaveHalt _ 0,
            .inr ⟨hs, isHalted_leaveHalt_zero hh hp h.interrupts.tasks⟩⟩
      | wait hi ht =>
          have hp : c.interrupts.pending = none := Option.map_eq_none_iff.mp ht
          have hs := h.isSome_pending hs hi hw
          rw [hp] at hs
          cases hs
      | @spend value i _ _ ht =>
          have hp := Interrupts.pending_take ht
          have ha := h.acknowledge.interrupts.take ht
          exact ⟨0, _, rfl, clock_leaveHalt _ 0, .inr ⟨hs, isHalted_leaveHalt_zero hh hp ha.tasks⟩⟩
      | accept _ _ hc =>
          exact ⟨_, _, rfl, clock_leaveHalt _ _, .inl (hc ▸ le_acceptCost _ _)⟩

/-- The bound counts two steps for every four cycles begun. The first of them can only be
without a cost if the core is halted, for it ends the halt. -/
theorem Orderly.length_le_of_runs (hh : Host.QuietAtResume η)
    (h : c.Orderly ResumeTask.Quiet .returned) {target : Nat} {visited : List (Core η)}
    {r : Run η} (hr : Runs target c visited r) :
    visited = [] ∨
      visited.length + (if c.interrupts.isHalted then 0 else 1) ≤
        2 * ((target - c.clock + 3) / 4) := by
  induction hr with
  | exhausted | budget _ | awaiting _ _ _ => exact .inl rfl
  | fault hg _ | waiting hg _ | parked hg _ _ =>
      have hl := hg.lt
      refine .inr ?_
      rw [List.length_singleton]
      split <;> omega
  | @step c d cost visited r hg hs _ _ ih =>
      have hl := hg.lt
      have hd : c.step.answer.2.Orderly ResumeTask.Quiet .returned :=
        h.step hh.toWithin fun _ hq => hq.within fun _ => id
      rw [hs] at hd
      obtain ⟨_, _, hf⟩ | ⟨cost', d', hs', hc, hp⟩ := h.step_cases hh hg.not_awaiting
      · rw [hs] at hf
        cases hf
      · rw [hs] at hs'
        cases hs'
        rw [List.length_cons]
        refine .inr ?_
        obtain rfl | hv := ih hd
        · rw [List.length_nil]
          split <;> omega
        · obtain hp | ⟨h1, h2⟩ := hp
          · split <;> split at hv <;> omega
          · rw [if_pos h1]
            rw [if_neg (Bool.eq_false_iff.mp h2)] at hv
            omega

/-- A run for a number of cycles returns. It takes fewer steps than one for every two cycles
and three, waits nowhere, and overshoots by less than its last step. -/
theorem runFor_keeps_to_budget (hc : Reachable .returned c)
    (ht : ∀ task ∈ c.interrupts.tasks, task.Quiet)
    (hs : ∀ sink ∈ c.sinks, ∀ cost h, (sink cost h).Within (.queueing ResumeTask.Quiet))
    (hh : Host.QuietAtResume η) (cycles : Nat) :
    ∃ visited, Runs (c.clock + cycles) c visited (c.runFor cycles) ∧
      visited.length < cycles / 2 + 3 ∧
      (∀ e ∈ visited, e.interrupts.isHalted = true →
        e.registers.iff1 = true ∨ e.interrupts.inFlight = true →
        e.interrupts.pending.isSome = true) ∧
      (∀ d, c.runFor cycles ≠ .waiting d) ∧ (∀ d, c.runFor cycles ≠ .exhausted d) ∧
      ∀ reason d, c.runFor cycles = .stopped reason d → ∀ e, visited.getLast? = some e →
        ∃ cost, e.step = .ran cost d ∧ d.clock < c.clock + cycles + cost.clock := by
  have h : c.Orderly ResumeTask.Quiet .returned :=
    ⟨⟨⟨hc.orderly.interrupts.tied, ht⟩, hc.orderly.machine.compiled⟩, hs⟩
  obtain ⟨visited, hr, hl⟩ := exists_runs (c.clock + cycles) (cycles + idleSteps) c
  have hv := (hr.keeps (fun _ he => he.step hh.toWithin fun _ hq => hq.within fun _ => id) h).1
  have hg := hr.goesOn
  have hlen : visited.length ≤ 2 * ((cycles + 3) / 4) := by
    obtain rfl | hb := h.length_le_of_runs hh hr
    · exact Nat.zero_le _
    · rw [Nat.add_sub_cancel_left] at hb
      omega
  refine ⟨visited, hr, by omega, ?_, ?_, ?_, ?_⟩
  · exact fun e he hi hw => (hv e he).isSome_pending hi hw (hg e he).not_awaiting
  · intro d hd
    rw [runFor] at hd
    rw [hd] at hr
    obtain ⟨e, he, hw⟩ := hr.exists_waiting
    obtain ⟨f, g, hf⟩ | ⟨cost, g, hf, -⟩ := (hv e he).step_cases hh (hg e he).not_awaiting <;>
      rw [hw] at hf <;> cases hf
  · intro d hd
    have hn := hl d hd
    simp only [idleSteps] at hn
    omega
  · intro reason d hd e he
    rw [runFor] at hd
    rw [hd] at hr
    obtain ⟨cost, hstep⟩ := hr.step_last he
    have hm := List.mem_of_getLast? he
    refine ⟨cost, hstep, ?_⟩
    obtain ⟨f, g, hf⟩ | ⟨cost', g, hf, hclock, -⟩ :=
      (hv e hm).step_cases hh (hg e hm).not_awaiting
    · rw [hstep] at hf
      cases hf
    · rw [hstep] at hf
      cases hf
      have := (hg e hm).lt
      omega

/-- A timer that requests an interrupt whenever time passes. -/
def eagerTimer : Sink NoPorts :=
  fun _ host => .request 0 fun _ => .done host

/-- `EI` and `HALT`, to which the timer's interrupts lead back. -/
def enabledHalt : Block :=
  ⟨0, 2, #[⟨.enableInterrupts true, 1⟩], some .halt, .ofMachine 2, false⟩

theorem compile_enabledHalt {memory : Memory} (h0 : memory.readByte 0 = 0xFB)
    (h1 : memory.readByte 1 = 0x76) : Block.compile .gameBoy memory 0 = .ok enabledHalt := by
  have hi := Cursor.instruction_of_byte (c := .begin memory 0)
    ((Cursor.peek_begin memory 0 0).trans h0) rfl
  have hx := Cursor.instruction_of_byte (c := (Cursor.begin memory 0).skip 1)
    ((Cursor.peek_begin memory 0 1).trans h1) rfl
  have hl : ¬ ((Cursor.begin memory 0).skip 1).limitReached = true := by
    simp [Cursor.limitReached_iff, Cursor.begin, Cursor.limit]
  rw [Block.compile, Block.compileFrom_eq, hi]
  simp only [if_neg hl]
  rw [Block.compileFrom_eq, hx]
  rfl

/-- A core beside the timer, with no request in flight. -/
def besideTimer (r : Registers) (memory : Memory) (cache : Cache) (clock : Nat) : Core NoPorts :=
  ⟨⟨r, ⟨memory, cache⟩, .mk, .idle⟩, .gameBoy, .uncached, [eagerTimer], clock, false⟩

/-- The handshake behind a request of the timer. -/
def requested : Interrupts NoPorts :=
  ⟨.pending, false, true, some 0, []⟩

/-- A lap of the program: the core halts, accepts the request that came with the `HALT`, and
spends the next one, which came while interrupts were disabled. -/
structure Lap (start halted called next : Core NoPorts) : Prop where
  halts : start.step = .ran ⟨2, 8⟩ halted
  accepts : halted.step = .ran ⟨5, 20⟩ called
  spends : called.step = .ran 0 next
  interrupts_eq : start.interrupts = .idle ∧ halted.interrupts = requested ∧
    called.interrupts = requested
  iff1_eq : halted.registers.iff1 = true ∧ called.registers.iff1 = false
  parked_eq : halted.parked = false ∧ called.parked = false ∧ next.parked = false
  clock_eq : halted.clock = start.clock + 8 ∧ called.clock = start.clock + 28

theorem exists_lap {r : Registers} {memory : Memory} (cache : Cache) (clock : Nat)
    (hp : r.pc = 0) (h0 : memory.readByte 0 = 0xFB) (h1 : memory.readByte 1 = 0x76) :
    ∃ halted called r' cache', r'.pc = 0 ∧
      Lap (besideTimer r memory cache clock) halted called
        (besideTimer r' (memory.writeWord (r.sp - 2) 2) cache' (clock + 28)) := by
  have hb : Block.compile .gameBoy memory r.pc = .ok enabledHalt := by
    rw [hp]
    exact compile_enabledHalt h0 h1
  have hs : (besideTimer r memory cache clock).step =
      (besideTimer r memory cache clock).runBlock enabledHalt := step_of_uncached rfl rfl hb
  refine ⟨_, _, _, _, ?_, hs.trans rfl, rfl, rfl, ⟨rfl, rfl, rfl⟩, ⟨rfl, rfl⟩, ⟨rfl, rfl, rfl⟩,
    ⟨rfl, rfl⟩⟩
  rfl

/-- A run that has the time for a lap goes through it. -/
theorem Lap.exists_rest {target : Nat} {start halted called next : Core NoPorts}
    {visited : List (Core NoPorts)} {run : Run NoPorts} (hl : Lap start halted called next)
    (ht : start.clock + 28 < target) (h : Runs target start visited run)
    (hx : ∀ e, run ≠ .exhausted e) :
    ∃ rest, visited = start :: halted :: called :: rest ∧ Runs target next rest run := by
  have goesOn {c : Core NoPorts} (hc : c.clock < target)
      (hi : c.interrupts.isHaltedWithoutRequest = false) : c.GoesOn target :=
    ⟨hc, fun hw => Bool.false_ne_true (hi.symm.trans hw.2)⟩
  obtain ⟨hstart, hhalted, hcalled⟩ := hl.interrupts_eq
  obtain ⟨hc, hc'⟩ := hl.clock_eq
  obtain ⟨_, rfl, h1⟩ :=
    h.exists_rest hx (goesOn (by omega) (by rw [hstart]; rfl)) hl.halts hl.parked_eq.1
  obtain ⟨_, rfl, h2⟩ :=
    h1.exists_rest hx (goesOn (by omega) (by rw [hhalted]; rfl)) hl.accepts hl.parked_eq.2.1
  obtain ⟨rest, rfl, h3⟩ :=
    h2.exists_rest hx (goesOn (by omega) (by rw [hcalled]; rfl)) hl.spends hl.parked_eq.2.2
  exact ⟨rest, rfl, h3⟩

/-- `EI; HALT` beside the timer. The run goes through several laps. -/
theorem runFor_beside_timer :
    ∃ c, Core.new .gameBoy .uncached {} [.ram 0 0x10000 #[0xFB, 0x76]] NoPorts.mk = .ok c ∧
      let timed := c.addSink eagerTimer
      (∀ task ∈ timed.interrupts.tasks, task.Quiet) ∧
      ∃ halted called again halted' called' rest,
        let visited := timed :: halted :: called :: again :: halted' :: called' :: rest
        Runs (timed.clock + 100) timed visited (timed.runFor 100) ∧ visited.length < 53 ∧
        Lap timed halted called again ∧ ∃ next, Lap again halted' called' next := by
  obtain ⟨memory, hm, ho⟩ := Memory.exists_ofSegments_ram #[0xFB, 0x76]
  have hc : Core.new .gameBoy .uncached {} [.ram 0 0x10000 #[0xFB, 0x76]] NoPorts.mk =
      .ok (initial .gameBoy .uncached {} memory NoPorts.mk) := by
    rw [new_eq, hm]
    rfl
  refine ⟨_, hc, ?_⟩
  intro timed
  have ht : ∀ task ∈ timed.interrupts.tasks, task.Quiet := fun _ h => absurd h List.not_mem_nil
  have hh : Host.QuietAtResume NoPorts :=
    ⟨⟨fun _ _ _ => trivial, fun _ _ _ _ => trivial, fun _ => trivial, fun _ => trivial⟩,
      fun _ => trivial⟩
  obtain ⟨visited, hr, hl, -, -, hx, -⟩ := runFor_keeps_to_budget
    (.addSink eagerTimer (.new hc)) ht
    (List.forall_mem_singleton.mpr fun _ _ => ⟨trivial, fun _ => trivial⟩) hh 100
  have hb (a : Word) (ha : a.toNat < 2) :
      memory.readByte a = (#[0xFB, 0x76] : Array Byte)[a.toNat]?.getD 0xFF := by
    have hs : a.toNat < min 0x10000 (#[0xFB, 0x76] : Array Byte).size := ha
    rw [Memory.readByte, ho, Segment.readByte_ram _ _ hs]
  -- the program is not where PC is pushed
  have hw : memory.IsRamWord 0xFFFE := by
    refine ⟨?_, ?_⟩ <;> rw [ho] <;> exact ⟨rfl, _, rfl⟩
  have hb' (a : Word) (h0 : a ≠ 0xFFFE) (h1 : a ≠ 0xFFFF) :
      (memory.writeWord 0xFFFE 2).readByte a = memory.readByte a :=
    Memory.readByte_writeWord_of_ne hw h0 h1 2
  obtain ⟨halted, called, r, cache, hp, lap⟩ := exists_lap (r := timed.registers) .empty 0 rfl
    (hb 0 (by decide)) (hb 1 (by decide))
  obtain ⟨halted', called', r', cache', -, lap'⟩ := exists_lap cache 28 hp
    ((hb' 0 (by decide) (by decide)).trans (hb 0 (by decide)))
    ((hb' 1 (by decide) (by decide)).trans (hb 1 (by decide)))
  obtain ⟨_, rfl, hr'⟩ := lap.exists_rest (show 0 + 28 < 100 by decide) hr hx
  obtain ⟨rest, rfl, -⟩ := lap'.exists_rest (show 28 + 28 < 100 by decide) hr' hx
  exact ⟨ht, halted, called, _, halted', called', rest, hr, hl, lap, _, lap'⟩

end Core
end Z80
