import Z80.Proofs.Block.GameBoy
import Z80.Proofs.Core.Contents

/-!
Nothing that a Game Boy core shows depends on the state that only a Z80 has. Cores that are
equal when it is blanked stay so, whatever is called on both, because their blocks are
equal and have only instructions of the Game Boy.
-/

namespace Z80

variable {η : Type}

/-- The call leaves the registers to the program. -/
def Call.sparesRegisters : Call → Bool
  | .modifyRegisters _ => false
  | _ => true

namespace Core

/-- What a Game Boy shows of its registers, and all that is around them. -/
structure Shown (η : Type) where
  pc : Word
  sp : Word
  a : Byte
  f : Byte
  bc : Word
  de : Word
  hl : Word
  iff1 : Bool
  memory : Memory
  host : η
  interrupts : Interrupts η
  clock : Nat
  parked : Bool

def View.f (v : View η) : Byte :=
  v.registers.layout.pack v.registers.flags

def View.shown (v : View η) : Shown η where
  pc := v.registers.pc
  sp := v.registers.sp
  a := v.registers.a
  f := v.f
  bc := v.registers.bc
  de := v.registers.de
  hl := v.registers.hl
  iff1 := v.registers.iff1
  memory := v.memory
  host := v.host
  interrupts := v.interrupts
  clock := v.clock
  parked := v.parked

/-- The core with the state blanked that a Game Boy does not have. -/
def blank (c : Core η) : Core η :=
  c.modifyMachine .blank

@[simp] theorem layout_blank (c : Core η) : c.blank.registers.layout = c.registers.layout := rfl

@[simp] theorem iff1_blank (c : Core η) : c.blank.registers.iff1 = c.registers.iff1 := rfl

@[simp] theorem interrupts_blank (c : Core η) : c.blank.interrupts = c.interrupts := rfl

@[simp] theorem mode_blank (c : Core η) : c.blank.mode = c.mode := rfl

@[simp] theorem clock_blank (c : Core η) : c.blank.clock = c.clock := rfl

@[simp] theorem parked_blank (c : Core η) : c.blank.parked = c.parked := rfl

def Step.blank : Step η → Step η
  | .ran cost c => .ran cost c.blank
  | .fault f c => .fault f c.blank
  | .waiting c => .waiting c.blank

def Run.blank : Run η → Run η
  | .stopped reason c => .stopped reason c.blank
  | .fault f c => .fault f c.blank
  | .waiting c => .waiting c.blank
  | .exhausted c => .exhausted c.blank

theorem Step.answer_blank (s : Step η) : s.blank.answer = (s.answer.1, s.answer.2.blank) := by
  cases s <;> rfl

theorem Run.answer_blank (r : Run η) : r.blank.answer = (r.answer.1, r.answer.2.blank) := by
  cases r <;> rfl

theorem shown_blank {c : Core η} (hl : c.registers.layout = .gameBoy) :
    c.blank.view.shown = c.view.shown := by
  have hf : c.blank.view.f = c.view.f := by
    change c.registers.layout.pack c.registers.flags.blank = c.registers.layout.pack _
    rw [hl, pack_blank]
    rfl
  simp only [View.shown, hf]
  rfl

/-- Cores that are equal when blanked show the same. -/
theorem shown_congr {c d : Core η} (hl : c.registers.layout = .gameBoy) (h : c.blank = d.blank) :
    c.view.shown = d.view.shown := by
  have hd : d.registers.layout = .gameBoy := by
    rw [← hl, ← layout_blank, ← h, layout_blank]
  rw [← shown_blank hl, h, shown_blank hd]

theorem low_nibble_pack (f : Flags) : FlagLayout.gameBoy.pack f &&& 0x0F = 0 := by
  have h : ∀ z n h c : Bool, ((if z then 0x80 else 0) ||| (if n then 0x40 else 0) |||
      (if h then 0x20 else 0) ||| (if c then 0x10 else 0) : Byte) &&& 0x0F = 0 := by decide
  exact h f.zero f.subtract f.halfCarry f.carry

theorem blank_fetch (c : Core η) : c.blank.fetch = (c.fetch.1, c.fetch.2.blank) := rfl

theorem blank_advance (c : Core η) (cost : Cost) :
    (c.advance cost).blank = c.blank.advance cost := by
  have hf (sinks : List (Sink η)) (m : Machine Cache η) :
      (sinks.foldl (fun m sink => m.react (sink cost)) m).blank =
        sinks.foldl (fun m sink => m.react (sink cost)) m.blank := by
    induction sinks generalizing m with
    | nil => rfl
    | cons sink rest ih => exact ih (m.react (sink cost))
  simp only [advance]
  split
  · rfl
  · exact congrArg (fun m => { c with machine := m, clock := c.clock + cost.clock })
      (hf c.sinks c.machine)

/-- Game Boy cores accept alike: the interrupt mode and I do not count. -/
theorem blank_accept {c : Core η} (hm : c.mode = .gameBoy) (value : Word) :
    (c.accept value).blank = c.blank.accept value := by
  obtain ⟨machine, mode, strategy, sinks, clock, parked⟩ := c
  cases hm
  rfl

variable [Host η]

theorem blank_enterHalt (c : Core η) : c.enterHalt.blank = c.blank.enterHalt := rfl

theorem blank_leaveHalt (c : Core η) (cost : Cost) :
    (c.leaveHalt cost).blank = c.blank.leaveHalt cost :=
  blank_advance _ cost

theorem blank_waitWith {c : Core η} (hm : c.mode = .gameBoy)
    (take : Interrupts η → Option (Word × Interrupts η)) :
    (c.waitWith take).blank = c.blank.waitWith take := by
  have hc : { c with parked := false }.modifyInterrupts (·.acknowledgeHalt) = c.acknowledge := rfl
  have ha : { c.blank with parked := false }.modifyInterrupts (·.acknowledgeHalt) =
      c.acknowledge.blank := rfl
  have ht (i : Interrupts η) : c.acknowledge.blank.modifyInterrupts (fun _ => i) =
      (c.acknowledge.modifyInterrupts fun _ => i).blank := rfl
  simp only [waitWith, hc, ha, ht, iff1_blank, interrupts_blank]
  split
  · exact congrArg (Step.ran 0) (blank_leaveHalt c.acknowledge 0)
  · split
    · rfl
    · rename_i value i _
      have hd : (c.acknowledge.modifyInterrupts fun _ => i).mode = .gameBoy := hm
      generalize c.acknowledge.modifyInterrupts (fun _ => i) = d at hd ⊢
      split
      · simp only [mode_blank, hd, ← blank_accept hd]
        exact congrArg (Step.ran ⟨5, 20⟩) (blank_leaveHalt (d.accept value) ⟨5, 20⟩)
      · exact congrArg (Step.ran 0) (blank_leaveHalt d 0)

variable {c d : Core η}

/-- A Game Boy core, and nothing but Game Boy code in its cache. -/
structure OnGameBoy (c : Core η) : Prop where
  stocked : c.Stocked .gameBoy Block.OnGameBoy
  layout : c.registers.layout = .gameBoy

theorem idle_step (hc : c.Stocked .gameBoy Block.OnGameBoy) :
    c.step.answer.2.registers.idle = c.registers.idle := by
  have hm := c.moves_step
  generalize c.step = s at hm ⊢
  cases hm with
  | fault _ _ => rfl
  | @block b _ _ hf _ =>
      have hb := (hc.fetch fun _ _ _ => Block.onGameBoy_of_compile).1 b hf
      have hi := hb.idle_execute c.fetch.2.machine
      simp only [Step.answer, registers_advance, behindBlock]
      split <;> exact hi
  | service _ hs =>
      cases hs with
      | skip _ _ | spend _ _ _ | accept _ _ _ =>
          simp only [Step.answer, registers_leaveHalt]
          rfl
      | wait _ _ => rfl

theorem runBlock_eq (c : Core η) (b : Block) :
    c.runBlock b =
      .ran (b.execute c.machine).2 ((c.behindBlock b).advance (b.execute c.machine).2) :=
  rfl

theorem blank_runBlock {b : Block} (hb : b.OnGameBoy) (h : c.blank = d.blank)
    (hl : c.registers.layout = .gameBoy) : (c.runBlock b).blank = (d.runBlock b).blank := by
  obtain ⟨hx, hcost⟩ := hb.execute_congr (congrArg Core.machine h) hl
  have hr : (c.modifyMachine fun m => (b.execute m).1).blank =
      (d.modifyMachine fun m => (b.execute m).1).blank := by
    have hd := congrArg (fun e : Core η => { e with machine := (b.execute c.machine).1.blank }) h
    exact hd.trans (congrArg (fun m => { d with machine := m }) hx)
  have hh : (c.behindBlock b).blank = (d.behindBlock b).blank := by
    simp only [behindBlock]
    split
    · rw [blank_enterHalt, hr, ← blank_enterHalt]
    · exact hr
  rw [runBlock_eq, runBlock_eq, Step.blank, Step.blank, blank_advance, blank_advance, hh, hcost]

/-- Cores that show the same take steps that show the same. -/
theorem step_congr (hc : c.OnGameBoy) (h : c.blank = d.blank) : c.step.blank = d.step.blank := by
  have hi : c.interrupts = d.interrupts := by simpa using congrArg interrupts h
  have hm : d.mode = .gameBoy := (congrArg Core.mode h).symm.trans hc.stocked.mode_eq
  have hf : (c.fetch.1, c.fetch.2.blank) = (d.fetch.1, d.fetch.2.blank) := by
    rw [← blank_fetch, h, blank_fetch]
  simp only [step, stepWith, hi]
  split
  · rw [blank_waitWith hc.stocked.mode_eq, blank_waitWith hm, h]
  · have hb := (hc.stocked.fetch fun _ _ _ => Block.onGameBoy_of_compile).1
    have hl : c.fetch.2.registers.layout = .gameBoy := hc.layout
    generalize c.fetch = x at hf hb hl
    generalize d.fetch = y at hf
    obtain ⟨r, e⟩ := x
    obtain ⟨r', e'⟩ := y
    obtain ⟨rfl, he⟩ := Prod.mk.inj hf
    cases r with
    | error f => exact congrArg (Step.fault f) he
    | ok b => exact blank_runBlock (hb b rfl) he hl

theorem OnGameBoy.step (hc : c.OnGameBoy) : c.step.answer.2.OnGameBoy where
  stocked := hc.stocked.step fun _ _ _ => Block.onGameBoy_of_compile
  layout := (congrArg Idle.layout (idle_step hc.stocked)).trans hc.layout

theorem runUntil_congr (hc : c.OnGameBoy) (h : c.blank = d.blank) (target steps : Nat) :
    (c.runUntil target steps).blank = (d.runUntil target steps).blank := by
  induction steps generalizing c d with
  | zero => exact congrArg Run.exhausted h
  | succ steps ih =>
      have hk : c.clock = d.clock := by simpa using congrArg clock h
      have hr : c.registers.iff1 = d.registers.iff1 := by simpa using congrArg (·.registers.iff1) h
      have hi : c.interrupts = d.interrupts := by simpa using congrArg interrupts h
      simp only [runUntil, hk, hr, hi]
      split
      · exact congrArg (Run.stopped _) h
      · split
        · exact congrArg (Run.stopped _) h
        · have hs := step_congr hc h
          have hn := hc.step
          cases hx : c.step <;> cases hy : d.step <;> simp only [hx, hy, Step.blank,
            Step.ran.injEq, Step.fault.injEq, Step.waiting.injEq, reduceCtorEq] at hs hn ⊢
          case ran.ran cost e cost' e' =>
            have hp : e.parked = e'.parked := by simpa using congrArg parked hs.2
            rw [hp]
            split
            · exact congrArg (Run.stopped _) hs.2
            · exact ih hn hs.2
          case fault.fault f e f' e' =>
            obtain ⟨rfl, he⟩ := hs
            exact congrArg (Run.fault f) he
          case waiting.waiting e e' => exact congrArg Run.waiting hs

theorem call_congr (hc : c.OnGameBoy) (h : c.blank = d.blank) {call : Call}
    (hs : call.sparesRegisters = true) :
    (c.call call).1 = (d.call call).1 ∧ (c.call call).2.blank = (d.call call).2.blank := by
  have hk : c.clock = d.clock := by simpa using congrArg clock h
  -- A call that runs nothing does the same on the blanked core.
  have plain (hb : ∀ e : Core η, e.blank.call call = ((e.call call).1, (e.call call).2.blank)) :
      (c.call call).1 = (d.call call).1 ∧ (c.call call).2.blank = (d.call call).2.blank := by
    have he := hb d
    rw [← h, hb c] at he
    exact Prod.mk.inj he
  have run (target steps : Nat) :
      (c.runUntil target steps).answer.1 = (d.runUntil target steps).answer.1 ∧
        (c.runUntil target steps).answer.2.blank = (d.runUntil target steps).answer.2.blank := by
    have hr := congrArg Run.answer (runUntil_congr hc h target steps)
    rw [Run.answer_blank, Run.answer_blank] at hr
    exact Prod.mk.inj hr
  cases call with
  | step =>
      have ha := congrArg Step.answer (step_congr hc h)
      rw [Step.answer_blank, Step.answer_blank] at ha
      exact Prod.mk.inj ha
  | runFor cycles =>
      simp only [Core.call, runFor, hk]
      exact run _ _
  | runUntil target steps => exact run target steps
  | modifyRegisters _ => cases hs
  | writeByte _ _ | writeWord _ _ | writeBytes _ _ | transfer _ _ | request _ | invalidate _ _
  | clear => exact plain fun _ => rfl

theorem idle_call (hc : c.OnGameBoy) {call : Call} (hs : call.sparesRegisters = true) :
    (c.call call).2.registers.idle = c.registers.idle := by
  have run (target steps : Nat) :
      (c.runUntil target steps).answer.2.registers.idle = c.registers.idle :=
    (keeps_runUntil (I := fun e => e.OnGameBoy ∧ e.registers.idle = c.registers.idle)
      (fun _ he => ⟨he.1.step, (idle_step he.1.stocked).trans he.2⟩) ⟨hc, rfl⟩ target steps).2
  cases call with
  | step => exact idle_step hc.stocked
  | runFor cycles => exact run _ _
  | runUntil target steps => exact run target steps
  | modifyRegisters _ => cases hs
  | writeByte _ _ | writeWord _ _ | writeBytes _ _ | transfer _ _ | request _ | invalidate _ _
  | clear => rfl

theorem OnGameBoy.call (hc : c.OnGameBoy) {call : Call} (hs : call.sparesRegisters = true) :
    (c.call call).2.OnGameBoy where
  stocked := hc.stocked.call (fun _ _ _ => Block.onGameBoy_of_compile) call
  layout := (congrArg Idle.layout (idle_call hc hs)).trans hc.layout

theorem trace_congr (hc : c.OnGameBoy) (h : c.blank = d.blank) {calls : List Call}
    (hs : ∀ call ∈ calls, call.sparesRegisters = true) :
    (c.trace calls).map (Prod.map id View.shown) =
      (d.trace calls).map (Prod.map id View.shown) := by
  induction calls generalizing c d with
  | nil => rfl
  | cons call rest ih =>
      rw [List.forall_mem_cons] at hs
      obtain ⟨ha, hb⟩ := call_congr hc h hs.1
      have hn := hc.call hs.1
      simp only [trace, List.map_cons, Prod.map, ha, shown_congr hn.layout hb, ih hn hb hs.2]

theorem idle_trace (hc : c.OnGameBoy) {calls : List Call}
    (hs : ∀ call ∈ calls, call.sparesRegisters = true) :
    ∀ x ∈ c.trace calls, x.2.registers.idle = c.registers.idle := by
  induction calls generalizing c with
  | nil => exact fun _ hx => absurd hx List.not_mem_nil
  | cons call rest ih =>
      rw [List.forall_mem_cons] at hs
      have hi := idle_call hc hs.1
      refine List.forall_mem_cons.mpr ⟨hi, ?_⟩
      intro x hx
      exact (ih (hc.call hs.1) hs.2 x hx).trans hi

/-- Programs cannot see what their processor does not have: whatever is called on two Game Boy
cores that differ in such state only, they answer and show the same. Nor do they change it,
R and IFF2 apart. -/
theorem trace_shows_nothing_hidden {p : Producer} (hc : Reachable p c) (hm : c.mode = .gameBoy)
    (hl : c.registers.layout = .gameBoy) (h : c.blank = d.blank) {calls : List Call}
    (hs : ∀ call ∈ calls, call.sparesRegisters = true) :
    (c.trace calls).map (Prod.map id View.shown) =
        (d.trace calls).map (Prod.map id View.shown) ∧
      ∀ x ∈ c.trace calls, x.2.registers.idle = c.registers.idle ∧ x.2.f &&& 0x0F = 0 := by
  have hb := hc.stocked (P := fun mode b => mode = .gameBoy → b.OnGameBoy) fun _ _ _ _ hb hg =>
    Block.onGameBoy_of_compile (hg ▸ hb)
  have hg : c.OnGameBoy := ⟨⟨hm, fun k b hk => hb.holds k b hk hm⟩, hl⟩
  refine ⟨trace_congr hg h hs, ?_⟩
  intro x hx
  have hi := idle_trace hg hs x hx
  have hx : x.2.registers.layout = .gameBoy := (congrArg Idle.layout hi).trans hl
  refine ⟨hi, ?_⟩
  rw [View.f, hx]
  exact low_nibble_pack _

/-- `ADD A,27; DAA; PUSH AF; EI; HALT`, which puts the flags in memory, on two processors of
which one was started with other flags, index registers and an interrupt mode. -/
theorem trace_of_stacked_flags :
    let calls := [Call.step, .request 0x40, .step, .runFor 100]
    ∃ c d : Core NoPorts, Reachable .returned c ∧ c.mode = .gameBoy ∧
      c.registers.layout = .gameBoy ∧ c.memory.readByte 3 = 0xF5 ∧ c.blank = d.blank ∧
      c.registers.ix ≠ d.registers.ix ∧ c.registers.flags ≠ d.registers.flags ∧
      c.registers.interruptMode ≠ d.registers.interruptMode ∧
      (∀ call ∈ calls, call.sparesRegisters = true) ∧
      (c.trace calls).map (Prod.map id View.shown) =
        (d.trace calls).map (Prod.map id View.shown) ∧
      ∀ x ∈ c.trace calls, x.2.registers.idle = c.registers.idle ∧ x.2.f &&& 0x0F = 0 := by
  intro calls
  obtain ⟨memory, hn, hb⟩ :=
    exists_new_of_ram NoPorts #[0xC6, 0x27, 0x27, 0xF5, 0xFB, 0x76]
  let c := initial .gameBoy .caching {} memory NoPorts.mk
  let d := c.modifyRegisters fun r =>
    { r with
      accumulator := ⟨r.a, { r.flags with sign := true, parityOverflow := true }⟩
      ix := 0x1234
      i := 0xC0
      iff2 := true
      interruptMode := .im2 }
  have hc : Reachable .returned c := .new (hn .gameBoy .caching {} NoPorts.mk)
  have hs : ∀ call ∈ calls, call.sparesRegisters = true := by decide
  have h : c.blank = d.blank := rfl
  have hx : c.registers.ix ≠ d.registers.ix := show (0 : Word) ≠ 0x1234 by decide
  have hf : c.registers.flags ≠ d.registers.flags :=
    fun hf => Bool.false_ne_true (congrArg Flags.sign hf)
  have hi : c.registers.interruptMode ≠ d.registers.interruptMode :=
    show InterruptMode.im0 ≠ .im2 by decide
  exact ⟨c, d, hc, rfl, rfl, hb 3 (by decide), h, hx, hf, hi, hs,
    trace_shows_nothing_hidden hc rfl rfl h hs⟩

end Core
end Z80
