import Z80.Proofs.Decode.Boundary
import Z80.Proofs.Execution.CatchUp
import Z80.Snapshot

/-!
A block does what its instructions do one after the other, each decoded where PC stands and
run as a block of its own. Behind every instruction the machine that runs the whole block
is behind the other one by PC and the refresh counter, and by nothing else.
-/

namespace Z80

def Instruction.toBlock (address : Word) (length : Nat) : Instruction → Block
  | .exit e cost varies => ⟨address, length, #[], some e, cost, varies⟩
  | .operation op cost => ⟨address, length, Block.addLine #[] op length, none, cost, false⟩

namespace Block

/-- The instruction at an address as a block of its own. -/
def compileOne (mode : Mode) (memory : Memory) (address : Word) : Except DecodeFault Block :=
  match (Cursor.begin memory address).instruction mode with
  | .error fault => .error fault
  | .ok (i, d) => .ok (i.toBlock address d.consumed)

theorem compileOne_of_instruction {mode : Mode} {c d : Cursor} {i : Instruction}
    (h : c.instruction mode = .ok (i, d)) (hu : c.Uncut mode) :
    ∃ n, 0 < n ∧ d = c.skip n ∧ ∀ memory, Cursor.Alike c (.begin memory c.address) n →
      compileOne mode memory c.address = .ok (i.toBlock c.address n) := by
  obtain ⟨n, hn, hd, hr⟩ := Cursor.exists_skip_of_instruction h
  refine ⟨n, hn, hd, ?_⟩
  intro memory ha
  have hc : (Cursor.begin memory c.address).consumed ≤ c.consumed := Nat.zero_le _
  simp only [compileOne, hr _ ha (.inr ⟨hc, fun hm => hu hm c .refl⟩)]
  simp [Cursor.begin]

/-- The blocks follow each other from an address on, over so many bytes together, and none
but the last one has an exit. -/
inductive Parts : Word → Nat → Option Exit → List Block → Prop
  | last (b : Block) : Parts b.address b.length b.exit? [b]
  | cons {b : Block} {n : Nat} {e : Option Exit} {rest : List Block} :
      b.exit? = none → Parts b.next n e rest → Parts b.address (b.length + n) e (b :: rest)

theorem Parts.any_halts {a : Word} {n : Nat} {e : Option Exit} {parts : List Block}
    (h : Parts a n e parts) : parts.any halts = (e == some .halt) := by
  induction h with
  | last => simp [halts]
  | cons hn _ ih => simp [halts, hn, ih]

end Block

variable {ω η : Type} [Observer ω] [Host η]

namespace Machine

def runLines (lines : List Line) (m : Machine ω η) : Machine ω η :=
  lines.foldl (fun m line => line.operation.execute line.fetched m) m

theorem runLines_append (xs ys : List Line) (m : Machine ω η) :
    m.runLines (xs ++ ys) = (m.runLines xs).runLines ys :=
  List.foldl_append

theorem runLines_setPC (lines : List Line) (m : Machine ω η) (pc : Word) :
    (m.setPC pc).runLines lines = (m.runLines lines).setPC pc := by
  induction lines generalizing m with
  | nil => rfl
  | cons line rest ih =>
      have hl : line.operation.execute line.fetched (m.setPC pc) =
          (line.operation.execute line.fetched m).setPC pc := by
        rw [setPC_eq_catchUp, Operation.execute_catchUp, Nat.zero_add, setPC_eq_catchUp]
      exact (congrArg (runLines rest) hl).trans (ih _)

/-- Runs so many instructions as blocks of their own, each compiled from what memory holds
when PC comes to it. -/
def runSingly (mode : Mode) :
    Nat → Machine ω η → Except DecodeFault (List Block × Machine ω η × Cost)
  | 0, m => .ok ([], m, 0)
  | n + 1, m =>
      match Block.compileOne mode m.bus.memory m.registers.pc with
      | .error fault => .error fault
      | .ok b =>
          let (m, cost) := b.execute m
          match m.runSingly mode n with
          | .error fault => .error fault
          | .ok (parts, m, rest) => .ok (b :: parts, m, cost + rest)

/-- The blocks run one after the other, each the one that belongs where PC stands when it is
come to. -/
inductive RunsEach (one : Memory → Word → Block → Prop) :
    Machine ω η → List Block → Machine ω η × Cost → Prop
  | nil {m : Machine ω η} : RunsEach one m [] (m, 0)
  | cons {m : Machine ω η} {b : Block} {parts : List Block} {r : Machine ω η × Cost} :
      one m.bus.memory m.registers.pc b → RunsEach one (b.execute m).1 parts r →
      RunsEach one m (b :: parts) (r.1, (b.execute m).2 + r.2)

theorem RunsEach.runSingly {mode : Mode} {m : Machine ω η} {parts : List Block}
    {r : Machine ω η × Cost}
    (h : m.RunsEach (fun memory a b => Block.compileOne mode memory a = .ok b) parts r) :
    m.runSingly mode parts.length = .ok (parts, r) := by
  induction h with
  | nil => rfl
  | cons hb _ ih => simp only [List.length_cons, Machine.runSingly, hb, ih]

end Machine

namespace Block

/-- The end of a block: its exit or, if it was cut, the way to the next block. -/
def leave (exit? : Option Exit) (next : Word) (m : Machine ω η) : Machine ω η × Cost :=
  match exit? with
  | some e => e.execute next m
  | none => (m.setPC next, 0)

theorem leave_catchUp (exit? : Option Exit) (next pc : Word) (k : Nat) (m : Machine ω η) :
    leave exit? next (m.catchUp pc k) =
      ((leave exit? next m).1.modifyRegisters (·.refresh k), (leave exit? next m).2) := by
  cases exit? with
  | none => rfl
  | some e => exact e.execute_catchUp next m

theorem execute_eq (b : Block) (m : Machine ω η) :
    b.execute m =
      ((leave b.exit? b.next (m.runLines b.lines.toList)).1.modifyRegisters (·.refresh b.length),
        b.cost + b.charged (leave b.exit? b.next (m.runLines b.lines.toList)).2) := by
  rw [execute, Machine.runLines, Array.foldl_toList]
  rfl

theorem addLine_eq (lines : Array Line) (op : Operation) (fetched : Nat) :
    addLine lines op fetched = lines ++ addLine #[] op fetched := by
  cases op <;> simp [addLine]

theorem runLines_addLine (op : Operation) (fetched : Nat) (m : Machine ω η) :
    m.runLines (addLine #[] op fetched).toList = op.execute fetched m := by
  cases op <;> rfl

/-- No line of the block changes a byte that the block was decoded from. -/
def Stable (b : Block) (m : Machine ω η) : Prop :=
  ∀ done, done <+: b.lines.toList → ∀ i < b.length,
    (m.runLines done).readByte (b.address + .ofNat i) = m.readByte (b.address + .ofNat i)

/-- One instruction of a block: in the block it is told of all the bytes from its start, as
a block of its own it starts from registers that are up to date. -/
theorem execute_operation (op : Operation) (cost : Cost) (a : Word) (n k : Nat)
    (m : Machine ω η) :
    (Block.mk a n (addLine #[] op n) none cost false).execute (m.catchUp a k) =
      ((op.execute (k + n) m).catchUp (a + .ofNat n) (k + n), cost) := by
  have hc : cost + (Block.mk a n (addLine #[] op n) none cost false).charged 0 = cost := rfl
  simp only [execute_eq, runLines_addLine, Operation.execute_catchUp, leave, hc]
  rw [← Machine.catchUp_catchUp _ a]
  rfl

theorem execute_catchUp {b last : Block} {a : Word} {k : Nat} {m : Machine ω η}
    (hlines : (m.catchUp a k).runLines last.lines.toList =
      (m.runLines b.lines.toList).catchUp a k)
    (hexit : last.exit? = b.exit?) (hnext : last.next = b.next) (hcost : last.cost = b.cost)
    (hvaries : last.varies = b.varies) (hlen : b.length = k + last.length) :
    last.execute (m.catchUp a k) = b.execute m := by
  simp only [execute_eq, charged, hlines, hexit, hnext, hcost, hvaries, hlen, leave_catchUp,
    Registers.refresh, Machine.modifyRegisters, refreshAfter_refreshAfter]

theorem leave_setPC (exit? : Option Exit) (next pc : Word) (m : Machine ω η) :
    leave exit? next (m.setPC pc) = leave exit? next m := by
  have hr (n : Machine ω η) : n.modifyRegisters (·.refresh 0) = n := by
    simp only [Machine.modifyRegisters, Registers.refresh, refreshAfter_zero]
  rw [Machine.setPC_eq_catchUp, leave_catchUp, hr]

/-- Whatever ends a block and whichever way it turns there, it puts PC where it goes on: what
PC was when the block began shows in nothing that it leaves behind. -/
theorem execute_forgets_pc (b : Block) (m : Machine ω η) (p q : Word) :
    b.execute (m.setPC p) = b.execute (m.setPC q) := by
  have hp (pc : Word) : b.execute (m.setPC pc) = b.execute m := by
    simp only [execute_eq, Machine.runLines_setPC, leave_setPC]
  rw [hp p, hp q]

variable (ω η) in
/-- What is left of a block at a boundary: its parts do what its lines and its exit do, as
long as memory holds the bytes that the cursor sees. -/
structure Tail (mode : Mode) (c : Cursor) (n : Nat) (lines : List Line) (exit? : Option Exit)
    (cost : Cost) (varies : Bool) (parts : List Block) : Prop where
  follow : Parts c.address n exit? parts
  run (m : Machine ω η) :
    (∀ done, done <+: lines → Cursor.Alike c (.begin (m.runLines done).bus.memory c.address) n) →
      (m.catchUp c.address c.consumed).runSingly mode parts.length =
        .ok (parts,
          (Block.mk c.start (c.consumed + n) lines.toArray exit? cost varies).execute m)

variable (ω η) in
/-- The same for any way to say what belongs at an address. -/
structure Thread (one : Memory → Word → Block → Prop) (c : Cursor) (n : Nat) (lines : List Line)
    (exit? : Option Exit) (cost : Cost) (varies : Bool) (parts : List Block) : Prop where
  follow : Parts c.address n exit? parts
  run (m : Machine ω η) :
    (∀ done, done <+: lines → Cursor.Alike c (.begin (m.runLines done).bus.memory c.address) n) →
      (m.catchUp c.address c.consumed).RunsEach one parts
        ((Block.mk c.start (c.consumed + n) lines.toArray exit? cost varies).execute m)

/-- What the decoder finds at a cursor belongs wherever memory holds the same bytes. -/
def Decodes (mode : Mode) (one : Memory → Word → Block → Prop) : Prop :=
  ∀ ⦃c d : Cursor⦄ ⦃i : Instruction⦄, c.instruction mode = .ok (i, d) → c.Uncut mode →
    ∃ n, 0 < n ∧ d = c.skip n ∧ ∀ memory, Cursor.Alike c (.begin memory c.address) n →
      one memory c.address (i.toBlock c.address n)

variable {mode : Mode} {one : Memory → Word → Block → Prop} {c : Cursor} {n : Nat}

theorem Thread.last (last : Block) {lines : List Line} (ha : last.address = c.address)
    (hone : ∀ memory, Cursor.Alike c (.begin memory c.address) last.length →
      one memory c.address last)
    (hlines : ∀ m : Machine ω η, (m.catchUp c.address c.consumed).runLines last.lines.toList =
      (m.runLines lines).catchUp c.address c.consumed) :
    Thread ω η one c last.length lines last.exit? last.cost last.varies [last] where
  follow := ha ▸ .last last
  run m hm := by
    have hn : last.next = c.start + .ofNat (c.consumed + last.length) := by
      rw [next, ha, ← Cursor.address_skip]
      rfl
    have hb := hone m.bus.memory (hm [] List.nil_prefix)
    have he := execute_catchUp (b := .mk c.start (c.consumed + last.length) lines.toArray
      last.exit? last.cost last.varies) (hlines m) rfl hn rfl rfl rfl
    rw [← he]
    exact .cons hb .nil

theorem Thread.operation {op : Operation} {cost : Cost} {k : Nat} {lines : List Line}
    {exit? : Option Exit} {extra : Cost} {varies : Bool} {parts : List Block}
    (hone : ∀ memory, Cursor.Alike c (.begin memory c.address) n →
      one memory c.address ((Instruction.operation op cost).toBlock c.address n))
    (h : Thread ω η one (c.skip n) k lines exit? extra varies parts) :
    Thread ω η one c (n + k) ((addLine #[] op (c.consumed + n)).toList ++ lines) exit?
      (cost + extra) varies ((Instruction.operation op cost).toBlock c.address n :: parts) where
  follow := by
    have hp := h.follow
    rw [Cursor.address_skip] at hp
    exact .cons (b := (Instruction.operation op cost).toBlock c.address n) rfl hp
  run m hm := by
    have hb := hone m.bus.memory ((hm [] List.nil_prefix).mono (Nat.le_add_right n k))
    have hr := h.run (op.execute (c.consumed + n) m) fun done hd => by
      have hp := hm _ ((List.prefix_append_right_inj _).mpr hd)
      rw [Machine.runLines_append, runLines_addLine] at hp
      rw [Cursor.address_skip]
      exact hp.begin_skip
    have he := execute_operation op cost c.address n c.consumed m
    rw [Cursor.address_skip, Cursor.consumed_skip, Cursor.start_skip] at hr
    have hc := Machine.RunsEach.cons (m := m.catchUp c.address c.consumed) hb (by
      rw [Instruction.toBlock, he]
      exact hr)
    rw [Instruction.toBlock, he] at hc
    simp only [execute_eq, Machine.runLines_append, runLines_addLine, Cost.add_assoc, next,
      Nat.add_assoc] at hc ⊢
    exact hc

theorem exists_thread_of_compileFrom (hone : Decodes mode one) {lines : Array Line} {cost : Cost}
    {b : Block} (h : compileFrom mode c lines cost = .ok b) (hu : c.Uncut mode) :
    ∃ n rest exit? extra varies parts, Thread ω η one c n rest exit? extra varies parts ∧
      b = ⟨c.start, c.consumed + n, lines ++ rest.toArray, exit?, cost + extra, varies⟩ := by
  induction hk : Cursor.limit - c.consumed using Nat.strongRecOn generalizing c lines cost with
  | _ k ih =>
      rw [compileFrom_eq] at h
      split at h
      · cases h
      · rename_i e extra varies d hi
        obtain ⟨n, hn, rfl, hb⟩ := hone hi hu
        cases h
        refine ⟨n, [], some e, extra, varies, _,
          Thread.last (.mk c.address n #[] (some e) extra varies) rfl hb fun _ => rfl, ?_⟩
        simp [Cursor.start_skip, Cursor.consumed_skip]
      · rename_i op extra d hi
        obtain ⟨n, hn, rfl, hb⟩ := hone hi hu
        split at h
        · rename_i hl
          cases h
          refine ⟨n, (addLine #[] op (c.consumed + n)).toList, none, extra, false, _,
            Thread.last (.mk c.address n (addLine #[] op n) none extra false) rfl hb ?_, ?_⟩
          · intro m
            simp only [runLines_addLine, Operation.execute_catchUp]
          · rw [Cursor.start_skip, Cursor.consumed_skip, addLine_eq]
        · rename_i hl
          have hd : Cursor.limit - (c.skip n).consumed < k := by
            rw [Cursor.limitReached_iff] at hl
            rw [Cursor.consumed_skip] at hl ⊢
            omega
          obtain ⟨n', rest, exit?, extra', varies, parts, ht, rfl⟩ :=
            ih _ hd h (hu.step hi hl) rfl
          refine ⟨n + n', _, exit?, _, varies, _, ht.operation hb, ?_⟩
          have hlines : addLine lines op (c.consumed + n) ++ rest.toArray =
              lines ++ ((addLine #[] op (c.consumed + n)).toList ++ rest).toArray := by
            rw [addLine_eq, Array.append_assoc, ← List.append_toArray, Array.toArray_toList]
          rw [Cursor.start_skip, Cursor.consumed_skip, Nat.add_assoc, Cost.add_assoc, hlines]

theorem exists_tail_of_compileFrom {lines : Array Line} {cost : Cost} {b : Block}
    (h : compileFrom mode c lines cost = .ok b) (hu : c.Uncut mode) :
    ∃ n rest exit? extra varies parts, Tail ω η mode c n rest exit? extra varies parts ∧
      b = ⟨c.start, c.consumed + n, lines ++ rest.toArray, exit?, cost + extra, varies⟩ := by
  have hone : Decodes mode fun memory a b => compileOne mode memory a = .ok b :=
    fun _ _ _ hi hu => compileOne_of_instruction hi hu
  obtain ⟨n, rest, exit?, extra, varies, parts, ht, hb⟩ :=
    exists_thread_of_compileFrom (ω := ω) (η := η) hone h hu
  exact ⟨n, rest, exit?, extra, varies, parts, ⟨ht.follow, fun m hm => (ht.run m hm).runSingly⟩, hb⟩

theorem stable_of_bus {b : Block} (h : ∀ line ∈ b.lines.toList, ∀ m : Machine ω η,
    (line.operation.execute line.fetched m).bus = m.bus) (m : Machine ω η) : b.Stable m := by
  have hl (done : List Line) (hd : ∀ line ∈ done, line ∈ b.lines.toList) :
      ∀ m : Machine ω η, (m.runLines done).bus = m.bus := by
    induction done with
    | nil => exact fun _ => rfl
    | cons line rest ih =>
        intro m
        obtain ⟨hline, hrest⟩ := List.forall_mem_cons.mp hd
        exact (ih hrest _).trans (h line hline m)
  intro done hd i _
  simp only [Machine.readByte, hl done (fun _ hm => hd.subset hm) m]

/-- To run a block is to run its instructions one at a time, whoever watches the bus and
whatever surrounds the processor. -/
theorem execute_eq_runSingly {mode : Mode} {m : Machine ω η} {b : Block}
    (h : compile mode m.bus.memory m.registers.pc = .ok b)
    (hu : (Cursor.begin m.bus.memory m.registers.pc).Uncut mode) (hs : b.Stable m) :
    ∃ parts, Parts m.registers.pc b.length b.exit? parts ∧ parts.any halts = b.halts ∧
      m.runSingly mode parts.length = .ok (parts, b.execute m) := by
  obtain ⟨n, rest, exit?, cost, varies, parts, ht, hb⟩ :=
    exists_tail_of_compileFrom (ω := ω) (η := η) h hu
  have hc : (Cursor.begin m.bus.memory m.registers.pc).consumed = 0 := rfl
  have hp := ht.follow
  have hr := ht.run m
  rw [Array.empty_append, hc, Nat.zero_add, Cost.zero_add] at hb
  rw [Cursor.address_begin] at hp
  rw [Cursor.address_begin, hc, Nat.zero_add, m.catchUp_zero, ← hb] at hr
  rw [hb]
  refine ⟨parts, hp, hp.any_halts, hb ▸ hr fun done hd i hi => ?_⟩
  rw [Cursor.peek_begin, Cursor.peek_begin]
  rw [hb] at hs
  exact hs done hd i hi

/-- `LD A,R; LD R,A; HALT` below a latch. -/
def refreshLoads : Memory where
  segments := [.rom 0 5 #[0xED, 0x5F, 0xED, 0x4F, 0x76], .latch 5 0xFFFB]
  tiles := by
    refine ⟨rfl, ?_, ?_, ?_, ?_⟩
    · rw [Segment.length_rom]; decide
    · rw [Segment.stop_rom]; rfl
    · rw [Segment.length_latch]; decide
    · rw [Tiles, Segment.stop_latch]; rfl

theorem compile_refreshLoads :
    compile .z80 refreshLoads 0 =
      .ok ⟨0, 5, #[⟨.loadAFromR, 2⟩, ⟨.loadRFromA, 4⟩], some .halt, ⟨5, 22⟩, false⟩ := by
  have h0 : (Cursor.begin refreshLoads 0).instruction .z80 =
      .ok (.operation .loadAFromR ⟨2, 9⟩, ⟨refreshLoads, 0, 2⟩) := by
    rw [Cursor.instruction, Cursor.indexedInstruction_eq]
    rfl
  have h1 : (Cursor.mk refreshLoads 0 2).instruction .z80 =
      .ok (.operation .loadRFromA ⟨2, 9⟩, ⟨refreshLoads, 0, 4⟩) := by
    rw [Cursor.instruction, Cursor.indexedInstruction_eq]
    rfl
  have h2 : (Cursor.mk refreshLoads 0 4).instruction .z80 =
      .ok (.exit .halt ⟨1, 4⟩ false, ⟨refreshLoads, 0, 5⟩) := by
    rw [Cursor.instruction, Cursor.indexedInstruction_eq]
    rfl
  have l0 : ¬ (Cursor.mk refreshLoads 0 2).limitReached = true := by decide
  have l1 : ¬ (Cursor.mk refreshLoads 0 4).limitReached = true := by decide
  rw [compile, compileFrom_eq, h0]
  simp only [if_neg l0]
  rw [compileFrom_eq, h1]
  simp only [if_neg l1]
  rw [compileFrom_eq, h2]
  rfl

theorem execute_refreshLoads_eq_runSingly :
    let m : Machine (Listeners (List (Word × Nat))) NoPorts :=
      ⟨({} : Snapshot).toRegisters .z80, ⟨refreshLoads, [], [fun log a n => (a, n) :: log]⟩,
        {}, .idle⟩
    ∃ b parts, compile .z80 refreshLoads 0 = .ok b ∧
      (Cursor.begin refreshLoads 0).Uncut .z80 ∧ b.Stable m ∧
      Parts 0 b.length b.exit? parts ∧ parts.any halts = b.halts ∧
      m.runSingly .z80 parts.length = .ok (parts, b.execute m) := by
  intro m
  have hc := compile_refreshLoads
  have hu := Cursor.uncut_of_length_lt hc (by decide)
  have hs (line : Line) (h : line ∈ [⟨.loadAFromR, 2⟩, ⟨.loadRFromA, 4⟩])
      (n : Machine (Listeners (List (Word × Nat))) NoPorts) :
      (line.operation.execute line.fetched n).bus = n.bus := by
    simp only [List.mem_cons, List.not_mem_nil, or_false] at h
    obtain rfl | rfl := h <;> rfl
  obtain ⟨parts, hp⟩ := execute_eq_runSingly (m := m) hc hu (stable_of_bus hs m)
  exact ⟨_, parts, hc, hu, stable_of_bus hs m, hp⟩

end Block
end Z80
