import Z80.Proofs.Block.Sequential
import Z80.Proofs.Execution.Exchange

/-!
The byte limit and the instructions around it. An instruction is whole if it is taken with
all the index bytes in front of its opcode. A block that the limit ends between two whole
instructions and the block behind it together run whole instructions only; but the limit can
fall among the index bytes, and then the opcode behind them loses its index register.
-/

namespace Z80

namespace Cursor

/-- The instruction at a cursor, with an index register in effect and a cost already paid.
There is none where nothing but index bytes follow for ever. -/
inductive Whole : Index → Cost → Cursor → Instruction → Cursor → Prop
  | instruction {index : Index} {paid : Cost} {c d : Cursor} {i : Instruction} :
      (Primary.decode index (c.peek 0)).run (c.skip 1) = .ok (.instruction i, d) →
      Whole index paid c (i.addCost paid) d
  | index {index register : Index} {paid : Cost} {c d e : Cursor} {i : Instruction} :
      (Primary.decode index (c.peek 0)).run (c.skip 1) = .ok (.index register, d) →
      Whole register (paid + ⟨1, 4⟩) d i e → Whole index paid c i e

namespace Whole

variable {index : Index} {paid : Cost} {c d e : Cursor} {i j : Instruction}

theorem unique (h : Whole index paid c i d) (h' : Whole index paid c j e) : i = j ∧ d = e := by
  induction h with
  | instruction hr =>
      cases h' with
      | instruction hr' =>
          rw [hr] at hr'
          cases hr'
          exact ⟨rfl, rfl⟩
      | index hr' _ =>
          rw [hr] at hr'
          cases hr'
  | index hr _ ih =>
      cases h' with
      | instruction hr' =>
          rw [hr] at hr'
          cases hr'
      | index hr' hw =>
          rw [hr] at hr'
          cases hr'
          exact ih hw

theorem exists_skip (h : Whole index paid c i d) :
    ∃ n, 0 < n ∧ d = c.skip n ∧ ∀ e, Alike c e n → Whole index paid e i (e.skip n) := by
  -- The first byte selects the entry of the table, whose fetch is determined by the rest.
  have byte {index : Index} {c d : Cursor} {entry : Entry}
      (hr : (Primary.decode index (c.peek 0)).run (c.skip 1) = .ok (entry, d)) :
      ∃ n, d = c.skip (1 + n) ∧ ∀ e, Alike c e (1 + n) →
        (Primary.decode index (e.peek 0)).run (e.skip 1) = .ok (entry, e.skip (1 + n)) := by
    obtain ⟨n, hd, hn⟩ := Fetch.exists_skip_of_run hr
    refine ⟨n, by rw [hd, skip_skip], ?_⟩
    intro e ha
    rw [ha 0 (by omega), hn _ ha.skip, skip_skip]
  induction h with
  | instruction hr =>
      obtain ⟨n, hd, hn⟩ := byte hr
      exact ⟨1 + n, by omega, hd, fun e ha => .instruction (hn e ha)⟩
  | index hr _ ih =>
      obtain ⟨n, rfl, hn⟩ := byte hr
      obtain ⟨k, hk, hd, hw⟩ := ih
      refine ⟨1 + n + k, by omega, by rw [hd, skip_skip], ?_⟩
      intro e ha
      have he := hw (e.skip (1 + n)) ha.skip
      rw [skip_skip] at he
      exact .index (hn e (ha.mono (by omega))) he

end Whole

/-- Where the limit does not cut a run of index bytes, the instruction found is whole. -/
theorem whole_of_indexedInstruction {start : Word} {index : Index} {paid : Cost} {c d : Cursor}
    {i : Instruction} (h : indexedInstruction start index paid c = .ok (i, d))
    (hr : ¬ c.RunsToLimit) : Whole index paid c i d := by
  have fetched {start : Word} {index : Index} {c d : Cursor} {entry : Entry}
      (he : locate start ((Primary.decode index c.byte.1).run c.byte.2) = .ok (entry, d)) :
      (Primary.decode index (c.peek 0)).run (c.skip 1) = .ok (entry, d) := by
    rw [byte_eq] at he
    exact locate_eq_ok.mp he
  fun_induction indexedInstruction start index paid c with
  | case1 index paid c fault he => cases h
  | case2 index paid c j e he =>
      cases h
      exact .instruction (fetched he)
  | case3 index paid c k e he hl =>
      obtain ⟨hb, rfl⟩ := Primary.isIndexByte_of_run (fetched he)
      refine absurd ⟨1, (limitReached_iff _).mp hl, ?_⟩ hr
      intro j hj
      rwa [show j = 0 by omega]
  | case4 index paid c k e he hl ih =>
      obtain ⟨hb, rfl⟩ := Primary.isIndexByte_of_run (fetched he)
      exact .index (fetched he) (ih h fun hs => hr (hs.of_skip hb))

end Cursor

namespace Block

/-- The block is the whole instruction at an address. -/
def IsWhole (memory : Memory) (address : Word) (b : Block) : Prop :=
  ∃ i d, Cursor.Whole .hl 0 (.begin memory address) i d ∧ b = i.toBlock address d.consumed

theorem IsWhole.unique {memory : Memory} {address : Word} {b b' : Block}
    (h : IsWhole memory address b) (h' : IsWhole memory address b') : b = b' := by
  obtain ⟨i, d, hw, rfl⟩ := h
  obtain ⟨i', d', hw', rfl⟩ := h'
  obtain ⟨rfl, rfl⟩ := hw.unique hw'
  rfl

theorem decodes_isWhole : Decodes .z80 IsWhole := by
  intro c d i hi hu
  have hw := Cursor.whole_of_indexedInstruction hi (hu rfl c .refl)
  obtain ⟨n, hn, hd, he⟩ := hw.exists_skip
  refine ⟨n, hn, hd, ?_⟩
  intro memory ha
  refine ⟨i, _, he _ ha, ?_⟩
  simp [Cursor.begin]

theorem Parts.append {a : Word} {n k : Nat} {e e' : Option Exit} {xs ys : List Block}
    (h : Parts a n e xs) (he : e = none) (h' : Parts (a + .ofNat n) k e' ys) :
    Parts a (n + k) e' (xs ++ ys) := by
  induction h with
  | last b => exact .cons he h'
  | @cons b n e rest hb _ ih =>
      have hn : b.next + .ofNat n = b.address + .ofNat (b.length + n) := by
        rw [next, UInt16.ofNat_add]
        grind
      rw [← hn] at h'
      rw [Nat.add_assoc]
      exact .cons hb (ih he h')

/-- Only the limit ends a block without an exit. -/
theorem limit_le_of_compileFrom {mode : Mode} {c : Cursor} {lines : Array Line} {cost : Cost}
    {b : Block} (h : compileFrom mode c lines cost = .ok b) (hx : b.exit? = none) :
    Cursor.limit ≤ b.length := by
  fun_induction compileFrom mode c lines cost with
  | case1 c lines cost fault hi => cases h
  | case2 c lines cost e extra varies d hi =>
      cases h
      cases hx
  | case3 c lines cost op extra d hi lines' cost' hl =>
      cases h
      exact (Cursor.limitReached_iff d).mp hl
  | case4 c lines cost op extra d hi lines' cost' _ ih => exact ih h

end Block

variable {ω η : Type} [Observer ω] [Host η]

namespace Machine.RunsEach

variable {one : Memory → Word → Block → Prop} {m : Machine ω η} {xs ys : List Block}
  {r r' : Machine ω η × Cost}

theorem append (h : m.RunsEach one xs r) (h' : r.1.RunsEach one ys r') :
    m.RunsEach one (xs ++ ys) (r'.1, r.2 + r'.2) := by
  induction h with
  | nil =>
      rw [Cost.zero_add]
      exact h'
  | cons hb _ ih =>
      rw [Cost.add_assoc]
      exact .cons hb (ih h')

theorem unique (hone : ∀ memory a b b', one memory a b → one memory a b' → b = b')
    (h : m.RunsEach one xs r) (h' : m.RunsEach one ys r') (hl : xs.length = ys.length) :
    xs = ys ∧ r = r' := by
  induction h generalizing ys r' with
  | nil =>
      cases h' with
      | nil => exact ⟨rfl, rfl⟩
      | cons _ _ => cases hl
  | cons hb _ ih =>
      cases h' with
      | nil => cases hl
      | cons hb' hr =>
          obtain rfl := hone _ _ _ _ hb hb'
          obtain ⟨rfl, rfl⟩ := ih hr (Nat.succ.inj hl)
          exact ⟨rfl, rfl⟩

end Machine.RunsEach

namespace Block

/-- A block in which the limit cuts no index bytes runs whole instructions. -/
theorem exists_runsEach_of_compile {m : Machine ω η} {b : Block}
    (h : compile .z80 m.bus.memory m.registers.pc = .ok b)
    (hu : (Cursor.begin m.bus.memory m.registers.pc).Uncut .z80) (hs : b.Stable m) :
    ∃ parts, Parts m.registers.pc b.length b.exit? parts ∧
      m.RunsEach IsWhole parts (b.execute m) := by
  obtain ⟨n, rest, e, cost, _, parts, ht, hb⟩ :=
    exists_thread_of_compileFrom (ω := ω) (η := η) decodes_isWhole h hu
  have hc : (Cursor.begin m.bus.memory m.registers.pc).consumed = 0 := rfl
  have hp := ht.follow
  have hr := ht.run m
  rw [Array.empty_append, hc, Nat.zero_add, Cost.zero_add] at hb
  rw [Cursor.address_begin] at hp
  rw [Cursor.address_begin, hc, Nat.zero_add, m.catchUp_zero, ← hb] at hr
  have hn : b.length = n := congrArg length hb
  have hx : b.exit? = e := congrArg exit? hb
  have hl : b.lines.toList = rest := congrArg (·.lines.toList) hb
  rw [hn, hx]
  refine ⟨parts, hp, hr fun done hd i hi => ?_⟩
  rw [Cursor.peek_begin, Cursor.peek_begin]
  have hi := hs done (hl ▸ hd) i (hn ▸ hi)
  rwa [address_of_compile h] at hi

variable {c : Cursor} {n : Nat}

theorem instruction_of_nop (h : c.peek 0 = 0) :
    c.instruction .z80 = .ok (.operation .nop ⟨1, 4⟩, c.skip 1) := by
  rw [Cursor.instruction, Cursor.indexedInstruction_eq, h]
  rfl

theorem exists_compileFrom_nops (h : ∀ i < n, c.peek i = 0) (hn : c.consumed + n < Cursor.limit)
    (lines : Array Line) (cost : Cost) :
    ∃ cost', compileFrom .z80 c lines cost = compileFrom .z80 (c.skip n) lines cost' := by
  induction n generalizing c cost with
  | zero => exact ⟨cost, rfl⟩
  | succ n ih =>
      have hl : ¬ (c.skip 1).limitReached = true := by
        rw [Cursor.limitReached_iff, Cursor.consumed_skip]
        omega
      have hs : ∀ i < n, (c.skip 1).peek i = 0 := by
        intro i hi
        rw [Cursor.peek_skip]
        exact h (1 + i) (by omega)
      obtain ⟨cost', hc⟩ := ih hs (by rw [Cursor.consumed_skip]; omega) (cost + ⟨1, 4⟩)
      refine ⟨cost', ?_⟩
      rw [compileFrom_eq, instruction_of_nop (h 0 (by omega))]
      simp only [if_neg hl]
      rw [Cursor.skip_skip, Nat.add_comm] at hc
      exact hc

/-- A block that goes on with nothing but NOPs is ended by the limit. -/
theorem exists_compileFrom_of_nops (h : ∀ i < n, c.peek i = 0)
    (hn : c.consumed + n = Cursor.limit) (h0 : 0 < n) (lines : Array Line) (cost : Cost) :
    ∃ cost', compileFrom .z80 c lines cost =
      .ok ⟨c.start, Cursor.limit, lines, none, cost', false⟩ := by
  obtain ⟨k, rfl⟩ := Nat.exists_eq_succ_of_ne_zero (Nat.ne_of_gt h0)
  obtain ⟨cost', hc⟩ :=
    exists_compileFrom_nops (fun i hi => h i (Nat.lt_succ_of_lt hi)) (by omega) lines cost
  have hp : (c.skip k).peek 0 = 0 := by
    rw [Cursor.peek_skip]
    exact h k (Nat.lt_succ_self k)
  have hl : (c.skip (k + 1)).limitReached = true := by
    rw [Cursor.limitReached_iff, Cursor.consumed_skip]
    omega
  refine ⟨cost' + ⟨1, 4⟩, ?_⟩
  rw [hc, compileFrom_eq, instruction_of_nop hp, Cursor.skip_skip]
  simp only [if_pos hl]
  rw [Cursor.start_skip, Cursor.consumed_skip, hn]
  rfl

theorem instruction_of_incrementIX (h0 : c.peek 0 = 0xDD) (h1 : c.peek 1 = 0x23)
    (hl : c.consumed + 1 < Cursor.limit) :
    c.instruction .z80 = .ok (.operation (.incrementWord .ix) ⟨2, 10⟩, c.skip 2) := by
  have hn : ¬ (c.skip 1).limitReached = true := by
    rw [Cursor.limitReached_iff, Cursor.consumed_skip]
    omega
  have hd : (Primary.decode .hl 0xDD).run (c.skip 1) = .ok (.index .ix, c.skip 1) := rfl
  rw [Cursor.instruction, Cursor.indexedInstruction_eq, h0, hd]
  simp only [Cursor.locate, if_neg hn]
  rw [Cursor.indexedInstruction_eq, Cursor.peek_skip, h1]
  rfl

theorem instruction_of_cut (h0 : c.peek 0 = 0xDD) (hl : c.consumed + 1 = Cursor.limit) :
    c.instruction .z80 = .ok (.operation .nop ⟨1, 4⟩, c.skip 1) := by
  have hn : (c.skip 1).limitReached = true := by
    rw [Cursor.limitReached_iff, Cursor.consumed_skip]
    omega
  have hd : (Primary.decode .hl 0xDD).run (c.skip 1) = .ok (.index .ix, c.skip 1) := rfl
  rw [Cursor.instruction, Cursor.indexedInstruction_eq, h0, hd]
  simp only [Cursor.locate, if_pos hn]
  rfl

theorem instruction_of_incrementHL (h : c.peek 0 = 0x23) :
    c.instruction .z80 = .ok (.operation (.incrementWord .hl) ⟨1, 6⟩, c.skip 1) := by
  rw [Cursor.instruction, Cursor.indexedInstruction_eq, h]
  rfl

/-- `INC IX` at an address, and NOPs everywhere else. -/
def incrementIXAt (p : Nat) : Array Byte :=
  .ofFn fun i : Fin 0x10000 => if i.val = p then 0xDD else if i.val = p + 1 then 0x23 else 0

/-- Memory holds `INC IX` at an address, and NOPs everywhere else. -/
def HoldsIncrementIX (p : Nat) (memory : Memory) : Prop :=
  ∀ a : Word, memory.readByte a =
    if a.toNat = p then 0xDD else if a.toNat = p + 1 then 0x23 else 0

theorem exists_memory_of_incrementIXAt (p : Nat) :
    ∃ memory, Memory.ofSegments [.ram 0 0x10000 (incrementIXAt p)] = .ok memory ∧
      HoldsIncrementIX p memory := by
  obtain ⟨memory, hm, ho⟩ := Memory.exists_ofSegments_ram (incrementIXAt p)
  refine ⟨memory, hm, ?_⟩
  intro a
  have ha : a.toNat < 0x10000 := a.toNat_lt
  have hs : (incrementIXAt p).size = 0x10000 := Array.size_ofFn
  rw [Memory.readByte, ho, Segment.readByte_ram _ _ (by rw [hs]; omega), incrementIXAt,
    Array.getElem?_ofFn, dif_pos ha]
  rfl

theorem HoldsIncrementIX.peek_eq {p : Nat} {memory : Memory} (h : HoldsIncrementIX p memory)
    (a : Word) (i : Nat) : (Cursor.begin memory a).peek i =
      if (a.toNat + i) % 0x10000 = p then 0xDD else
        if (a.toNat + i) % 0x10000 = p + 1 then 0x23 else 0 := by
  have ha : (a + .ofNat i).toNat = (a.toNat + i) % 0x10000 := by
    rw [UInt16.toNat_add, UInt16.toNat_ofNat']
    omega
  rw [Cursor.peek_begin, h, ha]

/-- The limit falls between the two bytes of `INC IX`: the first one is spent, and the block
behind it increments HL. -/
theorem HoldsIncrementIX.exists_compile_cut {memory : Memory} (h : HoldsIncrementIX 0xFFFE memory) :
    (∃ cost, compile .z80 memory 0 = .ok ⟨0, Cursor.limit, #[], none, cost, false⟩) ∧
      ∃ cost, compile .z80 memory 0xFFFF =
        .ok ⟨0xFFFF, Cursor.limit, #[⟨.incrementWord .hl, 1⟩], none, cost, false⟩ := by
  have hk (a : Word) (n : Nat) : ((Cursor.begin memory a).skip n).consumed = n := Nat.zero_add n
  constructor
  · have hn (i : Nat) (hi : i < 0xFFFE) : (Cursor.begin memory 0).peek i = 0 := by
      have ha : ((0 : Word).toNat + i) % 0x10000 = i := by
        rw [UInt16.toNat_zero]
        omega
      rw [h.peek_eq, ha, if_neg (by omega), if_neg (by omega)]
    have hp : ((Cursor.begin memory 0).skip 0xFFFE).peek 0 = 0xDD := by
      rw [Cursor.peek_skip, h.peek_eq, if_pos (by decide)]
    have hi := instruction_of_cut hp (by rw [hk]; rfl)
    have hl : ((Cursor.begin memory 0).skip (0xFFFE + 1)).limitReached = true := by
      rw [Cursor.limitReached_iff, hk]
      exact Nat.le_refl 0xFFFF
    obtain ⟨cost, hc⟩ := exists_compileFrom_nops hn (by rw [← Cursor.consumed_skip, hk]; decide)
      #[] 0
    refine ⟨cost + ⟨1, 4⟩, ?_⟩
    rw [compile, hc, compileFrom_eq, hi, Cursor.skip_skip]
    simp only [if_pos hl, hk]
    rfl
  · have hn (i : Nat) (hi : i < 0xFFFE) : ((Cursor.begin memory 0xFFFF).skip 1).peek i = 0 := by
      have ha : ((0xFFFF : Word).toNat + (1 + i)) % 0x10000 = i := by
        have : (0xFFFF : Word).toNat = 0xFFFF := rfl
        omega
      rw [Cursor.peek_skip, h.peek_eq, ha, if_neg (by omega), if_neg (by omega)]
    have hp : (Cursor.begin memory 0xFFFF).peek 0 = 0x23 := by
      rw [h.peek_eq, if_neg (by decide), if_pos (by decide)]
    have hl : ¬ ((Cursor.begin memory 0xFFFF).skip 1).limitReached = true := by
      rw [Cursor.limitReached_iff, hk]
      decide
    rw [compile, compileFrom_eq, instruction_of_incrementHL hp]
    simp only [if_neg hl]
    exact exists_compileFrom_of_nops hn (by rw [hk]; rfl) (by decide) _ _

theorem HoldsIncrementIX.exists_compile {memory : Memory} (h : HoldsIncrementIX 0 memory) :
    (∃ cost, compile .z80 memory 0 =
        .ok ⟨0, Cursor.limit, #[⟨.incrementWord .ix, 2⟩], none, cost, false⟩) ∧
      ∃ cost, compile .z80 memory 0xFFFF =
        .ok ⟨0xFFFF, Cursor.limit, #[⟨.incrementWord .ix, 3⟩], none, cost, false⟩ := by
  have hk (a : Word) (n : Nat) : ((Cursor.begin memory a).skip n).consumed = n := Nat.zero_add n
  have ht : (0xFFFF : Word).toNat = 0xFFFF := rfl
  constructor
  · have h0 : (Cursor.begin memory 0).peek 0 = 0xDD := by rw [h.peek_eq, if_pos (by decide)]
    have h1 : (Cursor.begin memory 0).peek 1 = 0x23 := by
      rw [h.peek_eq, if_neg (by decide), if_pos (by decide)]
    have hn (i : Nat) (hi : i < 0xFFFD) : ((Cursor.begin memory 0).skip 2).peek i = 0 := by
      have ha : ((0 : Word).toNat + (2 + i)) % 0x10000 = 2 + i := by
        rw [UInt16.toNat_zero]
        omega
      rw [Cursor.peek_skip, h.peek_eq, ha, if_neg (by omega), if_neg (by omega)]
    have hl : ¬ ((Cursor.begin memory 0).skip 2).limitReached = true := by
      rw [Cursor.limitReached_iff, hk]
      decide
    rw [compile, compileFrom_eq, instruction_of_incrementIX h0 h1 (by decide : 1 < Cursor.limit)]
    simp only [if_neg hl]
    exact exists_compileFrom_of_nops hn (by rw [hk]; rfl) (by decide) _ _
  · have h0 : (Cursor.begin memory 0xFFFF).peek 0 = 0 := by
      rw [h.peek_eq, if_neg (by decide), if_neg (by decide)]
    have h1 : ((Cursor.begin memory 0xFFFF).skip 1).peek 0 = 0xDD := by
      rw [Cursor.peek_skip, h.peek_eq, if_pos (by decide)]
    have h2 : ((Cursor.begin memory 0xFFFF).skip 1).peek 1 = 0x23 := by
      rw [Cursor.peek_skip, h.peek_eq, if_neg (by decide), if_pos (by decide)]
    have hn (i : Nat) (hi : i < 0xFFFC) : ((Cursor.begin memory 0xFFFF).skip 3).peek i = 0 := by
      have ha : ((0xFFFF : Word).toNat + (3 + i)) % 0x10000 = 2 + i := by omega
      rw [Cursor.peek_skip, h.peek_eq, ha, if_neg (by omega), if_neg (by omega)]
    have hl (n : Nat) (hn : n < Cursor.limit) :
        ¬ ((Cursor.begin memory 0xFFFF).skip n).limitReached = true := by
      rw [Cursor.limitReached_iff, hk]
      exact Nat.not_le.mpr hn
    rw [compile, compileFrom_eq, instruction_of_nop h0]
    simp only [if_neg (hl 1 (by decide))]
    rw [compileFrom_eq, instruction_of_incrementIX h1 h2 (by rw [hk]; decide), Cursor.skip_skip]
    simp only [if_neg (hl 3 (by decide))]
    exact exists_compileFrom_of_nops hn (by rw [hk]; rfl) (by decide) _ _

theorem HoldsIncrementIX.uncut {memory : Memory} (h : HoldsIncrementIX 0 memory) {a : Word}
    (ha : (a.toNat + 0xFFFE) % 0x10000 ≠ 0) : (Cursor.begin memory a).Uncut .z80 := by
  rintro - d hd ⟨n, hn, hi⟩
  have hl : d.consumed < Cursor.limit := hd.consumed_lt (by decide : 0 < Cursor.limit)
  obtain ⟨k, rfl⟩ := hd.exists_skip
  have hk : ((Cursor.begin memory a).skip k).consumed = k := Nat.zero_add k
  rw [hk, Cursor.limit] at hn hl
  -- Only the first byte of `INC IX` is an index byte, and no second one follows it.
  have only (j : Nat) (hj : j < n) : (a.toNat + (k + j)) % 0x10000 = 0 := by
    have hb := hi j hj
    rw [Cursor.peek_skip, h.peek_eq] at hb
    split at hb
    · assumption
    · split at hb <;> exact absurd hb (by decide)
  have h0 := only 0 (by omega)
  by_cases h1 : 1 < n
  · have := only 1 h1
    omega
  · have hk : k = 0xFFFE := by omega
    exact ha (by rw [← hk]; exact h0)

theorem IsWhole.eq_nop {memory : Memory} {a : Word} {b : Block} (h : IsWhole memory a b)
    (h0 : memory.readByte a = 0) : b = ⟨a, 1, #[], none, ⟨1, 4⟩, false⟩ := by
  have ha : a + .ofNat 0 = a := by grind
  have hr : (Primary.decode .hl ((Cursor.begin memory a).peek 0)).run
      ((Cursor.begin memory a).skip 1) =
        .ok (.instruction (.operation .nop ⟨1, 4⟩), (Cursor.begin memory a).skip 1) := by
    rw [Cursor.peek_begin, ha, h0]
    rfl
  exact h.unique ⟨_, _, .instruction hr, rfl⟩

theorem IsWhole.eq_incrementIX {memory : Memory} {a : Word} {b : Block} (h : IsWhole memory a b)
    (h0 : memory.readByte a = 0xDD) (h1 : memory.readByte (a + 1) = 0x23) :
    b = ⟨a, 2, #[⟨.incrementWord .ix, 2⟩], none, ⟨2, 10⟩, false⟩ := by
  have ha : a + .ofNat 0 = a := by grind
  have hr : (Primary.decode .hl ((Cursor.begin memory a).peek 0)).run
      ((Cursor.begin memory a).skip 1) = .ok (.index .ix, (Cursor.begin memory a).skip 1) := by
    rw [Cursor.peek_begin, ha, h0]
    rfl
  have hs : (Primary.decode .ix (((Cursor.begin memory a).skip 1).peek 0)).run
      (((Cursor.begin memory a).skip 1).skip 1) =
        .ok (.instruction (.operation (.incrementWord .ix) ⟨1, 6⟩),
          ((Cursor.begin memory a).skip 1).skip 1) := by
    have h1 : memory.readByte (a + .ofNat (1 + 0)) = 0x23 := h1
    rw [Cursor.peek_skip, Cursor.peek_begin, h1]
    rfl
  exact h.unique ⟨_, _, .index hr (.instruction hs), rfl⟩

/-- Whole instructions never come to the second byte of `INC IX`, and so they leave HL. -/
theorem HoldsIncrementIX.hl_of_runsEach {memory : Memory} (h : HoldsIncrementIX 0xFFFE memory)
    {m : Machine ω η} {parts : List Block} {r : Machine ω η × Cost}
    (hr : m.RunsEach IsWhole parts r) (hm : m.bus.memory = memory)
    (hp : m.registers.pc ≠ 0xFFFF) : r.1.registers.hl = m.registers.hl := by
  induction hr with
  | nil => rfl
  | @cons m b parts r hb _ ih =>
      rw [hm] at hb
      by_cases ha : m.registers.pc = 0xFFFE
      · have h0 : memory.readByte m.registers.pc = 0xDD := by rw [h, ha]; rfl
        have h1 : memory.readByte (m.registers.pc + 1) = 0x23 := by rw [h, ha]; rfl
        obtain rfl := hb.eq_incrementIX h0 h1
        have hn : m.registers.pc + .ofNat 2 ≠ 0xFFFF := by
          rw [ha]
          decide
        exact (ih hm hn).trans rfl
      · have h0 : memory.readByte m.registers.pc = 0 := by
          rw [h, if_neg, if_neg]
          · exact fun hn => hp (UInt16.toNat_inj.mp hn)
          · exact fun hn => ha (UInt16.toNat_inj.mp hn)
        obtain rfl := hb.eq_nop h0
        have hn : m.registers.pc + .ofNat 1 ≠ 0xFFFF := by grind
        exact (ih hm hn).trans rfl

theorem hl_execute_incrementHL (a : Word) (n k : Nat) (cost : Cost) (m : Machine ω η) :
    ((Block.mk a n #[⟨.incrementWord .hl, k⟩] none cost false).execute m).1.registers.hl =
      m.registers.hl + 1 :=
  Word.ofBytes_low_high _

/-- A block that the limit ends and the block behind it do what the instructions do, each taken
with all its index bytes, as long as the limit does not fall among those. No other run of as
many instructions ends otherwise. -/
theorem runsEach_across_limit {m : Machine ω η} {b b' : Block}
    (h : compile .z80 m.bus.memory m.registers.pc = .ok b) (hx : b.exit? = none)
    (hu : (Cursor.begin m.bus.memory m.registers.pc).Uncut .z80) (hs : b.Stable m)
    (h' : compile .z80 (b.execute m).1.bus.memory (b.execute m).1.registers.pc = .ok b')
    (hu' : (Cursor.begin (b.execute m).1.bus.memory (b.execute m).1.registers.pc).Uncut .z80)
    (hs' : b'.Stable (b.execute m).1) :
    Cursor.limit ≤ b.length ∧ ∃ parts,
      Parts m.registers.pc (b.length + b'.length) b'.exit? parts ∧
      ∀ instructions r, instructions.length = parts.length →
        (m.RunsEach IsWhole instructions r ↔ instructions = parts ∧
          r = ((b'.execute (b.execute m).1).1,
            (b.execute m).2 + (b'.execute (b.execute m).1).2)) := by
  obtain ⟨xs, hp, hr⟩ := exists_runsEach_of_compile h hu hs
  obtain ⟨ys, hp', hr'⟩ := exists_runsEach_of_compile h' hu' hs'
  have hpc : (b.execute m).1.registers.pc = m.registers.pc + .ofNat b.length := by
    rw [execute_eq, hx, ← address_of_compile h]
    rfl
  rw [hpc] at hp'
  have hrun := hr.append hr'
  refine ⟨limit_le_of_compileFrom h hx, xs ++ ys, hp.append hx hp', ?_⟩
  intro instructions r hl
  have hone : ∀ memory a b b', IsWhole memory a b → IsWhole memory a b' → b = b' :=
    fun _ _ _ _ => IsWhole.unique
  constructor
  · intro hi
    exact hi.unique hone hrun hl
  · rintro ⟨rfl, rfl⟩
    exact hrun

/-- `INC IX` at the start of memory, run through twice by two blocks that the limit ends. -/
theorem runsEach_of_two_laps :
    ∃ memory b b',
      Memory.ofSegments [.ram 0 0x10000 (incrementIXAt 0)] = .ok memory ∧
      let m : Machine (Listeners (List (Word × Nat))) NoPorts :=
        ⟨({} : Snapshot).toRegisters .z80, ⟨memory, [], []⟩, {}, .idle⟩
      compile .z80 m.bus.memory m.registers.pc = .ok b ∧ b.exit? = none ∧
      (Cursor.begin m.bus.memory m.registers.pc).Uncut .z80 ∧ b.Stable m ∧
      compile .z80 (b.execute m).1.bus.memory (b.execute m).1.registers.pc = .ok b' ∧
      (Cursor.begin (b.execute m).1.bus.memory (b.execute m).1.registers.pc).Uncut .z80 ∧
      b'.Stable (b.execute m).1 ∧ (b'.execute (b.execute m).1).1.registers.ix = 2 ∧
      Cursor.limit ≤ b.length ∧ ∃ parts,
        Parts m.registers.pc (b.length + b'.length) b'.exit? parts ∧
        ∀ instructions r, instructions.length = parts.length →
          (m.RunsEach IsWhole instructions r ↔ instructions = parts ∧
            r = ((b'.execute (b.execute m).1).1,
              (b.execute m).2 + (b'.execute (b.execute m).1).2)) := by
  obtain ⟨memory, hm, hi⟩ := exists_memory_of_incrementIXAt 0
  obtain ⟨⟨cost, hb⟩, ⟨cost', hb'⟩⟩ := hi.exists_compile
  have hu := hi.uncut (by decide : ((0 : Word).toNat + 0xFFFE) % 0x10000 ≠ 0)
  have hu' := hi.uncut (by decide : ((0xFFFF : Word).toNat + 0xFFFE) % 0x10000 ≠ 0)
  rw [← (by decide : (0 : Word) + .ofNat Cursor.limit = 0xFFFF)] at hb' hu'
  have bus (k : Nat) (line : Line) (h : line ∈ [⟨.incrementWord .ix, k⟩])
      (n : Machine (Listeners (List (Word × Nat))) NoPorts) :
      (line.operation.execute line.fetched n).bus = n.bus := by
    obtain rfl := List.mem_singleton.mp h
    rfl
  refine ⟨memory, _, _, hm, hb, rfl, hu, stable_of_bus (bus 2) _, hb', hu',
    stable_of_bus (bus 3) _, rfl, ?_⟩
  exact runsEach_across_limit hb rfl hu (stable_of_bus (bus 2) _) hb' hu' (stable_of_bus (bus 3) _)

/-- With `INC IX` across the limit, the two blocks increment HL, and no run of whole instructions
does. -/
theorem limit_cuts_off_index_byte :
    ∃ memory b b',
      Memory.ofSegments [.ram 0 0x10000 (incrementIXAt 0xFFFE)] = .ok memory ∧
      let m : Machine (Listeners (List (Word × Nat))) NoPorts :=
        ⟨({} : Snapshot).toRegisters .z80, ⟨memory, [], []⟩, {}, .idle⟩
      isIndexByte (memory.readByte 0) = false ∧
      compile .z80 memory 0 = .ok b ∧ b.exit? = none ∧ b.Stable m ∧
      compile .z80 (b.execute m).1.bus.memory (b.execute m).1.registers.pc = .ok b' ∧
      b'.Stable (b.execute m).1 ∧
      (b'.execute (b.execute m).1).1.registers.hl = 1 ∧
      (b'.execute (b.execute m).1).1.registers.ix = 0 ∧
      ∀ instructions r, m.RunsEach IsWhole instructions r → r.1.registers.hl = 0 := by
  obtain ⟨memory, hm, hi⟩ := exists_memory_of_incrementIXAt 0xFFFE
  obtain ⟨⟨cost, hb⟩, ⟨cost', hb'⟩⟩ := hi.exists_compile_cut
  rw [← (by decide : (0 : Word) + .ofNat Cursor.limit = 0xFFFF)] at hb'
  have h0 : (({} : Snapshot).toRegisters .z80).hl = 0 := by decide
  refine ⟨memory, _, _, hm, ?_, hb, rfl, ?_, hb', ?_, ?_, ?_, ?_⟩
  · rw [hi]
    rfl
  · exact stable_of_bus (fun _ h => absurd h List.not_mem_nil) _
  · refine stable_of_bus (fun line h n => ?_) _
    obtain rfl := List.mem_singleton.mp h
    rfl
  · rw [hl_execute_incrementHL]
    exact congrArg (· + 1) h0
  · rfl
  · intro instructions r hr
    exact (hi.hl_of_runsEach hr rfl (by decide : (0 : Word) ≠ 0xFFFF)).trans h0

end Block

end Z80
