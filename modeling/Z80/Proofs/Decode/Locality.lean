import Z80.Block.Compile
import Z80.Proofs.Memory.Bytes

/-!
Decoding sees nothing of memory but the bytes it consumes. A cursor is a stream of bytes;
what is fetched from it is fetched from every other cursor with the same bytes ahead,
wherever that one stands, as long as the byte limit does not cut a run of index bytes.
-/

namespace Z80

namespace Cursor

def peek (c : Cursor) (ahead : Nat) : Byte :=
  c.memory.readByte (c.address + .ofNat ahead)

/-- The next `count` bytes are the same. -/
def Alike (c d : Cursor) (count : Nat) : Prop :=
  ∀ i < count, d.peek i = c.peek i

@[simp] theorem consumed_skip (c : Cursor) (n : Nat) : (c.skip n).consumed = c.consumed + n := rfl

@[simp] theorem start_skip (c : Cursor) (n : Nat) : (c.skip n).start = c.start := rfl

@[simp] theorem memory_skip (c : Cursor) (n : Nat) : (c.skip n).memory = c.memory := rfl

@[simp] theorem skip_skip (c : Cursor) (m n : Nat) : (c.skip m).skip n = c.skip (m + n) := by
  simp only [skip, Nat.add_assoc]

theorem limitReached_iff (c : Cursor) : c.limitReached = true ↔ limit ≤ c.consumed :=
  decide_eq_true_iff

theorem address_skip (c : Cursor) (n : Nat) : (c.skip n).address = c.address + .ofNat n := by
  simp only [address, skip, UInt16.ofNat_add]
  grind

theorem peek_skip (c : Cursor) (m n : Nat) : (c.skip m).peek n = c.peek (m + n) := by
  simp only [peek, address_skip, memory_skip, UInt16.ofNat_add]
  congr 1
  grind

theorem address_begin (memory : Memory) (a : Word) : (begin memory a).address = a := by
  simp only [address, begin]
  grind

theorem peek_begin (memory : Memory) (a : Word) (i : Nat) :
    (begin memory a).peek i = memory.readByte (a + .ofNat i) := by
  rw [peek, address_begin]
  rfl

theorem byte_eq (c : Cursor) : c.byte = (c.peek 0, c.skip 1) := by
  have h : c.address + .ofNat 0 = c.address := by grind
  simp only [byte, peek, h]

theorem word_eq (c : Cursor) : c.word = (.ofBytes (c.peek 0) (c.peek 1), c.skip 2) := by
  have h : c.address + .ofNat 0 = c.address := by grind
  simp only [word, peek, h, Memory.readWord_eq]
  rfl

namespace Alike

variable {c d : Cursor} {m n : Nat}

theorem mono (h : Alike c d n) (hm : m ≤ n) : Alike c d m :=
  fun i hi => h i (Nat.lt_of_lt_of_le hi hm)

theorem skip (h : Alike c d (m + n)) : Alike (c.skip m) (d.skip m) n := by
  intro i hi
  rw [peek_skip, peek_skip]
  exact h (m + i) (by omega)

theorem begin_skip {memory : Memory} {a : Word} (h : Alike c (.begin memory a) (m + n)) :
    Alike (c.skip m) (.begin memory (a + .ofNat m)) n := by
  intro i hi
  rw [peek_skip, ← h (m + i) (by omega), peek_begin, peek_begin, UInt16.ofNat_add]
  congr 1
  grind

end Alike
end Cursor

namespace Fetch

variable {α β : Type}

theorem run_bind (f : Fetch α) (g : α → Fetch β) (c : Cursor) :
    (f >>= g).run c = (f.run c).bind fun x => (g x.1).run x.2 := by
  induction f generalizing c with
  | done value => rfl
  | byte next ih => exact ih _ _
  | word next ih => exact ih _ _
  | undefined table opcode => rfl

/-- A fetch is determined by the bytes that it reads. -/
theorem exists_skip_of_run {f : Fetch α} {c d : Cursor} {value : α}
    (h : f.run c = .ok (value, d)) : ∃ n, d = c.skip n ∧
      ∀ e, Cursor.Alike c e n → f.run e = .ok (value, e.skip n) := by
  induction f generalizing c with
  | done v =>
      simp only [run, Except.ok.injEq, Prod.mk.injEq] at h
      obtain ⟨rfl, rfl⟩ := h
      exact ⟨0, rfl, fun _ _ => rfl⟩
  | byte next ih =>
      simp only [run, Cursor.byte_eq] at h
      obtain ⟨n, hd, hn⟩ := ih _ h
      refine ⟨1 + n, by rw [hd, Cursor.skip_skip], ?_⟩
      intro e he
      simp only [run, Cursor.byte_eq]
      rw [he 0 (by omega), hn _ he.skip, Cursor.skip_skip]
  | word next ih =>
      simp only [run, Cursor.word_eq] at h
      obtain ⟨n, hd, hn⟩ := ih _ h
      refine ⟨2 + n, by rw [hd, Cursor.skip_skip], ?_⟩
      intro e he
      simp only [run, Cursor.word_eq]
      rw [he 0 (by omega), he 1 (by omega), hn _ he.skip, Cursor.skip_skip]
  | undefined table opcode => simp [run] at h

end Fetch

def isIndexByte (b : Byte) : Bool :=
  b == 0xDD || b == 0xFD

theorem Opcode.toNat_eq (b : Byte) :
    b.toNat = 64 * (ofByte b).x.val + 8 * (ofByte b).y.val + (ofByte b).z.val := by
  have := b.toNat_lt
  simp only [ofByte]
  omega

theorem Primary.run_instruction_ne {f : Fetch Instruction} {register : Index} {c d : Cursor} :
    (f >>= fun i => pure (Entry.instruction i)).run c ≠ .ok (.index register, d) := by
  intro h
  rw [Fetch.run_bind] at h
  cases hf : f.run c with
  | error e =>
      rw [hf] at h
      cases h
  | ok r =>
      rw [hf] at h
      cases h

/-- Only an index byte selects an index register, and it takes no further byte. -/
theorem Primary.isIndexByte_of_run {index register : Index} {b : Byte} {c d : Cursor}
    (h : (Primary.decode index b).run c = .ok (.index register, d)) :
    isIndexByte b = true ∧ d = c := by
  have select {r : Index} (hr : (pure (Entry.index r) : Fetch Entry).run c =
      .ok (.index register, d)) : d = c := by
    cases hr
    rfl
  simp only [Primary.decode] at h
  split at h
  · exact absurd h run_instruction_ne
  · exact absurd h run_instruction_ne
  · exact absurd h run_instruction_ne
  · rename_i hx
    split at h
    · cases h
    · split at h
      · rename_i hyz
        have hb := Opcode.toNat_eq b
        rw [hx, hyz.1, hyz.2] at hb
        have : b = 0xDD := UInt8.toNat_inj.mp hb
        exact ⟨by rw [this]; rfl, select h⟩
      · split at h
        · exact absurd h run_instruction_ne
        · split at h
          · rename_i hyz
            have hb := Opcode.toNat_eq b
            rw [hx, hyz.1, hyz.2] at hb
            have : b = 0xFD := UInt8.toNat_inj.mp hb
            exact ⟨by rw [this]; rfl, select h⟩
          · exact absurd h run_instruction_ne

namespace Cursor

/-- An instruction at a cursor is cut by the byte limit if nothing but index bytes stand
between the two. -/
def RunsToLimit (c : Cursor) : Prop :=
  ∃ n, limit ≤ c.consumed + n ∧ ∀ i < n, isIndexByte (c.peek i) = true

theorem RunsToLimit.of_skip {c : Cursor} (hb : isIndexByte (c.peek 0) = true)
    (h : (c.skip 1).RunsToLimit) : c.RunsToLimit := by
  obtain ⟨n, hn, hi⟩ := h
  refine ⟨1 + n, by simpa [Nat.add_assoc] using hn, ?_⟩
  intro j hj
  cases j with
  | zero => exact hb
  | succ j =>
      have h0 := hi j (by omega)
      rwa [peek_skip, Nat.add_comm] at h0

theorem locate_eq_ok {α : Type} {start : Word} {r : Except (OpcodeTable × Byte) α} {x : α} :
    locate start r = .ok x ↔ r = .ok x := by
  cases r with
  | error e => simp [locate]
  | ok v => simp [locate]

theorem indexedInstruction_eq (start : Word) (index : Index) (paid : Cost) (c : Cursor) :
    indexedInstruction start index paid c =
      match locate start ((Primary.decode index (c.peek 0)).run (c.skip 1)) with
      | .error fault => .error fault
      | .ok (.instruction i, d) => .ok (i.addCost paid, d)
      | .ok (.index register, d) =>
          if d.limitReached then .ok (.operation .nop (paid + ⟨1, 4⟩), d)
          else indexedInstruction start register (paid + ⟨1, 4⟩) d := by
  rw [indexedInstruction]
  split <;> simp_all [byte_eq]

/-- The instruction at a cursor is determined by its bytes. A cursor that stands nearer to
its start sees the same instruction unless the limit cut it. -/
theorem exists_skip_of_indexedInstruction {start : Word} {index : Index} {paid : Cost}
    {c d : Cursor} {i : Instruction} (h : indexedInstruction start index paid c = .ok (i, d)) :
    ∃ n, 0 < n ∧ d = c.skip n ∧ ∀ e s, Alike c e n →
      (e.consumed = c.consumed ∨ e.consumed ≤ c.consumed ∧ ¬ c.RunsToLimit) →
      indexedInstruction s index paid e = .ok (i, e.skip n) := by
  induction hk : limit - c.consumed using Nat.strongRecOn generalizing c index paid with
  | _ k ih =>
      rw [indexedInstruction_eq] at h
      split at h
      · cases h
      · rename_i j f hf
        obtain ⟨n, hd, hn⟩ := Fetch.exists_skip_of_run (locate_eq_ok.mp hf)
        simp only [Except.ok.injEq, Prod.mk.injEq] at h
        obtain ⟨rfl, rfl⟩ := h
        refine ⟨1 + n, by omega, by rw [hd, skip_skip], ?_⟩
        intro e s ha _
        rw [indexedInstruction_eq, ha 0 (by omega), hn _ ha.skip]
        simp only [locate, skip_skip]
      · rename_i register f hf
        obtain ⟨hb, rfl⟩ := Primary.isIndexByte_of_run (locate_eq_ok.mp hf)
        obtain ⟨n, hd, hn⟩ := Fetch.exists_skip_of_run (locate_eq_ok.mp hf)
        have hn0 : n = 0 := by simpa [skip] using hd
        subst hn0
        have same (e : Cursor) (s : Word) (ha : Alike c e 1) :
            locate s ((Primary.decode index (e.peek 0)).run (e.skip 1)) =
              .ok (.index register, e.skip 1) := by
          rw [ha 0 (by omega), hn _ (ha.mono (by omega)).skip]
          rfl
        split at h
        · -- The limit cuts the run behind this byte.
          rename_i hl
          simp only [Except.ok.injEq, Prod.mk.injEq] at h
          obtain ⟨rfl, rfl⟩ := h
          refine ⟨1, by omega, rfl, ?_⟩
          intro e s ha hc
          have hc : e.consumed = c.consumed := by
            refine hc.resolve_right fun h0 => h0.2 ⟨1, ?_, ?_⟩
            · exact (limitReached_iff _).mp hl
            · intro j hj
              rwa [show j = 0 by omega]
          have he : (e.skip 1).limitReached = true := by
            rw [limitReached_iff, consumed_skip] at hl ⊢
            rwa [hc]
          rw [indexedInstruction_eq, same e s ha]
          simp only [he, if_true]
        · rename_i hl
          rw [limitReached_iff, consumed_skip] at hl
          obtain ⟨m, hm, hd, hr⟩ := ih _ (by simp only [consumed_skip]; omega) h rfl
          refine ⟨1 + m, by omega, by rw [hd, skip_skip], ?_⟩
          intro e s ha hc
          have he : ¬ (e.skip 1).limitReached = true := by
            rw [limitReached_iff, consumed_skip]
            omega
          rw [indexedInstruction_eq, same e s (ha.mono (by omega))]
          simp only [if_neg he]
          rw [hr _ s ha.skip (hc.imp (congrArg (· + 1)) fun h0 =>
            ⟨Nat.succ_le_succ h0.1, fun h1 => h0.2 (h1.of_skip hb)⟩), skip_skip]

theorem exists_skip_of_instruction {mode : Mode} {c d : Cursor} {i : Instruction}
    (h : c.instruction mode = .ok (i, d)) :
    ∃ n, 0 < n ∧ d = c.skip n ∧ ∀ e, Alike c e n →
      (e.consumed = c.consumed ∨ e.consumed ≤ c.consumed ∧ (mode = .z80 → ¬ c.RunsToLimit)) →
      e.instruction mode = .ok (i, e.skip n) := by
  cases mode with
  | z80 =>
      obtain ⟨n, hn, hd, hr⟩ := exists_skip_of_indexedInstruction h
      exact ⟨n, hn, hd, fun e ha hc => hr e e.address ha (hc.imp_right fun h0 => ⟨h0.1, h0.2 rfl⟩)⟩
  | gameBoy =>
      simp only [instruction, byte_eq] at h
      obtain ⟨n, hd, hr⟩ := Fetch.exists_skip_of_run (locate_eq_ok.mp h)
      refine ⟨1 + n, by omega, by rw [hd, skip_skip], ?_⟩
      intro e ha _
      simp only [instruction, byte_eq]
      rw [ha 0 (by omega), hr _ ha.skip, skip_skip]
      rfl

/-- A Game Boy instruction of one byte. -/
theorem instruction_of_byte {c : Cursor} {byte : Byte} {i : Instruction} (hb : c.peek 0 = byte)
    (hd : GameBoy.decode byte = .done i) : c.instruction .gameBoy = .ok (i, c.skip 1) := by
  rw [instruction, byte_eq, hb, hd]
  rfl

end Cursor

namespace Block

theorem compileFrom_eq (mode : Mode) (c : Cursor) (lines : Array Line) (cost : Cost) :
    compileFrom mode c lines cost =
      match c.instruction mode with
      | .error fault => .error fault
      | .ok (.exit e extra varies, d) =>
          .ok ⟨d.start, d.consumed, lines, some e, cost + extra, varies⟩
      | .ok (.operation op extra, d) =>
          if d.limitReached then
            .ok ⟨d.start, d.consumed, addLine lines op d.consumed, none, cost + extra, false⟩
          else compileFrom mode d (addLine lines op d.consumed) (cost + extra) := by
  rw [compileFrom]
  split <;> simp_all

theorem exists_length_of_compileFrom {mode : Mode} {c : Cursor} {lines : Array Line}
    {cost : Cost} {b : Block} (h : compileFrom mode c lines cost = .ok b) :
    ∃ n, 0 < n ∧ b.address = c.start ∧ b.length = c.consumed + n ∧
      ∀ e : Cursor, e.start = c.start → e.consumed = c.consumed → Cursor.Alike c e n →
        compileFrom mode e lines cost = .ok b := by
  induction hk : Cursor.limit - c.consumed using Nat.strongRecOn
    generalizing c lines cost with
  | _ k ih =>
      rw [compileFrom_eq] at h
      split at h
      · cases h
      · rename_i e extra varies d hi
        obtain ⟨n, hn, rfl, hr⟩ := Cursor.exists_skip_of_instruction hi
        simp only [Except.ok.injEq] at h
        subst h
        refine ⟨n, hn, rfl, rfl, ?_⟩
        intro e hs hc ha
        rw [compileFrom_eq, hr e ha (.inl hc)]
        simp only [Cursor.start_skip, Cursor.consumed_skip, hs, hc]
      · rename_i op extra d hi
        obtain ⟨n, hn, rfl, hr⟩ := Cursor.exists_skip_of_instruction hi
        split at h
        · rename_i hl
          simp only [Except.ok.injEq] at h
          subst h
          refine ⟨n, hn, rfl, rfl, ?_⟩
          intro e hs hc ha
          rw [Cursor.limitReached_iff, Cursor.consumed_skip] at hl
          rw [compileFrom_eq, hr e ha (.inl hc)]
          simp only [Cursor.start_skip, Cursor.consumed_skip, hs, hc, Cursor.limitReached_iff,
            if_pos hl]
        · rename_i hl
          rw [Cursor.limitReached_iff, Cursor.consumed_skip] at hl
          obtain ⟨m, hm, hb, hlen, hq⟩ := ih _ (by rw [Cursor.consumed_skip]; omega) h rfl
          refine ⟨n + m, by omega, hb, by rw [hlen, Cursor.consumed_skip, Nat.add_assoc], ?_⟩
          intro e hs hc ha
          rw [compileFrom_eq, hr e (ha.mono (by omega)) (.inl hc)]
          simp only [Cursor.limitReached_iff, Cursor.consumed_skip, hc, if_neg hl]
          exact hq _ hs (by simp only [Cursor.consumed_skip, hc]) ha.skip

theorem compile_congr {mode : Mode} {m n : Memory} {address : Word} {b : Block}
    (h : compile mode m address = .ok b)
    (ha : ∀ i < b.length, n.readByte (address + .ofNat i) = m.readByte (address + .ofNat i)) :
    compile mode n address = .ok b := by
  obtain ⟨k, _, _, hk, hc⟩ := exists_length_of_compileFrom h
  refine hc (.begin n address) rfl rfl ?_
  intro i hi
  simp only [Cursor.begin, Nat.zero_add] at hk
  rw [Cursor.peek_begin, Cursor.peek_begin]
  exact ha i (hk ▸ hi)

theorem address_of_compile {mode : Mode} {m : Memory} {address : Word} {b : Block}
    (h : compile mode m address = .ok b) : b.address = address := by
  obtain ⟨_, _, ha, _, _⟩ := exists_length_of_compileFrom h
  exact ha

/-- A Game Boy block of a single exit of one byte. -/
theorem compile_of_byte {memory : Memory} {a : Word} {byte : Byte} {e : Exit} {cost : Cost}
    {varies : Bool} (hb : memory.readByte a = byte)
    (hd : GameBoy.decode byte = .done (.exit e cost varies)) :
    Block.compile .gameBoy memory a = .ok ⟨a, 1, #[], some e, cost, varies⟩ := by
  have h0 : a + .ofNat 0 = a := by grind
  have hi := Cursor.instruction_of_byte (c := .begin memory a)
    (by rw [Cursor.peek_begin, h0, hb]) hd
  rw [compile, compileFrom_eq, hi]
  simp only [Cursor.start_skip, Cursor.consumed_skip, Cursor.begin, Nat.zero_add, Cost.zero_add]

end Block
end Z80
