import Z80.Proofs.Cache.Removal
import Z80.Proofs.Memory.Flat

/-!
The books of a cache that watches a bus. Every call is a hit or a miss, every miss is a
compilation or a failure, and a block that was ever compiled is still in the cache, was
invalidated, or was dropped when the cache was cleared. As long as none of this happens to a
block, every call for its address finds it, and nothing is compiled a second time.
-/

namespace Z80.Cache

/-- What can be done with a cache. Writes reach it through the bus that it watches. -/
inductive Use : Type 1 where
  | getOrCompile {ε : Type} (address : Word) (compile : Unit → Except ε Block)
  | get (address : Word)
  | invalidate (address : Word) (length : Nat)
  | store (store : Store)
  | clear

namespace Use

/-- A compilation that succeeds gives a block from the address that was asked for. -/
def Honest : Use → Prop
  | getOrCompile address compile => ∀ b, compile () = .ok b → b.address = address ∧ 0 < b.length
  | get _ | invalidate _ _ | store _ | clear => True

/-- The block does not stay in the cache. -/
def Drops (b : Block) : Use → Prop
  | invalidate address length => b.Touches address length
  | store s => b.Touches s.address s.length
  | clear => True
  | getOrCompile _ _ | get _ => False

end Use

/-- A cache on its bus, beside what was asked of it so far. -/
structure Ledger where
  bus : Bus Cache
  /-- Calls of `getOrCompile`. -/
  calls : Nat
  /-- Those of them in which the compilation failed. -/
  failed : Nat
  /-- Blocks that were in the cache when it was cleared. -/
  cleared : Nat

namespace Ledger

def start (memory : Memory) : Ledger := ⟨⟨memory, .empty⟩, 0, 0, 0⟩

def cache (l : Ledger) : Cache := l.bus.observer

def step (l : Ledger) : Use → Ledger
  | .getOrCompile address compile =>
      let (answer, cache) := l.cache.getOrCompile address compile
      { l with
        bus.observer := cache
        calls := l.calls + 1
        failed := if answer.isOk then l.failed else l.failed + 1 }
  | .get _ => l
  | .invalidate address length =>
      { l with bus.observer := (l.cache.invalidate address length).2 }
  | .store s => { l with bus := l.bus.store s }
  | .clear => { l with bus.observer := l.cache.clear, cleared := l.cleared + l.cache.size }

def run (l : Ledger) (uses : List Use) : Ledger :=
  uses.foldl step l

theorem cache_store (l : Ledger) (s : Store) :
    (l.step (.store s)).cache = (l.cache.invalidate s.address s.length).2 :=
  congrArg Bus.observer (l.bus.store_eq s)

end Ledger

theorem size_insert {c : Cache} {b : Block} (h : c.get? b.address = none) :
    (c.insert b).size = c.size + 1 := by
  have hk : c.blocks.contains b.address = false := by
    rw [Std.TreeMap.contains_eq_isSome_getElem?, Option.isSome_eq_false_iff,
      Option.isNone_iff_eq_none]
    exact h
  simp [size, insert, Std.TreeMap.size_insert, hk]

/-- A call for a block that is in the cache compiles nothing. -/
theorem getOrCompile_of_get? {ε : Type} {c : Cache} {address : Word} {b : Block}
    (h : c.get? address = some b) (compile : Unit → Except ε Block) :
    c.getOrCompile address compile = (.ok b, { c with stats.hits := c.stats.hits + 1 }) := by
  simp only [getOrCompile, h]

/-- A call is a hit, a miss whose compilation failed, or a miss that stores a block. -/
theorem getOrCompile_counts {ε : Type} (c : Cache) {address : Word}
    {compile : Unit → Except ε Block} (hc : ∀ b, compile () = .ok b → b.address = address) :
    let r := c.getOrCompile address compile
    r.1.isOk = true ∧ r.2.size = c.size ∧
        r.2.stats = { c.stats with hits := c.stats.hits + 1 } ∨
      r.1.isOk = false ∧ r.2.size = c.size ∧
        r.2.stats = { c.stats with misses := c.stats.misses + 1 } ∨
      r.1.isOk = true ∧ r.2.size = c.size + 1 ∧
        r.2.stats = { c.stats with
          misses := c.stats.misses + 1
          compilations := c.stats.compilations + 1 } := by
  intro r
  cases hk : c.get? address with
  | some b =>
      have hr : r = _ := getOrCompile_of_get? hk compile
      rw [hr]
      exact .inl ⟨rfl, rfl, rfl⟩
  | none =>
      cases hb : compile () with
      | error e =>
          have hr : r = (.error e, { c with stats.misses := c.stats.misses + 1 }) := by
            simp only [r, getOrCompile, hk, hb]
          rw [hr]
          exact .inr (.inl ⟨rfl, rfl, rfl⟩)
      | ok b =>
          let stats : Stats := { c.stats with
            misses := c.stats.misses + 1
            compilations := c.stats.compilations + 1 }
          have hr : r = (.ok b, { c with stats := stats }.insert b) := by
            simp only [r, getOrCompile, hk, hb]
            rfl
          have hs : ({ c with stats := stats }.insert b).size = c.size + 1 := by
            refine size_insert (c := { c with stats := stats }) ?_
            rw [hc b hb]
            exact hk
          rw [hr]
          exact .inr (.inr ⟨rfl, hs, rfl⟩)

/-- The counters of a cache against what was asked of it: so many calls for a block, so many
failures, and so many blocks dropped by clearing. -/
structure Balanced (c : Cache) (calls failed cleared : Nat) : Prop where
  reachable : c.Reachable
  calls_eq : c.stats.hits + c.stats.misses = calls
  misses_eq : c.stats.compilations + failed = c.stats.misses
  compilations_eq : c.stats.compilations = c.stats.invalidations + c.size + cleared

theorem balanced_empty : empty.Balanced 0 0 0 :=
  ⟨.empty, rfl, rfl, rfl⟩

namespace Balanced

variable {c : Cache} {calls failed cleared : Nat}

theorem getOrCompile {ε : Type} (h : c.Balanced calls failed cleared) {address : Word}
    {compile : Unit → Except ε Block}
    (hc : ∀ b, compile () = .ok b → b.address = address ∧ 0 < b.length) :
    (c.getOrCompile address compile).2.Balanced (calls + 1)
      (if (c.getOrCompile address compile).1.isOk then failed else failed + 1) cleared := by
  obtain ⟨hr, hcalls, hmisses, hcompilations⟩ := h
  replace hr := hr.getOrCompile address compile fun b hb => (hc b hb).2
  obtain ⟨ho, hs, ht⟩ | ⟨ho, hs, ht⟩ | ⟨ho, hs, ht⟩ :=
    c.getOrCompile_counts fun b hb => (hc b hb).1
  all_goals
    refine ⟨hr, ?_, ?_, ?_⟩ <;> simp only [ho, hs, ht, if_true, Bool.false_eq_true, if_false] <;>
      omega

theorem invalidate (h : c.Balanced calls failed cleared) (address : Word) (length : Nat) :
    (c.invalidate address length).2.Balanced calls failed cleared := by
  obtain ⟨hr, hcalls, hmisses, hcompilations⟩ := h
  obtain ⟨hs, ht⟩ := c.invalidate_counts address length
  refine ⟨hr.invalidate address length, ?_, ?_, ?_⟩ <;> simp only [ht] <;> omega

theorem clear (h : c.Balanced calls failed cleared) :
    c.clear.Balanced calls failed (cleared + c.size) := by
  have hs : c.clear.size = 0 := rfl
  refine ⟨h.reachable.clear, h.calls_eq, h.misses_eq, ?_⟩
  rw [hs, Nat.add_zero, Nat.add_comm cleared, ← Nat.add_assoc]
  exact h.compilations_eq

end Balanced

/-- What a call stores does not take the place of another block. -/
theorem get?_getOrCompile {ε : Type} {c : Cache} {k : Word} {b : Block}
    (h : c.get? k = some b) {address : Word} {compile : Unit → Except ε Block}
    (hc : ∀ d, compile () = .ok d → d.address = address) :
    (c.getOrCompile address compile).2.get? k = some b := by
  simp only [getOrCompile]
  split
  · exact h
  · rename_i hn
    split
    · exact h
    · rename_i d hd
      have hk : d.address ≠ k := by
        rintro rfl
        rw [hc d hd, hn] at h
        cases h
      rw [get?_insert, if_neg hk]
      exact h

/-- A block that a call gave is in the cache behind it. -/
theorem get?_of_getOrCompile {ε : Type} {c : Cache} {address : Word} {b : Block}
    {compile : Unit → Except ε Block} (hc : ∀ d, compile () = .ok d → d.address = address)
    (h : (c.getOrCompile address compile).1 = .ok b) :
    (c.getOrCompile address compile).2.get? address = some b := by
  simp only [getOrCompile] at h ⊢
  split at h
  · rename_i d hd
    cases h
    exact hd
  · split at h
    · cases h
    · rename_i d hd
      cases h
      rw [get?_insert, if_pos (hc b hd)]

theorem Reachable.get?_invalidate {c : Cache} (hc : c.Reachable) {k : Word} {b : Block}
    (h : c.get? k = some b) {address : Word} {length : Nat} (hb : ¬ b.Touches address length) :
    (c.invalidate address length).2.get? k = some b := by
  rw [← Block.overlaps_iff_touches (hc.length_pos k b h), Bool.not_eq_true] at hb
  rw [hc.indexed.get?_invalidate, h, Option.filter_some, hb]
  rfl

namespace Ledger

variable {l : Ledger}

def Balanced (l : Ledger) : Prop :=
  l.cache.Balanced l.calls l.failed l.cleared

namespace Balanced

theorem start (memory : Memory) : (Ledger.start memory).Balanced := balanced_empty

theorem step (h : l.Balanced) {use : Use} (hu : use.Honest) : (l.step use).Balanced := by
  cases use with
  | getOrCompile address compile => exact Cache.Balanced.getOrCompile h hu
  | get _ => exact h
  | invalidate address length => exact Cache.Balanced.invalidate h address length
  | store s =>
      rw [Ledger.Balanced, cache_store]
      exact Cache.Balanced.invalidate h s.address s.length
  | clear => exact Cache.Balanced.clear h

theorem run (h : l.Balanced) {uses : List Use} (hu : ∀ use ∈ uses, use.Honest) :
    (l.run uses).Balanced := by
  induction uses generalizing l with
  | nil => exact h
  | cons use rest ih =>
      rw [List.forall_mem_cons] at hu
      exact ih (h.step hu.1) hu.2

theorem get?_step (h : l.Balanced) {k : Word} {b : Block} (hk : l.cache.get? k = some b)
    {use : Use} (hu : use.Honest) (hd : ¬ use.Drops b) : (l.step use).cache.get? k = some b := by
  cases use with
  | getOrCompile address compile => exact get?_getOrCompile hk fun d hb => (hu d hb).1
  | get _ => exact hk
  | invalidate address length => exact h.reachable.get?_invalidate hk hd
  | store s =>
      rw [cache_store]
      exact h.reachable.get?_invalidate hk hd
  | clear => exact absurd trivial hd

theorem get?_run (h : l.Balanced) {k : Word} {b : Block} (hk : l.cache.get? k = some b)
    {uses : List Use} (hu : ∀ use ∈ uses, use.Honest) (hd : ∀ use ∈ uses, ¬ use.Drops b) :
    (l.run uses).cache.get? k = some b := by
  induction uses generalizing l with
  | nil => exact hk
  | cons use rest ih =>
      rw [List.forall_mem_cons] at hu hd
      exact ih (h.step hu.1) (h.get?_step hk hu.1 hd.1) hu.2 hd.2

end Balanced

/-- Whatever is done with a cache, its two indexes and its counters are those of the blocks in
it. A block that was given to a caller is given to every later one, and nothing is compiled
for them, until one of the uses in between drops it. -/
theorem books_are_exact (memory : Memory) (uses : List Use) (hu : ∀ use ∈ uses, use.Honest) :
    let l := (start memory).run uses
    let c := l.cache
    (∀ k b, c.get? k = some b → b.address = k ∧ b.length ≤ c.longest) ∧
    (∀ k, k ∈ c.wrapping ↔ ∃ b, c.get? k = some b ∧ 0x10000 < b.stop) ∧
    c.stats.hits + c.stats.misses = l.calls ∧
    c.stats.compilations + l.failed = c.stats.misses ∧
    c.stats.compilations = c.stats.invalidations + c.size + l.cleared ∧
    ∀ {ε : Type} (k : Word) (compile : Unit → Except ε Block) (later : List Use) (b : Block),
      (c.getOrCompile k compile).1 = .ok b →
      (∀ use ∈ .getOrCompile k compile :: later, use.Honest) → (∀ use ∈ later, ¬ use.Drops b) →
      let d := (l.run (.getOrCompile k compile :: later)).cache
      d.get? k = some b ∧ ∀ {ε : Type} (compile : Unit → Except ε Block),
        d.getOrCompile k compile = (.ok b, { d with stats.hits := d.stats.hits + 1 }) := by
  intro l c
  have h : l.Balanced := (Balanced.start memory).run hu
  have hi := h.reachable.indexed
  refine ⟨fun k b hb => ⟨hi.address_eq hb, hi.length_le hb⟩, fun k => hi.mem_wrapping_iff,
    h.calls_eq, h.misses_eq, h.compilations_eq, ?_⟩
  intro ε k compile later b hb hl hd d
  rw [List.forall_mem_cons] at hl
  have hk : (l.step (.getOrCompile k compile)).cache.get? k = some b :=
    get?_of_getOrCompile (fun d hc => (hl.1 d hc).1) hb
  have hr : d.get? k = some b := (h.step hl.1).get?_run hk hl.2 hd
  exact ⟨hr, getOrCompile_of_get? hr⟩

/-- A block that wraps is kept beside a write to the byte behind it. A write to its last byte
drops it, and a shorter block, which does not wrap, takes its place. -/
theorem books_of_wrapping_block :
    let long : Block := ⟨0xFFFE, 4, #[], none, ⟨4, 16⟩, false⟩
    let short : Block := ⟨0xFFFE, 1, #[], some .halt, ⟨1, 4⟩, false⟩
    let compile (b : Block) (_ : Unit) : Except Unit Block := .ok b
    let first := Use.getOrCompile 0xFFFE (compile long)
    let later : List Use :=
      [.getOrCompile 0x0010 fun _ => (.error () : Except Unit Block), .store (.byte 0x0002 0x76)]
    let replacing : List Use := [.store (.byte 0x0001 0x76), .getOrCompile 0xFFFE (compile short)]
    ∃ memory, Memory.ofSegments [.ram 0 0x10000 #[]] = .ok memory ∧
      (∀ use ∈ first :: later ++ replacing, use.Honest) ∧ (∀ use ∈ later, ¬ use.Drops long) ∧
      let l := (start memory).run (first :: later)
      let c := ((start memory).run (first :: later ++ replacing)).cache
      l.calls = 2 ∧ l.failed = 1 ∧ l.cache.get? 0xFFFE = some long ∧ 0xFFFE ∈ l.cache.wrapping ∧
      c.get? 0xFFFE = some short ∧ 0xFFFE ∉ c.wrapping ∧
      c.stats.compilations = c.stats.invalidations + c.size := by
  intro long short compile first later replacing
  obtain ⟨memory, hm, -⟩ := Memory.exists_ofSegments_ram #[]
  have ht : ¬ long.Touches 0x0002 1 := by
    rw [← Block.overlaps_iff_touches (by decide)]
    decide
  have hu : ∀ use ∈ first :: later ++ replacing, use.Honest := by
    simp [first, later, replacing, Use.Honest, compile, long, short]
  have hd : ∀ use ∈ later, ¬ use.Drops long := by
    simp [later, Use.Drops, ht, Store.address, Store.length]
  have hl : ∀ use ∈ first :: later, use.Honest :=
    fun use hm => hu use (List.mem_append_left replacing hm)
  let l := (start memory).run (first :: later)
  let c := ((start memory).run (first :: later ++ replacing)).cache
  obtain ⟨-, -, -, -, -, hkeeps⟩ := books_are_exact memory [] (by simp)
  have hk : l.cache.get? 0xFFFE = some long := (hkeeps 0xFFFE (compile long) later long rfl hl hd).1
  obtain ⟨-, hw, -⟩ := books_are_exact memory (first :: later) hl
  obtain ⟨-, hv, -, -, hn, -⟩ := books_are_exact memory (first :: later ++ replacing) hu
  have hi : (l.cache.invalidate 0x0001 1).2.get? 0xFFFE = none := by
    rw [((Balanced.start memory).run hl).reachable.indexed.get?_invalidate, hk]
    rfl
  have hc : c.get? 0xFFFE = some short := by
    change ((l.cache.invalidate 0x0001 1).2.getOrCompile 0xFFFE (compile short)).2.get? _ = _
    refine get?_of_getOrCompile (fun d hd => ?_) ?_
    · cases hd
      rfl
    · simp only [Cache.getOrCompile, hi, compile]
  refine ⟨memory, hm, hu, hd, rfl, rfl, hk, (hw 0xFFFE).mpr ⟨long, hk, by decide⟩, hc, ?_, hn⟩
  rw [hv 0xFFFE]
  rintro ⟨b, hb, hs⟩
  rw [hc] at hb
  cases hb
  exact absurd hs (by decide)

end Ledger
end Z80.Cache
