import Z80.Proofs.Cache.Invalidation

/-!
An invalidation removes the blocks that share a byte with the range, keeps all others and
counts what it removed, in every state that a cache can come to. The blocks may be of any
length and may have been stored on behalf of another address; both they and the range may
run past the top of memory, and more than once.
-/

namespace Z80

/-- One of `length` bytes from `address` is a byte of the block. -/
def Block.Touches (b : Block) (address : Word) (length : Nat) : Prop :=
  ∃ i < length, ∃ j < b.length, (address.toNat + i) % 0x10000 = (b.address.toNat + j) % 0x10000

/-- Whichever of two ranges starts behind the other one starts inside it, if they meet. -/
theorem Block.overlaps_iff_touches {b : Block} (hb : 0 < b.length) {address : Word}
    {length : Nat} : b.overlaps address length = true ↔ b.Touches address length := by
  have := address.toNat_lt
  have := b.address.toNat_lt
  simp only [overlaps, Touches, Bool.and_eq_true, bne_iff_ne, Bool.or_eq_true, decide_eq_true_eq,
    UInt16.toNat_sub]
  constructor
  · rintro ⟨hn, hl | hl⟩
    · exact ⟨0, by omega, _, hl, by omega⟩
    · exact ⟨_, hl, 0, hb, by omega⟩
  · rintro ⟨i, hi, j, hj, h⟩
    refine ⟨by omega, ?_⟩
    by_cases hij : i ≤ j
    · exact .inl (by omega)
    · exact .inr (by omega)

namespace Cache

/-- What a cache can come to by calls. The function that compiles may use the cache itself:
then the call is a miss and, unless the function fails, a later store, with other calls in
between. -/
inductive Reachable : Cache → Prop
  | empty : Reachable .empty
  | getOrCompile {c : Cache} {ε : Type} (address : Word) (compile : Unit → Except ε Block) :
      (∀ b, compile () = .ok b → 0 < b.length) → Reachable c →
      Reachable (c.getOrCompile address compile).2
  | miss {c : Cache} : Reachable c → Reachable { c with stats.misses := c.stats.misses + 1 }
  | store {c : Cache} {b : Block} : 0 < b.length → Reachable c →
      Reachable ({ c with stats.compilations := c.stats.compilations + 1 }.insert b)
  | invalidate {c : Cache} (address : Word) (length : Nat) : Reachable c →
      Reachable (c.invalidate address length).2
  | clear {c : Cache} : Reachable c → Reachable c.clear

namespace Reachable

variable {c : Cache}

theorem indexed (h : c.Reachable) : c.Indexed := by
  induction h with
  | empty => exact indexed_empty
  | getOrCompile a compile _ _ ih => exact ih.getOrCompile a compile
  | miss _ ih => exact ih.withStats _
  | store _ _ ih => exact (ih.withStats _).insert _
  | invalidate a n _ ih => exact ih.invalidate a n
  | clear _ _ => exact indexed_clear _

theorem length_pos (h : c.Reachable) : c.Holds fun b => 0 < b.length := by
  induction h with
  | empty => exact holds_empty _
  | getOrCompile a compile hb _ ih => exact (ih.getOrCompile a compile hb).2
  | miss _ ih => exact ih
  | @store c b hb _ ih =>
      exact Holds.insert (c := { c with stats.compilations := c.stats.compilations + 1 }) ih hb
  | invalidate a n _ ih => exact ih.invalidate a n
  | clear _ _ => exact holds_clear _ _

end Reachable

theorem size_drop {c : Cache} {k : Word} {b : Block} (h : c.get? k = some b) :
    1 + (c.drop k).size = c.size := by
  have hk : c.blocks.contains k = true := by
    rw [Std.TreeMap.contains_eq_isSome_getElem?]
    exact Option.isSome_of_eq_some h
  have hs : 0 < c.blocks.size := by
    rw [Nat.pos_iff_ne_zero]
    intro hz
    have he : c.blocks.isEmpty = true := by rw [Std.TreeMap.isEmpty_eq_size_eq_zero, hz]; rfl
    rw [get?, Std.TreeMap.getElem?_of_isEmpty he] at h
    cases h
  simp only [size, drop, Std.TreeMap.size_erase, hk, if_true]
  omega

/-- A candidate that was dropped is not found a second time, and so it is counted once. -/
theorem dropTouched_counts (a : Word) (n : Nat) (candidates : List Word) (removed : Nat)
    (c : Cache) :
    let r := dropTouched a n candidates (removed, c)
    r.1 + r.2.size = removed + c.size ∧ r.2.stats = c.stats := by
  induction candidates generalizing removed c with
  | nil => exact ⟨rfl, rfl⟩
  | cons k rest ih =>
      simp only [dropTouched]
      split
      · rename_i b hb
        split
        · obtain ⟨hs, ht⟩ := ih (removed + 1) (c.drop k)
          refine ⟨?_, ht⟩
          rw [← size_drop hb, ← Nat.add_assoc]
          exact hs
        · exact ih removed c
      · exact ih removed c

theorem invalidate_counts (c : Cache) (a : Word) (n : Nat) :
    let removed := (c.invalidate a n).1
    removed + (c.invalidate a n).2.size = c.size ∧
      (c.invalidate a n).2.stats =
        { c.stats with invalidations := c.stats.invalidations + removed } := by
  simp only [Cache.invalidate]
  split
  · exact ⟨Nat.zero_add _, rfl⟩
  · obtain ⟨hs, ht⟩ := dropTouched_counts a n (c.candidates a n) 0 c
    rw [Nat.zero_add] at hs
    simp only [← ht]
    exact ⟨hs, trivial⟩

/-- An invalidation removes the blocks that one of the bytes of the range belongs to, keeps
every other block, and tells and counts how many it removed. -/
theorem invalidate_removes_touched {c : Cache} (h : c.Reachable) (a : Word) (n : Nat) :
    let removed := (c.invalidate a n).1
    let d := (c.invalidate a n).2
    (∀ k b, d.get? k = some b ↔ c.get? k = some b ∧ ¬ b.Touches a n) ∧
      removed + d.size = c.size ∧
      d.stats = { c.stats with invalidations := c.stats.invalidations + removed } := by
  refine ⟨?_, c.invalidate_counts a n⟩
  intro k b
  rw [h.indexed.get?_invalidate, Option.filter_eq_some_iff, Bool.not_eq_true']
  refine and_congr_right fun hk => ?_
  rw [← Block.overlaps_iff_touches (h.length_pos k b hk), Bool.not_eq_true]

/-- A block that was stored for address 0 but starts at the top of memory runs over two
bytes at the bottom. A write there removes it and keeps the block next to it. -/
theorem invalidate_removes_wrapping :
    let high : Block := ⟨0xFFFF, 3, #[], none, ⟨3, 12⟩, false⟩
    let low : Block := ⟨0x0002, 2, #[], none, ⟨2, 8⟩, false⟩
    let compile (b : Block) (_ : Unit) : Except DecodeFault Block := .ok b
    let c := ((empty.getOrCompile 0 (compile high)).2.getOrCompile 2 (compile low)).2
    c.Reachable ∧ c.get? 0xFFFF = some high ∧ high.Touches 1 1 ∧ ¬ low.Touches 1 1 ∧
      (c.invalidate 1 1).2.get? 0xFFFF = none ∧ (c.invalidate 1 1).2.get? 2 = some low ∧
      (c.invalidate 1 1).1 + (c.invalidate 1 1).2.size = c.size := by
  intro high low compile c
  have hc : c.Reachable := by
    refine .getOrCompile 2 _ ?_ (.getOrCompile 0 _ ?_ .empty) <;>
    · intro b hb
      cases hb
      decide
  have hh : c.get? 0xFFFF = some high := by rfl
  have hl : c.get? 2 = some low := by rfl
  have ht : high.Touches 1 1 := ⟨0, by decide, 2, by decide, by decide⟩
  have hn : ¬ low.Touches 1 1 := by
    rw [← Block.overlaps_iff_touches (by decide)]
    decide
  obtain ⟨hk, hs, -⟩ := invalidate_removes_touched hc 1 1
  refine ⟨hc, hh, ht, hn, ?_, (hk 2 low).mpr ⟨hl, hn⟩, hs⟩
  rw [Option.eq_none_iff_forall_ne_some]
  intro b hb
  obtain ⟨hb, hb'⟩ := (hk 0xFFFF b).mp hb
  rw [hh] at hb
  cases hb
  exact hb' ht

end Cache
end Z80
