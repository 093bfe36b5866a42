import Z80.Proofs.Cache.Invalidation
import Z80.Proofs.Decode.Locality

/-!
A cache is coherent with a memory if every block in it is what compiling that memory gives.
The cache need not know what was written: dropping the blocks that share a byte with a
write is enough, because decoding depends on nothing but the bytes of the block.
-/

namespace Z80.Cache

variable {mode : Mode} {memory : Memory} {c : Cache}

structure Coherent (mode : Mode) (memory : Memory) (c : Cache) : Prop where
  indexed : c.Indexed
  compile_eq {k b} : c.get? k = some b → Block.compile mode memory k = .ok b

theorem coherent_empty (mode : Mode) (memory : Memory) : Coherent mode memory .empty where
  indexed := indexed_empty
  compile_eq h := by simp [empty, get?] at h

theorem coherent_clear (mode : Mode) (memory : Memory) (c : Cache) :
    Coherent mode memory c.clear where
  indexed := c.indexed_clear
  compile_eq h := by simp [clear, get?] at h

namespace Coherent

theorem insert (h : Coherent mode memory c) {k : Word} {b : Block}
    (hb : Block.compile mode memory k = .ok b) : Coherent mode memory (c.insert b) where
  indexed := h.indexed.insert b
  compile_eq {j d} hd := by
    rw [get?_insert] at hd
    split at hd
    · rename_i hj
      cases hd
      rw [← hj, Block.address_of_compile hb]
      exact hb
    · exact h.compile_eq hd

theorem withStats (h : Coherent mode memory c) (stats : Stats) :
    Coherent mode memory { c with stats := stats } :=
  ⟨h.indexed.withStats stats, h.compile_eq⟩

theorem getOrCompile (h : Coherent mode memory c) (k : Word) :
    (c.getOrCompile k fun _ => Block.compile mode memory k).1 = Block.compile mode memory k ∧
      Coherent mode memory (c.getOrCompile k fun _ => Block.compile mode memory k).2 := by
  simp only [Cache.getOrCompile]
  cases hk : c.get? k with
  | some b => exact ⟨(h.compile_eq hk).symm, h.withStats _⟩
  | none =>
      cases hb : Block.compile mode memory k with
      | error fault => exact ⟨rfl, h.withStats _⟩
      | ok b => exact ⟨rfl, ((h.withStats _).withStats _).insert hb⟩

theorem invalidate (h : Coherent mode memory c) (a : Word) (n : Nat) :
    Coherent mode memory (c.invalidate a n).2 where
  indexed := h.indexed.invalidate a n
  compile_eq {k b} hb := by
    rw [h.indexed.get?_invalidate, Option.filter_eq_some_iff] at hb
    exact h.compile_eq hb.1

/-- A write that is announced with its whole length leaves the cache coherent with the
memory behind the write. -/
theorem writeEach (h : Coherent mode memory c) (hm : memory.Local) (a : Word)
    (values : List Byte) :
    Coherent mode (memory.writeEach a values) (c.invalidate a values.length).2 where
  indexed := h.indexed.invalidate a values.length
  compile_eq {k b} hb := by
    rw [h.indexed.get?_invalidate, Option.filter_eq_some_iff] at hb
    obtain ⟨hk, ho⟩ := hb
    have hc := h.compile_eq hk
    by_cases hv : values.length = 0
    · rw [List.length_eq_zero_iff.mp hv]
      exact hc
    · refine Block.compile_congr hc fun i hi => ?_
      rw [Bool.not_eq_true'] at ho
      rw [← h.indexed.address_eq hk]
      exact Memory.readByte_writeEach_of_le hm (Block.le_of_overlaps_eq_false ho hv hi)

end Coherent
end Z80.Cache
