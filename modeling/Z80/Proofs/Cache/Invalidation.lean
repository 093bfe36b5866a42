import Std.Data.TreeMap.Lemmas
import Std.Data.TreeSet.Lemmas
import Z80.Cache

/-!
What an invalidation removes. The cache only looks at candidates; its bound on the length
of blocks and its list of wrapping blocks make sure that every block which shares a byte
with the range is one of them. The invariant says what the two have to be.
-/

namespace Z80

namespace Block

theorem le_of_overlaps_eq_false {b : Block} {address : Word} {length i : Nat}
    (h : b.overlaps address length = false) (hl : length ≠ 0) (hi : i < b.length) :
    length ≤ (b.address + .ofNat i - address).toNat := by
  simp only [overlaps, Bool.and_eq_false_iff, bne_eq_false_iff_eq, Bool.or_eq_false_iff,
    decide_eq_false_iff_not, Nat.not_lt] at h
  obtain ⟨h0, h1⟩ := h.resolve_left hl
  simp only [UInt16.toNat_sub, UInt16.toNat_add, UInt16.toNat_ofNat'] at h0 h1 ⊢
  have := address.toNat_lt
  have := b.address.toNat_lt
  omega

end Block

namespace Cache

/-- Blocks are stored under their own addresses, none is longer than the bound, and those
that wrap are known. -/
structure Indexed (c : Cache) : Prop where
  address_eq {k b} : c.get? k = some b → b.address = k
  length_le {k b} : c.get? k = some b → b.length ≤ c.longest
  mem_wrapping_iff {k} : k ∈ c.wrapping ↔ ∃ b, c.get? k = some b ∧ 0x10000 < b.stop

theorem indexed_empty : empty.Indexed where
  address_eq h := by simp [empty, get?] at h
  length_le h := by simp [empty, get?] at h
  mem_wrapping_iff := by simp [empty, get?]

theorem indexed_clear (c : Cache) : c.clear.Indexed where
  address_eq h := by simp [clear, get?] at h
  length_le h := by simp [clear, get?] at h
  mem_wrapping_iff := by simp [clear, get?]

theorem get?_insert (c : Cache) (b : Block) (k : Word) :
    (c.insert b).get? k = if b.address = k then some b else c.get? k := by
  simp only [insert, get?, Std.TreeMap.getElem?_insert, Std.compare_eq_iff_eq]

theorem Indexed.insert {c : Cache} (h : c.Indexed) (b : Block) : (c.insert b).Indexed where
  address_eq {k b'} hb := by
    rw [get?_insert] at hb
    split at hb
    · rename_i hk
      cases hb
      exact hk
    · exact h.address_eq hb
  length_le {k b'} hb := by
    rw [get?_insert] at hb
    simp only [Cache.insert]
    split at hb
    · cases hb
      exact Nat.le_max_right _ _
    · exact Nat.le_trans (h.length_le hb) (Nat.le_max_left _ _)
  mem_wrapping_iff {k} := by
    rw [get?_insert]
    have hw : k ∈ (c.insert b).wrapping ↔
        if b.address = k then 0x10000 < b.stop else k ∈ c.wrapping := by
      simp only [Cache.insert]
      split <;> split <;> simp_all
    rw [hw]
    split
    · simp
    · exact h.mem_wrapping_iff

theorem Indexed.withStats {c : Cache} (h : c.Indexed) (stats : Stats) :
    { c with stats := stats }.Indexed :=
  ⟨h.address_eq, h.length_le, h.mem_wrapping_iff⟩

theorem Indexed.getOrCompile {c : Cache} (h : c.Indexed) {ε : Type} (a : Word)
    (compile : Unit → Except ε Block) : (c.getOrCompile a compile).2.Indexed := by
  simp only [Cache.getOrCompile]
  split
  · exact h.withStats _
  · split
    · exact h.withStats _
    · exact ((h.withStats _).withStats _).insert _

theorem mem_startsBetween {c : Cache} {low high k : Word} :
    k ∈ c.startsBetween low high ↔ (∃ b, c.get? k = some b) ∧ low ≤ k ∧ k ≤ high := by
  simp [startsBetween, get?, Std.TreeMap.mem_toList_iff_getElem?_eq_some,
    Std.LawfulOrderOrd.isGE_compare, Std.LawfulOrderOrd.isLE_compare]

theorem Indexed.mem_candidates {c : Cache} (h : c.Indexed) {k a : Word} {b : Block} {n : Nat}
    (hb : c.get? k = some b) (ho : b.overlaps a n = true) : k ∈ c.candidates a n := by
  have hk := h.address_eq hb
  have hl := h.length_le hb
  simp only [Block.overlaps, hk, Bool.and_eq_true, bne_iff_ne, Bool.or_eq_true,
    decide_eq_true_eq, UInt16.toNat_sub] at ho
  obtain ⟨hn, ho⟩ := ho
  have := a.toNat_lt
  have := k.toNat_lt
  simp only [candidates, List.mem_append]
  by_cases hw : 0x10000 < b.stop
  · refine .inr ?_
    rw [Std.TreeSet.mem_toList]
    exact h.mem_wrapping_iff.mpr ⟨b, hb, hw⟩
  · refine .inl ?_
    simp only [Block.stop, hk] at hw
    by_cases hr : a.toNat - min (c.longest - 1) a.toNat ≤ k.toNat ∧
        k.toNat ≤ min (a.toNat + min n 0x10000) 0x10000 - 1
    · refine .inl (mem_startsBetween.mpr ⟨⟨b, hb⟩, ?_, ?_⟩)
      · rw [UInt16.le_iff_toNat_le, UInt16.toNat_ofNat']
        omega
      · rw [UInt16.le_iff_toNat_le, UInt16.toNat_ofNat']
        omega
    · -- Only the part of the range behind the top of memory is left.
      have hs : a.toNat + min n 0x10000 > 0x10000 := by omega
      rw [if_pos hs]
      refine .inr (mem_startsBetween.mpr ⟨⟨b, hb⟩, ?_, ?_⟩)
      · rw [UInt16.le_iff_toNat_le]
        exact Nat.zero_le _
      · rw [UInt16.le_iff_toNat_le, UInt16.toNat_ofNat']
        omega

def drop (c : Cache) (k : Word) : Cache :=
  { c with blocks := c.blocks.erase k, wrapping := c.wrapping.erase k }

theorem get?_drop (c : Cache) (j k : Word) :
    (c.drop j).get? k = if j = k then none else c.get? k := by
  simp only [drop, get?, Std.TreeMap.getElem?_erase, Std.compare_eq_iff_eq]

theorem Indexed.drop {c : Cache} (h : c.Indexed) (j : Word) : (c.drop j).Indexed where
  address_eq {k b} hb := by
    rw [get?_drop] at hb
    split at hb
    · cases hb
    · exact h.address_eq hb
  length_le {k b} hb := by
    rw [get?_drop] at hb
    split at hb
    · cases hb
    · exact h.length_le hb
  mem_wrapping_iff {k} := by
    have hw : k ∈ (c.drop j).wrapping ↔ j ≠ k ∧ k ∈ c.wrapping := by
      simp [Cache.drop]
    rw [hw, get?_drop, h.mem_wrapping_iff]
    split <;> simp_all

theorem get?_dropTouched (a : Word) (n : Nat) (candidates : List Word) (removed : Nat)
    (c : Cache) (k : Word) :
    (dropTouched a n candidates (removed, c)).2.get? k =
      if k ∈ candidates then (c.get? k).filter (!·.overlaps a n) else c.get? k := by
  induction candidates generalizing removed c with
  | nil => rfl
  | cons j rest ih =>
      simp only [dropTouched, List.mem_cons]
      cases hj : c.get? j with
      | none =>
          rw [ih]
          by_cases hk : k = j
          · simp [hk, hj]
          · simp [hk]
      | some b =>
          by_cases ho : b.overlaps a n = true
          · have hd := ih (removed + 1) (c.drop j)
            rw [get?_drop] at hd
            simp only [if_pos ho]
            refine hd.trans ?_
            by_cases hk : k = j
            · simp [hk, hj, ho, Option.filter_some]
            · simp [hk, Ne.symm hk]
          · simp only [if_neg ho]
            rw [ih]
            by_cases hk : k = j
            · simp [hk, hj, ho, Option.filter_some]
            · simp [hk]

theorem Indexed.dropTouched {c : Cache} (h : c.Indexed) (a : Word) (n : Nat)
    (candidates : List Word) (removed : Nat) :
    (Cache.dropTouched a n candidates (removed, c)).2.Indexed := by
  induction candidates generalizing removed c with
  | nil => exact h
  | cons j rest ih =>
      simp only [Cache.dropTouched]
      split
      · split
        · exact ih (h.drop j) _
        · exact ih h _
      · exact ih h _

theorem Indexed.invalidate {c : Cache} (h : c.Indexed) (a : Word) (n : Nat) :
    (c.invalidate a n).2.Indexed := by
  simp only [Cache.invalidate]
  split
  · exact h
  · exact (h.dropTouched a n (c.candidates a n) 0).withStats _

/-- An invalidation removes exactly the blocks that share a byte with the range. -/
theorem Indexed.get?_invalidate {c : Cache} (h : c.Indexed) (a : Word) (n : Nat) (k : Word) :
    (c.invalidate a n).2.get? k = (c.get? k).filter (!·.overlaps a n) := by
  simp only [Cache.invalidate]
  split
  · rename_i h0
    cases hb : c.get? k with
    | none => rfl
    | some b =>
        obtain hn | hc := h0
        · simp [Block.overlaps, hn, Option.filter_some]
        · simp only [get?, isEmpty] at hb hc
          simp [Std.TreeMap.getElem?_of_isEmpty hc] at hb
  · have hd := get?_dropTouched a n (c.candidates a n) 0 c k
    change (Cache.dropTouched a n (c.candidates a n) (0, c)).2.get? k = _
    rw [hd]
    split
    · rfl
    · rename_i hk
      cases hb : c.get? k with
      | none => rfl
      | some b =>
          have ho : ¬ b.overlaps a n = true := fun ho => hk (h.mem_candidates hb ho)
          simp [ho, Option.filter_some]

/-- All blocks in the cache have the property. -/
def Holds (P : Block → Prop) (c : Cache) : Prop :=
  ∀ k b, c.get? k = some b → P b

section Holds

variable {P : Block → Prop} {c : Cache}

theorem holds_empty (P : Block → Prop) : empty.Holds P := by
  intro k b h
  simp [empty, get?] at h

theorem holds_clear (P : Block → Prop) (c : Cache) : c.clear.Holds P := by
  intro k b h
  simp [clear, get?] at h

theorem Holds.invalidate (h : c.Holds P) (a : Word) (n : Nat) : (c.invalidate a n).2.Holds P := by
  intro k b hb
  simp only [Cache.invalidate] at hb
  split at hb
  · exact h k b hb
  · change (Cache.dropTouched a n (c.candidates a n) (0, c)).2.get? k = some b at hb
    rw [get?_dropTouched] at hb
    split at hb
    · exact h k b (Option.filter_eq_some_iff.mp hb).1
    · exact h k b hb

theorem Holds.insert (h : c.Holds P) {b : Block} (hb : P b) : (c.insert b).Holds P := by
  intro k d hd
  rw [get?_insert] at hd
  split at hd
  · cases hd
    exact hb
  · exact h k d hd

theorem Holds.getOrCompile {ε : Type} (h : c.Holds P) (a : Word)
    (compile : Unit → Except ε Block) (hc : ∀ b, compile () = .ok b → P b) :
    (∀ b, (c.getOrCompile a compile).1 = .ok b → P b) ∧ (c.getOrCompile a compile).2.Holds P := by
  simp only [Cache.getOrCompile]
  split
  · rename_i d hd
    refine ⟨?_, h⟩
    intro b hb
    cases hb
    exact h a d hd
  · split
    · refine ⟨?_, h⟩
      intro b hb
      cases hb
    · rename_i d hd
      refine ⟨?_, Holds.insert h (hc d hd)⟩
      intro b hb
      cases hb
      exact hc d hd

end Holds

end Cache
end Z80
