import Z80.Memory.Map

/-!
Every address has exactly one owner, and replacing an owner by a segment of the same place
moves no border. Reads and writes of a memory are therefore those of single segments.
-/

namespace Z80

namespace Segment

theorem length_ram (base : Word) (length : Nat) (contents : Array Byte) :
    (ram base length contents).length = length := by
  simp only [Segment.length, ram, Storage.zeroed, Storage.size, Array.size_append,
    Array.take_eq_extract, Array.size_extract, Array.size_replicate]
  omega

theorem length_rom (base : Word) (length : Nat) (image : Array Byte) :
    (rom base length image).length = length := by
  simp only [Segment.length, rom, Storage.erased, Storage.size, Array.size_append,
    Array.take_eq_extract, Array.size_extract, Array.size_replicate]
  omega

theorem length_latch (base : Word) (length : Nat) : (latch base length).length = length :=
  Array.size_replicate

theorem stop_ram (base : Word) (length : Nat) (contents : Array Byte) :
    (ram base length contents).stop = base.toNat + length := by
  rw [stop, length_ram]
  rfl

theorem stop_rom (base : Word) (length : Nat) (image : Array Byte) :
    (rom base length image).stop = base.toNat + length := by
  rw [stop, length_rom]
  rfl

theorem stop_latch (base : Word) (length : Nat) :
    (latch base length).stop = base.toNat + length := by
  rw [stop, length_latch]
  rfl

theorem covers_iff (s : Segment) (address : Word) :
    s.covers address = true ↔ s.base.toNat ≤ address.toNat ∧ address.toNat < s.stop := by
  simp only [covers, Bool.and_eq_true, decide_eq_true_eq, UInt16.le_iff_toNat_le]

theorem covers_congr {s t : Segment} (hb : t.base = s.base) (hl : t.length = s.length)
    (address : Word) : t.covers address = s.covers address := by
  have hs : t.stop = s.stop := by rw [stop, stop, hb, hl]
  rw [covers, covers, hb, hs]

end Segment

namespace Tiles

theorem le_base {start : Nat} {segments : List Segment} (h : Tiles start segments) {s : Segment}
    (hs : s ∈ segments) : start ≤ s.base.toNat := by
  induction segments generalizing start with
  | nil => cases hs
  | cons t rest ih =>
      obtain ⟨hb, hl, ht⟩ := h
      cases hs with
      | head => omega
      | tail _ hr =>
          have h0 := ih ht hr
          simp only [Segment.stop] at h0
          omega

theorem start_le {start : Nat} {segments : List Segment} (h : Tiles start segments) :
    start ≤ 0x10000 := by
  induction segments generalizing start with
  | nil => exact Nat.le_of_eq h
  | cons t rest ih =>
      obtain ⟨hb, _, ht⟩ := h
      have h0 := ih ht
      simp only [Segment.stop] at h0
      omega

theorem stop_le {start : Nat} {segments : List Segment} (h : Tiles start segments) {s : Segment}
    (hs : s ∈ segments) : s.stop ≤ 0x10000 := by
  induction segments generalizing start with
  | nil => cases hs
  | cons t rest ih =>
      obtain ⟨_, _, ht⟩ := h
      cases hs with
      | head => exact start_le ht
      | tail _ hr => exact ih ht hr

theorem length_pos {start : Nat} {segments : List Segment} (h : Tiles start segments)
    {s : Segment} (hs : s ∈ segments) : 0 < s.length := by
  induction segments generalizing start with
  | nil => cases hs
  | cons t rest ih =>
      cases hs with
      | head => exact h.2.1
      | tail _ hr => exact ih h.2.2 hr

theorem pairwise_base {start : Nat} {segments : List Segment} (h : Tiles start segments) :
    segments.Pairwise fun s t => s.base < t.base := by
  induction segments generalizing start with
  | nil => exact .nil
  | cons s rest ih =>
      obtain ⟨_, hl, ht⟩ := h
      refine .cons (fun t hr => ?_) (ih ht)
      have h0 := le_base ht hr
      rw [UInt16.lt_iff_toNat_lt]
      simp only [Segment.stop] at h0
      omega

theorem tilingFault?_eq_none {start : Nat} {segments : List Segment} (h : Tiles start segments) :
    Memory.tilingFault? start segments = none := by
  induction segments generalizing start with
  | nil =>
      simp only [Tiles] at h
      simp [Memory.tilingFault?, h]
  | cons s rest ih =>
      obtain ⟨hb, _, ht⟩ := h
      simp only [Memory.tilingFault?, hb, Nat.lt_irrefl, if_false]
      exact ih ht

theorem find?_eq_some {start : Nat} {segments : List Segment} (h : Tiles start segments)
    {s : Segment} (hs : s ∈ segments) {address : Word} (hc : s.covers address = true) :
    segments.find? (·.covers address) = some s := by
  induction segments generalizing start with
  | nil => cases hs
  | cons t rest ih =>
      obtain ⟨_, _, ht⟩ := h
      cases hs with
      | head => simp only [List.find?_cons, hc]
      | tail _ hr =>
          have h0 := le_base ht hr
          have h1 := (s.covers_iff address).mp hc
          have hn : t.covers address = false := by
            rw [← Bool.not_eq_true, t.covers_iff]
            omega
          simp only [List.find?_cons, hn]
          exact ih ht hr

theorem find?_modifyOwner {start : Nat} {segments : List Segment} (h : Tiles start segments)
    (a b : Word) (f : Segment → Segment)
    (hf : ∀ s, (f s).base = s.base ∧ (f s).length = s.length) :
    (Memory.modifyOwner a f segments).find? (·.covers b) =
      (segments.find? (·.covers b)).map fun s => if s.covers a then f s else s := by
  induction segments generalizing start with
  | nil => rfl
  | cons s rest ih =>
      obtain ⟨hb, hl, ht⟩ := h
      simp only [Memory.modifyOwner]
      by_cases ha : s.covers a = true
      · rw [if_pos ha, List.find?_cons, List.find?_cons,
          Segment.covers_congr (hf s).1 (hf s).2]
        cases hc : s.covers b with
        | true => simp [ha]
        | false =>
            -- No later segment covers the address as well.
            cases hr : rest.find? (·.covers b) with
            | none => rfl
            | some t =>
                have h0 := le_base ht (List.mem_of_find?_eq_some hr)
                have h1 := (s.covers_iff a).mp ha
                have hn : ¬ t.covers a = true := by
                  rw [t.covers_iff]
                  omega
                simp [hn]
      · rw [if_neg ha, List.find?_cons, List.find?_cons, ih ht]
        cases s.covers b <;> simp [ha]

end Tiles

namespace Memory

theorem eq_of_segments {m n : Memory} (h : m.segments = n.segments) : m = n := by
  cases m
  cases n
  cases h
  rfl

theorem segments_of_ofSegments {segments : List Segment} {m : Memory}
    (h : ofSegments segments = .ok m) : m.segments = byBase segments := by
  simp only [ofSegments] at h
  split at h
  · cases h
  · split at h
    · cases h
    · split at h
      · cases h
      · cases h
        rfl

theorem mem_of_ofSegments {segments : List Segment} {m : Memory}
    (h : ofSegments segments = .ok m) {s : Segment} (hs : s ∈ m.segments) : s ∈ segments := by
  rw [segments_of_ofSegments h] at hs
  exact List.mem_mergeSort.mp hs

/-- Segments that tile the address space make a memory. -/
theorem exists_ofSegments {segments : List Segment} (h : Tiles 0 segments) :
    ∃ m, ofSegments segments = .ok m := by
  have he : segments.isEmpty = false := by
    cases segments with
    | nil => cases h
    | cons s rest => rfl
  have hs : segmentFault? segments = none := segmentFault?_eq_none_iff.mpr fun s hs =>
    ⟨h.length_pos hs, h.stop_le hs⟩
  have hb : byBase segments = segments :=
    List.mergeSort_of_pairwise
      (h.pairwise_base.imp fun hst => decide_eq_true (UInt16.le_of_lt hst))
  simp only [ofSegments, he, Bool.false_eq_true, if_false]
  split
  · rename_i hf
    rw [hs] at hf
    cases hf
  · split
    · rename_i hf
      rw [hb, h.tilingFault?_eq_none] at hf
      cases hf
    · exact ⟨_, rfl⟩

theorem owner_mem (m : Memory) (address : Word) : m.owner address ∈ m.segments :=
  List.mem_of_find?_eq_some (Option.some_get (m.owner_isSome address)).symm

theorem owner_eq {m : Memory} {s : Segment} (hs : s ∈ m.segments) {address : Word}
    (hc : s.covers address = true) : m.owner address = s := by
  have h := m.tiles.find?_eq_some hs hc
  simp only [owner, h, Option.get_some]

theorem owner_add {m : Memory} {address : Word} (count : Nat)
    (h : count < (m.owner address).available address) :
    (address + .ofNat count).toNat = address.toNat + count ∧
      m.owner (address + .ofNat count) = m.owner address := by
  have hs := m.owner_mem address
  have hc := ((m.owner address).covers_iff address).mp (m.covers_owner address)
  have hl := m.tiles.stop_le hs
  simp only [Segment.available] at h
  have ha : (address + .ofNat count).toNat = address.toNat + count := by
    rw [UInt16.toNat_add, UInt16.toNat_ofNat']
    omega
  refine ⟨ha, owner_eq hs ?_⟩
  rw [Segment.covers_iff]
  omega

theorem owner_modify (m : Memory) (a b : Word) (f : Segment → Segment)
    (hf : ∀ s, (f s).base = s.base ∧ (f s).length = s.length) :
    (m.modify a f hf).owner b =
      if (m.owner b).covers a then f (m.owner b) else m.owner b := by
  have h := m.tiles.find?_modifyOwner a b f hf
  have hs : m.segments.find? (·.covers b) = some (m.owner b) :=
    (Option.some_get (m.owner_isSome b)).symm
  rw [hs, Option.map_some] at h
  simp only [owner, modify, h, Option.get_some]

end Memory
end Z80
