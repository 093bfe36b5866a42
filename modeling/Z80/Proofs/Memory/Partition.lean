import Z80.Proofs.Memory.Ownership

/-!
A list of segments makes a memory exactly if every address belongs to one of them and no
address to two. Otherwise the fault names a range of addresses: none of them belongs to a
segment, or each belongs to two at least, and below the range nothing is wrong.
-/

namespace Z80

/-- The range of the fault is wrong and nothing below it is, where `count` tells for each
address how many segments it belongs to. -/
def MapFault.IsLowest (count : Word → Nat) : MapFault → Prop
  | gap start stop =>
    start < stop ∧ stop ≤ 0x10000 ∧
      (∀ a : Word, start ≤ a.toNat → a.toNat < stop → count a = 0) ∧
      ∀ a : Word, a.toNat < start → count a = 1
  | overlap start stop =>
    start < stop ∧ stop ≤ 0x10000 ∧
      (∀ a : Word, start ≤ a.toNat → a.toNat < stop → 2 ≤ count a) ∧
      ∀ a : Word, a.toNat < start → count a = 1
  | noSegments | zeroLength _ | outOfRange _ _ => False

/-- A lowest fault has an address in its range. -/
theorem MapFault.IsLowest.exists_ne_one {count : Word → Nat} {fault : MapFault}
    (h : fault.IsLowest count) : ∃ a, count a ≠ 1 := by
  have inside {start stop : Nat} (hs : start < stop) (ht : stop ≤ 0x10000) :
      (UInt16.ofNat start).toNat = start := by
    rw [UInt16.toNat_ofNat']
    omega
  cases fault with
  | gap start stop =>
      obtain ⟨hs, ht, hc, -⟩ := h
      have ha := inside hs ht
      exact ⟨.ofNat start, by rw [hc _ (by omega) (by omega)]; decide⟩
  | overlap start stop =>
      obtain ⟨hs, ht, hc, -⟩ := h
      have ha := inside hs ht
      have h2 := hc (.ofNat start) (by omega) (by omega)
      exact ⟨.ofNat start, by omega⟩
  | noSegments | zeroLength _ | outOfRange _ _ => exact h.elim

namespace Memory

/-- The segments that an address belongs to, and one more below `covered`. -/
def coverage (covered : Nat) (segments : List Segment) (a : Word) : Nat :=
  (if a.toNat < covered then 1 else 0) + segments.countP (·.covers a)

theorem coverage_zero (segments : List Segment) (a : Word) :
    coverage 0 segments a = segments.countP (·.covers a) :=
  Nat.zero_add _

/-- A segment that begins where the covered part ends moves its end. -/
theorem coverage_cons {covered : Nat} {s : Segment} (h : s.base.toNat = covered)
    (rest : List Segment) (a : Word) :
    coverage covered (s :: rest) a = coverage s.stop rest a := by
  have hs : covered ≤ s.stop := h ▸ Nat.le_add_right _ _
  simp only [coverage, List.countP_cons, s.covers_iff, h]
  split <;> split <;> split <;> omega

/-- Segments above an address do not cover it. -/
theorem countP_covers_of_lt {segments : List Segment} {a : Word}
    (h : ∀ s ∈ segments, a.toNat < s.base.toNat) : segments.countP (·.covers a) = 0 := by
  rw [List.countP_eq_zero]
  intro s hs
  have := h s hs
  rw [s.covers_iff]
  omega

theorem coverage_of_lt {covered : Nat} {segments : List Segment} {a : Word}
    (h : ∀ s ∈ segments, a.toNat < s.base.toNat) :
    coverage covered segments a = if a.toNat < covered then 1 else 0 := by
  rw [coverage, countP_covers_of_lt h, Nat.add_zero]

theorem isLowest_gap {covered stop : Nat} {segments : List Segment} (hc : covered < stop)
    (ht : stop ≤ 0x10000) (hs : ∀ s ∈ segments, stop ≤ s.base.toNat) :
    (MapFault.gap covered stop).IsLowest (coverage covered segments) := by
  refine ⟨hc, ht, fun a hl hu => ?_, fun a hu => ?_⟩
  · rw [coverage_of_lt fun s h => Nat.lt_of_lt_of_le hu (hs s h), if_neg (by omega)]
  · rw [coverage_of_lt fun s h => Nat.lt_of_lt_of_le (by omega) (hs s h), if_pos hu]

theorem isLowest_overlap {covered : Nat} {s : Segment} {rest : List Segment}
    (hc : covered ≤ 0x10000) (hl : 0 < s.length) (h : s.base.toNat < covered)
    (hr : ∀ t ∈ rest, s.base ≤ t.base) :
    (MapFault.overlap s.base.toNat (min covered s.stop)).IsLowest
      (coverage covered (s :: rest)) := by
  have hs : s.stop = s.base.toNat + s.length := rfl
  refine ⟨by omega, by omega, fun a ha hu => ?_, fun a hu => ?_⟩
  · have hcover : s.covers a = true := (s.covers_iff a).mpr (by omega)
    simp only [coverage, List.countP_cons, hcover, if_true]
    rw [if_pos (by omega)]
    omega
  · rw [coverage_of_lt, if_pos (by omega)]
    refine List.forall_mem_cons.mpr ⟨hu, fun t ht => Nat.lt_of_lt_of_le hu ?_⟩
    exact UInt16.le_iff_toNat_le.mp (hr t ht)

/-- The scan of segments in ascending order finds the lowest fault. -/
theorem isLowest_of_tilingFault? {covered : Nat} {segments : List Segment} {fault : MapFault}
    (hc : covered ≤ 0x10000) (hs : ∀ s ∈ segments, 0 < s.length ∧ s.stop ≤ 0x10000)
    (hb : segments.Pairwise fun s t => s.base ≤ t.base)
    (h : tilingFault? covered segments = some fault) :
    fault.IsLowest (coverage covered segments) := by
  induction segments generalizing covered with
  | nil =>
      simp only [tilingFault?] at h
      split at h
      · cases h
        exact isLowest_gap ‹_› (Nat.le_refl _) fun s hs => absurd hs List.not_mem_nil
      · cases h
  | cons s rest ih =>
      obtain ⟨hv, hrest⟩ := List.forall_mem_cons.mp hs
      obtain ⟨hfirst, hb⟩ := List.pairwise_cons.mp hb
      have hstart := s.base.toNat_lt
      simp only [tilingFault?] at h
      split at h
      · cases h
        refine isLowest_gap ‹_› (Nat.le_of_lt hstart) (List.forall_mem_cons.mpr ⟨Nat.le_refl _, ?_⟩)
        exact fun t ht => UInt16.le_iff_toNat_le.mp (hfirst t ht)
      · split at h
        · cases h
          exact isLowest_overlap hc hv.1 ‹_› hfirst
        · have hbase : s.base.toNat = covered := by omega
          rw [funext (coverage_cons hbase rest)]
          exact ih hv.2 hrest hb h

/-- Segments that tile the rest of the address space cover each address of it once. -/
theorem coverage_of_tiles {covered : Nat} {segments : List Segment} (h : Tiles covered segments)
    (a : Word) : coverage covered segments a = 1 := by
  induction segments generalizing covered with
  | nil =>
      have hc : covered = 0x10000 := h
      have ha := a.toNat_lt
      rw [coverage, List.countP_nil, if_pos (by omega)]
  | cons s rest ih =>
      obtain ⟨hb, -, ht⟩ := h
      rw [coverage_cons hb]
      exact ih ht

theorem pairwise_byBase (segments : List Segment) :
    (byBase segments).Pairwise fun s t => s.base ≤ t.base := by
  refine (List.pairwise_mergeSort ?_ ?_ segments).imp of_decide_eq_true
  · intro s t u hst htu
    exact decide_eq_true (UInt16.le_trans (of_decide_eq_true hst) (of_decide_eq_true htu))
  · intro s t
    simpa using UInt16.le_total s.base t.base

theorem perm_byBase (segments : List Segment) : (byBase segments).Perm segments :=
  List.mergeSort_perm _ _

theorem coverage_byBase (segments : List Segment) :
    coverage 0 (byBase segments) = fun a => segments.countP (·.covers a) := by
  funext a
  rw [coverage_zero, (perm_byBase segments).countP_eq]

/-- Segments that are valid one by one make a memory or have a lowest fault. -/
theorem exists_of_valid {segments : List Segment} (hn : segments ≠ [])
    (hv : ∀ s ∈ segments, 0 < s.length ∧ s.stop ≤ 0x10000) :
    (∃ m, ofSegments segments = .ok m) ∨
      ∃ fault : MapFault, ofSegments segments = .error fault ∧
        fault.IsLowest fun a => segments.countP (·.covers a) := by
  have he : segments.isEmpty = false := List.isEmpty_eq_false_iff.mpr hn
  have hs := segmentFault?_eq_none_iff.mpr hv
  simp only [ofSegments, he, Bool.false_eq_true, if_false]
  split
  · rename_i hf
    rw [hs] at hf
    cases hf
  · split
    · rename_i fault ht
      refine .inr ⟨fault, rfl, coverage_byBase segments ▸ isLowest_of_tilingFault? (Nat.zero_le _)
        (fun s h => hv s ((perm_byBase segments).mem_iff.mp h)) (pairwise_byBase segments) ht⟩
    · exact .inl ⟨_, rfl⟩

theorem valid_of_ofSegments {segments : List Segment} {m : Memory}
    (h : ofSegments segments = .ok m) :
    segments ≠ [] ∧ ∀ s ∈ segments, 0 < s.length ∧ s.stop ≤ 0x10000 := by
  have hp : m.segments.Perm segments := segments_of_ofSegments h ▸ perm_byBase segments
  have ht := m.tiles
  refine ⟨?_, fun s hs => ?_⟩
  · rintro rfl
    rw [hp.eq_nil] at ht
    cases ht
  · have hm := hp.mem_iff.mpr hs
    exact ⟨ht.length_pos hm, ht.stop_le hm⟩

/-- A memory is made of exactly those lists of segments that are not empty, have no segment
that is empty or leaves the address space, and cover every address once. It then holds the
segments in the order of their addresses. If segments that are valid one by one do not make
a memory, the fault is the lowest gap or overlap. -/
theorem ofSegments_accepts_partitions (segments : List Segment) :
    ((∃ m, ofSegments segments = .ok m) ↔
      segments ≠ [] ∧ (∀ s ∈ segments, s.length ≠ 0 ∧ s.stop ≤ 0x10000) ∧
        ∀ a : Word, segments.countP (·.covers a) = 1) ∧
    (∀ m, ofSegments segments = .ok m →
      m.segments.Perm segments ∧ m.segments.Pairwise fun s t => s.base < t.base) ∧
    (segments ≠ [] → (∀ s ∈ segments, s.length ≠ 0 ∧ s.stop ≤ 0x10000) →
      ∀ fault, ofSegments segments = .error fault →
        fault.IsLowest fun a => segments.countP (·.covers a)) := by
  have positive : (∀ s ∈ segments, s.length ≠ 0 ∧ s.stop ≤ 0x10000) ↔
      ∀ s ∈ segments, 0 < s.length ∧ s.stop ≤ 0x10000 := by
    simp only [Nat.pos_iff_ne_zero]
  rw [positive]
  refine ⟨⟨?_, ?_⟩, ?_, ?_⟩
  · rintro ⟨m, hm⟩
    obtain ⟨hn, hv⟩ := valid_of_ofSegments hm
    refine ⟨hn, hv, fun a => ?_⟩
    have hc := coverage_of_tiles m.tiles a
    rwa [segments_of_ofSegments hm, coverage_byBase] at hc
  · rintro ⟨hn, hv, hc⟩
    obtain hm | ⟨fault, -, hf⟩ := exists_of_valid hn hv
    · exact hm
    · obtain ⟨a, ha⟩ := hf.exists_ne_one
      exact absurd (hc a) ha
  · intro m hm
    exact ⟨segments_of_ofSegments hm ▸ perm_byBase segments, m.tiles.pairwise_base⟩
  · intro hn hv fault hf
    obtain ⟨m, hm⟩ | ⟨other, ho, hl⟩ := exists_of_valid hn hv
    · rw [hm] at hf
      cases hf
    · rw [ho] at hf
      cases hf
      exact hl

end Memory
end Z80
