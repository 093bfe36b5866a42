import Z80.Proofs.Memory.Flat

/-!
Memories are equivalent if no writes make them read differently. It does not matter then
where the borders of their segments lie, or what a segment keeps that cannot be read. Without
a serial port it takes no writes to find out: the memories are equivalent if each address
reads the same in both and is plain memory in both or in neither.
-/

namespace Z80

namespace Segment

theorem isRam_writeByte_iff {s : Segment} (address : Word) (value : Byte) :
    (s.writeByte address value).IsRam ↔ s.IsRam := by
  constructor
  · intro h
    obtain ⟨base, capability, storage⟩ := s
    obtain ⟨hc, contents, hs⟩ := h
    change capability = .readWrite at hc
    subst hc
    cases storage with
    | plain contents => exact ⟨rfl, contents, rfl⟩
    | latch _ | serial _ => cases hs
  · intro h
    exact isRam_writeByte h address value

/-- What is written elsewhere than to plain memory cannot be read back. -/
theorem readByte_writeByte_of_not_isRam {s : Segment} (hl : s.Local) (h : ¬ s.IsRam)
    (a b : Word) (value : Byte) : (s.writeByte a value).readByte b = s.readByte b := by
  obtain ⟨base, capability, storage⟩ := s
  cases storage with
  | plain contents =>
      cases capability with
      | readOnly | writeOnly => rfl
      | readWrite => exact absurd ⟨rfl, contents, rfl⟩ h
  | latch contents => cases capability <;> rfl
  | serial port => exact hl.elim

/-- Plain memory that holds zeros. -/
def IsBlank (s : Segment) : Prop :=
  ∃ base length, s = ram base length #[]

theorem IsBlank.isRam {s : Segment} (h : s.IsBlank) : s.IsRam := by
  obtain ⟨base, length, rfl⟩ := h
  exact ⟨rfl, _, rfl⟩

theorem IsBlank.local {s : Segment} (h : s.IsBlank) : s.Local := by
  obtain ⟨base, length, rfl⟩ := h
  exact local_ram base length #[]

theorem IsBlank.readByte {s : Segment} (h : s.IsBlank) {a : Word} (hc : s.covers a = true) :
    s.readByte a = 0 := by
  obtain ⟨base, length, rfl⟩ := h
  rw [covers_iff, stop_ram] at hc
  change base.toNat ≤ a.toNat ∧ _ at hc
  have ho : (a - base).toNat < length := by
    rw [UInt16.toNat_sub_of_le _ _ (UInt16.le_iff_toNat_le.mpr hc.1)]
    omega
  simp [Segment.readByte, ram, offset, Capability.canRead, Storage.zeroed, Storage.readByte, ho]

end Segment

namespace Memory

variable {m n : Memory}

theorem isRam_owner_writeByte_iff (a b : Word) (value : Byte) :
    ((m.writeByte a value).owner b).IsRam ↔ (m.owner b).IsRam := by
  rw [writeByte, owner_modify]
  split
  · exact Segment.isRam_writeByte_iff a value
  · rfl

theorem readByte_writeByte_of_not_isRam (hl : m.Local) {a : Word} (h : ¬ (m.owner a).IsRam)
    (b : Word) (value : Byte) : (m.writeByte a value).readByte b = m.readByte b := by
  rw [readByte, writeByte, owner_modify]
  split
  · rename_i hc
    rw [owner_eq (m.owner_mem b) hc] at h
    exact Segment.readByte_writeByte_of_not_isRam (hl _ (m.owner_mem b)) h a b value
  · rfl

/-- Bytes written one after the other, each to an address of its own. -/
def writeAll (m : Memory) (writes : List (Word × Byte)) : Memory :=
  writes.foldl (fun m w => m.writeByte w.1 w.2) m

/-- No writes make the memories read differently. -/
def Equivalent (m n : Memory) : Prop :=
  ∀ writes a, (m.writeAll writes).readByte a = (n.writeAll writes).readByte a

namespace Equivalent

theorem symm (h : m.Equivalent n) : n.Equivalent m := by
  intro writes a
  exact (h writes a).symm

theorem readByte (h : m.Equivalent n) (a : Word) : m.readByte a = n.readByte a :=
  h [] a

theorem readWord (h : m.Equivalent n) (a : Word) : m.readWord a = n.readWord a := by
  rw [readWord_eq, readWord_eq, h.readByte, h.readByte]

theorem writeByte (h : m.Equivalent n) (a : Word) (value : Byte) :
    (m.writeByte a value).Equivalent (n.writeByte a value) := by
  intro writes
  exact h ((a, value) :: writes)

theorem writeWord (h : m.Equivalent n) (a value : Word) :
    (m.writeWord a value).Equivalent (n.writeWord a value) := by
  rw [writeWord_eq, writeWord_eq]
  exact (h.writeByte a _).writeByte (a + 1) _

/-- Plain memory shows by any byte that was not there before. -/
theorem isRam (h : m.Equivalent n) (hn : n.Local) {a : Word} (ha : (m.owner a).IsRam) :
    (n.owner a).IsRam := by
  by_cases h0 : (n.owner a).IsRam
  · exact h0
  · have hw := (h.writeByte a (n.readByte a + 1)).readByte a
    rw [readByte_writeByte_self ha, readByte_writeByte_of_not_isRam hn h0] at hw
    grind

end Equivalent

/-- At each address the same byte, and plain memory in both or in neither. -/
structure SameCells (m n : Memory) : Prop where
  readByte : ∀ a, m.readByte a = n.readByte a
  isRam : ∀ a, (m.owner a).IsRam ↔ (n.owner a).IsRam

namespace SameCells

theorem writeByte (h : SameCells m n) (hm : m.Local) (hn : n.Local) (a : Word) (value : Byte) :
    SameCells (m.writeByte a value) (n.writeByte a value) where
  readByte b := by
    by_cases ha : (m.owner a).IsRam
    · have ha' := (h.isRam a).mp ha
      by_cases hb : b = a
      · rw [hb, readByte_writeByte_self ha, readByte_writeByte_self ha']
      · rw [readByte_writeByte_of_ne hm hb, readByte_writeByte_of_ne hn hb, h.readByte]
    · have ha' := mt (h.isRam a).mpr ha
      rw [readByte_writeByte_of_not_isRam hm ha, readByte_writeByte_of_not_isRam hn ha',
        h.readByte]
  isRam b := by
    rw [isRam_owner_writeByte_iff, isRam_owner_writeByte_iff]
    exact h.isRam b

theorem equivalent (h : SameCells m n) (hm : m.Local) (hn : n.Local) : m.Equivalent n := by
  intro writes
  induction writes generalizing m n with
  | nil => exact h.readByte
  | cons w rest ih =>
      exact ih (h.writeByte hm hn w.1 w.2) (local_writeByte hm w.1 w.2)
        (local_writeByte hn w.1 w.2)

end SameCells

theorem equivalent_iff_of_local (hm : m.Local) (hn : n.Local) :
    m.Equivalent n ↔ SameCells m n := by
  constructor
  · intro h
    exact ⟨h.readByte, fun a => ⟨h.isRam hn, h.symm.isRam hm⟩⟩
  · intro h
    exact h.equivalent hm hn

theorem blank_of_ofSegments {segments : List Segment} (hm : ofSegments segments = .ok m)
    (h : ∀ s ∈ segments, s.IsBlank) :
    m.Local ∧ ∀ a, m.readByte a = 0 ∧ (m.owner a).IsRam := by
  have hs (s : Segment) (hs : s ∈ m.segments) : s.IsBlank := h s (mem_of_ofSegments hm hs)
  constructor
  · intro s hm
    exact (hs s hm).local
  · intro a
    have ha := hs _ (m.owner_mem a)
    exact ⟨ha.readByte (m.covers_owner a), ha.isRam⟩

/-- However it is cut, a blank memory is the same. -/
theorem equivalent_of_isBlank {xs ys : List Segment} (hm : ofSegments xs = .ok m)
    (hn : ofSegments ys = .ok n) (hx : ∀ s ∈ xs, s.IsBlank) (hy : ∀ s ∈ ys, s.IsBlank) :
    m.Equivalent n := by
  obtain ⟨hlm, hm⟩ := blank_of_ofSegments hm hx
  obtain ⟨hln, hn⟩ := blank_of_ofSegments hn hy
  rw [equivalent_iff_of_local hlm hln]
  constructor
  · intro a
    rw [(hm a).1, (hn a).1]
  · intro a
    exact iff_of_true (hm a).2 (hn a).2

end Memory
end Z80
