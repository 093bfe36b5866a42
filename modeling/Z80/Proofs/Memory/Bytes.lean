import Z80.Proofs.Memory.Ownership

/-!
The address space is a flat memory: accesses to words and to ranges are those to their
bytes, in ascending order, wherever the borders of the segments lie. A range is read in
pieces, one for each owner. Storage without registers of its own changes only in the byte
that is written.
-/

namespace Z80

namespace Word

theorem add_ofNat_succ (a : Word) (n : Nat) : a + .ofNat (n + 1) = a + 1 + .ofNat n := by
  rw [UInt16.ofNat_add]
  grind

theorem le_sub_succ {a b : Word} {n : Nat} (h : n + 1 ≤ (b - a).toNat) :
    n ≤ (b - (a + 1)).toNat := by
  simp only [UInt16.toNat_sub, UInt16.toNat_add, UInt16.toNat_one] at h ⊢
  have := a.toNat_lt
  have := b.toNat_lt
  omega

end Word

namespace Storage

theorem writeBytes_singleton (s : Storage) (offset : Word) (value : Byte) :
    s.writeBytes offset [value] = s.writeByte offset value := by
  cases s <;> rfl

theorem writeBytes_cons (s : Storage) (offset : Word) (value : Byte) (values : List Byte)
    (h : offset.toNat + 1 < 0x10000) :
    s.writeBytes offset (value :: values) =
      (s.writeByte offset value).writeBytes (offset + 1) values := by
  cases s with
  | plain contents =>
      have h0 : (offset + 1).toNat = offset.toNat + 1 := by
        rw [UInt16.toNat_add, UInt16.toNat_one]
        omega
      simp only [writeBytes, writeByte, overwrite, h0]
  | latch _ | serial _ => rfl

theorem toList_readBytes (s : Storage) (offset : Word) (count : Nat)
    (hs : offset.toNat + count ≤ s.size) (hw : offset.toNat + count ≤ 0x10000) :
    (s.readBytes offset count).toList =
      (List.range count).map fun i => s.readByte (offset + .ofNat i) := by
  cases s with
  | plain contents =>
      simp only [size] at hs
      apply List.ext_getElem
      · simp only [readBytes, Array.length_toList, Array.size_extract, List.length_map,
          List.length_range]
        omega
      · intro i hi hc
        simp only [List.length_map, List.length_range] at hc
        have ho : (offset + .ofNat i).toNat = offset.toNat + i := by
          rw [UInt16.toNat_add, UInt16.toNat_ofNat']
          omega
        have hb : offset.toNat + i < contents.size := by omega
        simp only [readBytes, readByte, Array.getElem_toList, Array.getElem_extract,
          List.getElem_map, List.getElem_range, ho, Array.getElem?_eq_getElem hb, Option.getD_some]
  | latch contents | serial port =>
      apply List.ext_getElem <;> simp [readBytes]

/-- Storage whose bytes do not affect each other. -/
def Local : Storage → Prop
  | plain _ | latch _ => True
  | serial _ => False

theorem local_writeByte {s : Storage} (h : s.Local) (offset : Word) (value : Byte) :
    (s.writeByte offset value).Local := by
  cases s with
  | plain _ | latch _ => trivial
  | serial _ => exact h

theorem readByte_writeByte_of_ne {s : Storage} (h : s.Local) {a b : Word} (hne : b ≠ a)
    (value : Byte) : (s.writeByte a value).readByte b = s.readByte b := by
  cases s with
  | plain contents =>
      have hn : a.toNat ≠ b.toNat := fun h0 => hne (UInt16.toNat_inj.mp h0).symm
      simp only [writeByte, readByte, Array.getElem?_setIfInBounds_ne hn]
  | latch _ => rfl
  | serial _ => exact h.elim

end Storage

namespace Segment

theorem offset_succ (s : Segment) (address : Word) :
    s.offset (address + 1) = s.offset address + 1 := by
  simp only [offset]
  grind

theorem offset_add (s : Segment) (address : Word) (n : Nat) :
    s.offset (address + .ofNat n) = s.offset address + .ofNat n := by
  simp only [offset]
  grind

theorem toList_readBytes (s : Segment) (address : Word) (count : Nat)
    (hs : (s.offset address).toNat + count ≤ s.length)
    (hw : (s.offset address).toNat + count ≤ 0x10000) :
    (s.readBytes address count).toList =
      (List.range count).map fun i => s.readByte (address + .ofNat i) := by
  simp only [readBytes, readByte]
  split
  · simp only [offset_add]
    exact s.storage.toList_readBytes _ count hs hw
  · rw [Array.toList_replicate, List.map_const', List.length_range]

theorem readWord_eq (s : Segment) (address : Word) :
    s.readWord address = .ofBytes (s.readByte address) (s.readByte (address + 1)) := by
  simp only [readWord, readByte]
  split
  · rw [offset_succ]
    rfl
  · rfl

theorem write_write (s : Segment) (f g : Storage → Storage) :
    (s.write f).write g = s.write (g ∘ f) := by
  obtain ⟨base, capability, storage⟩ := s
  simp only [write]
  split <;> rfl

theorem writeWord_eq (s : Segment) (address : Word) (value : Word) :
    s.writeWord address value =
      (s.writeByte address (Word.low value)).writeByte (address + 1) (Word.high value) := by
  have h : (s.writeByte address (Word.low value)).offset (address + 1) = s.offset address + 1 :=
    s.offset_succ address
  simp only [writeByte, writeWord] at h ⊢
  rw [h, write_write]
  rfl

theorem writeBytes_singleton (s : Segment) (address : Word) (value : Byte) :
    s.writeBytes address [value] = s.writeByte address value := by
  simp only [writeBytes, writeByte, Storage.writeBytes_singleton]

theorem writeBytes_cons (s : Segment) (address : Word) (value : Byte) (values : List Byte)
    (h : (s.offset address).toNat + 1 < 0x10000) :
    s.writeBytes address (value :: values) =
      (s.writeByte address value).writeBytes (address + 1) values := by
  have h0 : (s.writeByte address value).offset (address + 1) = s.offset address + 1 :=
    s.offset_succ address
  simp only [writeByte, writeBytes] at h0 ⊢
  rw [h0, write_write]
  congr 1
  funext t
  exact t.writeBytes_cons _ _ _ h

def Local (s : Segment) : Prop := s.storage.Local

theorem local_ram (base : Word) (length : Nat) (contents : Array Byte) :
    (ram base length contents).Local := trivial

theorem local_rom (base : Word) (length : Nat) (image : Array Byte) :
    (rom base length image).Local := trivial

theorem local_latch (base : Word) (length : Nat) : (latch base length).Local := trivial

theorem local_writeByte {s : Segment} (h : s.Local) (address : Word) (value : Byte) :
    (s.writeByte address value).Local := by
  simp only [Local, writeByte, write]
  split
  · exact Storage.local_writeByte h _ _
  · exact h

theorem readByte_writeByte_of_ne {s : Segment} (h : s.Local) {a b : Word} (hne : b ≠ a)
    (value : Byte) : (s.writeByte a value).readByte b = s.readByte b := by
  have ho : s.offset b ≠ s.offset a := by
    intro h0
    simp only [offset] at h0
    exact hne (by grind)
  simp only [readByte, writeByte, write]
  split
  · split
    · exact Storage.readByte_writeByte_of_ne h ho value
    · rfl
  · rfl

end Segment

namespace Memory

theorem toList_appendBytes (m : Memory) (address : Word) (count : Nat) (bytes : Array Byte) :
    (m.appendBytes address count bytes).toList =
      bytes.toList ++ (List.range count).map fun i => m.readByte (address + .ofNat i) := by
  induction hn : count using Nat.strongRecOn generalizing m address bytes count with
  | _ n ih =>
      subst hn
      rw [appendBytes]
      split
      · rename_i h0
        simp [h0]
      · rename_i h0
        have hp := m.available_owner_pos address
        have hc := ((m.owner address).covers_iff address).mp (m.covers_owner address)
        have hl := m.tiles.stop_le (m.owner_mem address)
        let chunk := min ((m.owner address).available address) count
        have hk : chunk = min ((m.owner address).available address) count := rfl
        have hsum : count = chunk + (count - chunk) := by omega
        have ho : ((m.owner address).offset address).toNat =
            address.toNat - (m.owner address).base.toNat :=
          UInt16.toNat_sub_of_le _ _ (UInt16.le_iff_toNat_le.mpr hc.1)
        have hs : ((m.owner address).readBytes address chunk).toList =
            (List.range chunk).map fun i => m.readByte (address + .ofNat i) := by
          rw [Segment.toList_readBytes]
          · apply List.map_congr_left
            intro i hi
            have hi : i < (m.owner address).available address := by
              have := List.mem_range.mp hi
              omega
            rw [readByte, (owner_add i hi).2]
          · simp only [Segment.available, Segment.stop] at hk hc
            omega
          · simp only [Segment.available] at hk
            omega
        change (m.appendBytes (address + .ofNat chunk) (count - chunk)
          (bytes ++ (m.owner address).readBytes address chunk)).toList = _
        rw [ih _ (by omega) m _ _ _ rfl, Array.toList_append, hs, List.append_assoc]
        conv => rhs; rw [hsum, List.range_add, List.map_append, List.map_map]
        congr 2
        apply List.map_congr_left
        intro i _
        simp only [Function.comp_apply, UInt16.ofNat_add]
        congr 1
        grind

theorem toList_readBytes (m : Memory) (address : Word) (count : Nat) :
    (m.readBytes address count).toList =
      (List.range count).map fun i => m.readByte (address + .ofNat i) := by
  rw [readBytes, toList_appendBytes, List.nil_append]

/-- Wherever it lies, a word is two bytes, the low one first. -/
theorem readWord_eq (m : Memory) (address : Word) :
    m.readWord address = .ofBytes (m.readByte address) (m.readByte (address + 1)) := by
  simp only [readWord]
  split
  · rename_i h
    have ho : m.owner (address + 1) = m.owner address := (owner_add 1 (by omega)).2
    simp only [readByte, ho, Segment.readWord_eq]
  · have hb : (m.readBytes address 2).toList =
        [m.readByte (address + .ofNat 0), m.readByte (address + .ofNat 1)] :=
      m.toList_readBytes address 2
    have h0 : address + .ofNat 0 = address := by grind
    rw [← Array.getElem?_toList, ← Array.getElem?_toList, hb, h0]
    rfl

def writeEach (m : Memory) (address : Word) : List Byte → Memory
  | [] => m
  | value :: rest => (m.writeByte address value).writeEach (address + 1) rest

theorem writeEach_append (m : Memory) (address : Word) (xs ys : List Byte) :
    m.writeEach address (xs ++ ys) =
      (m.writeEach address xs).writeEach (address + .ofNat xs.length) ys := by
  induction xs generalizing m address with
  | nil =>
      have h : address + .ofNat 0 = address := by grind
      rw [List.nil_append, List.length_nil, h]
      rfl
  | cons x xs ih =>
      rw [List.cons_append, writeEach, ih, List.length_cons, Word.add_ofNat_succ]
      rfl

theorem modifyOwner_modifyOwner {a b : Word} (f g : Segment → Segment)
    (hf : ∀ s, (f s).base = s.base ∧ (f s).length = s.length) (segments : List Segment)
    (h : ∀ s ∈ segments, s.covers b = s.covers a) :
    modifyOwner b g (modifyOwner a f segments) = modifyOwner a (g ∘ f) segments := by
  induction segments with
  | nil => rfl
  | cons s rest ih =>
      have hs := h s List.mem_cons_self
      simp only [modifyOwner]
      cases hc : s.covers a with
      | true =>
          have hb : (f s).covers b = true := by
            rw [Segment.covers_congr (hf s).1 (hf s).2, hs, hc]
          simp [modifyOwner, hb]
      | false =>
          have hr := ih fun t ht => h t (List.mem_cons_of_mem _ ht)
          simp [modifyOwner, hs, hc, hr]

theorem modifyOwner_congr {a : Word} {f g : Segment → Segment} {segments : List Segment}
    (h : ∀ s ∈ segments, s.covers a = true → f s = g s) :
    modifyOwner a f segments = modifyOwner a g segments := by
  induction segments with
  | nil => rfl
  | cons s rest ih =>
      simp only [modifyOwner]
      split
      · rename_i hs
        rw [h s List.mem_cons_self hs]
      · rw [ih fun t ht => h t (List.mem_cons_of_mem _ ht)]

theorem modify_modify (m : Memory) {a b : Word} (hab : m.owner b = m.owner a)
    (f g k : Segment → Segment) (hf : ∀ s, (f s).base = s.base ∧ (f s).length = s.length)
    (hg : ∀ s, (g s).base = s.base ∧ (g s).length = s.length)
    (hk : ∀ s, (k s).base = s.base ∧ (k s).length = s.length)
    (h : ∀ s ∈ m.segments, s.covers a = true → g (f s) = k s) :
    (m.modify a f hf).modify b g hg = m.modify a k hk := by
  have hc : ∀ s ∈ m.segments, s.covers b = s.covers a := by
    intro s hs
    rw [Bool.eq_iff_iff]
    constructor
    · intro h0
      rw [← owner_eq hs h0, hab]
      exact m.covers_owner a
    · intro h0
      rw [← owner_eq hs h0, ← hab]
      exact m.covers_owner b
  apply eq_of_segments
  simp only [modify]
  rw [modifyOwner_modifyOwner f g hf m.segments hc]
  exact modifyOwner_congr h

theorem stop_writeByte (s : Segment) (address : Word) (value : Byte) :
    (s.writeByte address value).base = s.base ∧ (s.writeByte address value).length = s.length :=
  ⟨s.base_write _, s.length_write _ fun t => t.size_writeByte _ _⟩

theorem stop_writeBytes (s : Segment) (address : Word) (values : List Byte) :
    (s.writeBytes address values).base = s.base ∧
      (s.writeBytes address values).length = s.length :=
  ⟨s.base_write _, s.length_write _ fun t => t.size_writeBytes _ _⟩

/-- Behind a written byte the owner has as much left as before. -/
theorem available_writeByte (m : Memory) (address : Word) (value : Byte) (b : Word) :
    ((m.writeByte address value).owner b).available b = (m.owner b).available b := by
  rw [writeByte, owner_modify]
  split
  · obtain ⟨hb, hl⟩ := stop_writeByte (m.owner b) address value
    simp only [Segment.available, Segment.stop, hb, hl]
  · rfl

/-- An owner that takes a range in one piece takes it byte by byte. -/
theorem modify_writeBytes (m : Memory) (address : Word) (values : List Byte) (hn : values ≠ [])
    (h : values.length ≤ (m.owner address).available address) :
    m.modify address (·.writeBytes address values) (stop_writeBytes · address values) =
      m.writeEach address values := by
  induction values generalizing m address with
  | nil => exact absurd rfl hn
  | cons value rest ih =>
      cases rest with
      | nil =>
          apply eq_of_segments
          simp only [modify, Segment.writeBytes_singleton, writeEach, writeByte]
      | cons next rest =>
          have hl : 1 < (m.owner address).available address := by
            simp only [List.length_cons] at h
            omega
          obtain ⟨ha, ho⟩ := owner_add 1 hl
          have hr := ih (m.writeByte address value) (address + 1) (by simp) (by
            rw [available_writeByte, show address + 1 = address + .ofNat 1 from rfl, ho]
            simp only [Segment.available, List.length_cons] at h ha ⊢
            omega)
          rw [writeEach, ← hr, writeByte]
          refine (modify_modify m ho _ _ _ _ _ _ ?_).symm
          intro s hs hc
          have hsize := m.tiles.stop_le hs
          have hb := (s.covers_iff address).mp hc
          rw [owner_eq hs hc] at hl
          exact (s.writeBytes_cons address value (next :: rest) (by
            simp only [Segment.offset, Segment.available] at hl ⊢
            rw [UInt16.toNat_sub_of_le _ _ (UInt16.le_iff_toNat_le.mpr hb.1)]
            omega)).symm

theorem writeBytes_eq_writeEach (m : Memory) (address : Word) (values : List Byte) :
    m.writeBytes address values = m.writeEach address values := by
  induction hn : values.length using Nat.strongRecOn generalizing m address values with
  | _ n ih =>
      rw [writeBytes]
      split
      · rename_i h0
        rw [h0]
        rfl
      · rename_i h0
        have hp := m.available_owner_pos address
        have hv := List.length_pos_iff.mpr h0
        let chunk := min ((m.owner address).available address) values.length
        have hc : chunk = min ((m.owner address).available address) values.length := rfl
        have ht : (values.take chunk).length = chunk := by
          rw [List.length_take]
          omega
        change (m.modify address (·.writeBytes address (values.take chunk)) _).writeBytes
          (address + .ofNat chunk) (values.drop chunk) = _
        rw [ih (values.drop chunk).length (by rw [List.length_drop]; omega) _ _ _ rfl,
          modify_writeBytes m address (values.take chunk)
            (List.ne_nil_of_length_pos (by omega)) (by omega)]
        conv => rhs; rw [← List.take_append_drop chunk values, writeEach_append, ht]

theorem writeWord_eq (m : Memory) (address : Word) (value : Word) :
    m.writeWord address value =
      (m.writeByte address (Word.low value)).writeByte (address + 1) (Word.high value) := by
  rw [writeWord]
  split
  · rename_i h
    have ho : m.owner (address + 1) = m.owner address := (owner_add 1 (by omega)).2
    exact (modify_modify m ho _ _ _ _ _ _ fun s _ _ => (s.writeWord_eq address value).symm).symm
  · rw [writeBytes_eq_writeEach]
    rfl

/-- No segment has registers that change with each other. -/
def Local (m : Memory) : Prop := ∀ s ∈ m.segments, s.Local

theorem mem_modifyOwner {a : Word} {f : Segment → Segment} {segments : List Segment}
    {t : Segment} (h : t ∈ modifyOwner a f segments) :
    t ∈ segments ∨ ∃ s ∈ segments, t = f s := by
  induction segments with
  | nil => cases h
  | cons s rest ih =>
      simp only [modifyOwner] at h
      split at h
      · cases h with
        | head => exact .inr ⟨s, List.mem_cons_self, rfl⟩
        | tail _ ht => exact .inl (List.mem_cons_of_mem _ ht)
      · cases h with
        | head => exact .inl List.mem_cons_self
        | tail _ ht =>
            obtain hr | ⟨u, hu, he⟩ := ih ht
            · exact .inl (List.mem_cons_of_mem _ hr)
            · exact .inr ⟨u, List.mem_cons_of_mem _ hu, he⟩

theorem local_writeByte {m : Memory} (h : m.Local) (address : Word) (value : Byte) :
    (m.writeByte address value).Local := by
  intro t ht
  obtain hs | ⟨s, hs, rfl⟩ := mem_modifyOwner ht
  · exact h t hs
  · exact Segment.local_writeByte (h s hs) address value

theorem local_writeEach {m : Memory} (h : m.Local) (address : Word) (values : List Byte) :
    (m.writeEach address values).Local := by
  induction values generalizing m address with
  | nil => exact h
  | cons value rest ih => exact ih (local_writeByte h address value) (address + 1)

theorem readByte_writeByte_of_ne {m : Memory} (h : m.Local) {a b : Word} (hne : b ≠ a)
    (value : Byte) : (m.writeByte a value).readByte b = m.readByte b := by
  rw [readByte, writeByte, owner_modify]
  split
  · exact Segment.readByte_writeByte_of_ne (h _ (m.owner_mem b)) hne value
  · rfl

theorem readByte_writeEach_of_le {m : Memory} (h : m.Local) {a b : Word} {values : List Byte}
    (hb : values.length ≤ (b - a).toNat) : (m.writeEach a values).readByte b = m.readByte b := by
  induction values generalizing m a with
  | nil => rfl
  | cons value rest ih =>
      have hne : b ≠ a := by
        rintro rfl
        simp at hb
      rw [writeEach, ih (local_writeByte h a value) (Word.le_sub_succ hb),
        readByte_writeByte_of_ne h hne]

end Memory
end Z80
