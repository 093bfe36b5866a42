import Z80.Memory.Bus
import Z80.Proofs.Memory.Bytes
import Z80.Proofs.Word

/-!
Segments of any kinds and sizes behave like 64 KiB of bytes: the border of a segment, the top
of memory and the length of a range make no difference. What a write may not touch stays as
it was, and the observer is told of the write once, however many segments it reached.
-/

namespace Z80

namespace Segment

/-- Plain memory that can be read and written. -/
def IsRam (s : Segment) : Prop :=
  s.capability = .readWrite ∧ ∃ contents, s.storage = .plain contents

theorem write_of_readOnly {s : Segment} (h : s.capability = .readOnly) (f : Storage → Storage) :
    s.write f = s := by
  obtain ⟨base, capability, storage⟩ := s
  cases h
  rfl

theorem readByte_of_writeOnly {s : Segment} (h : s.capability = .writeOnly) (address : Word) :
    s.readByte address = 0xFF := by
  simp [readByte, h, Capability.canRead]

theorem readByte_ram (length : Nat) (contents : Array Byte) {address : Word}
    (h : address.toNat < min length contents.size) :
    (ram 0 length contents).readByte address = contents[address.toNat]?.getD 0xFF := by
  have h0 : address - 0 = address := by grind
  have hs : address.toNat < (contents.take length).size := by simpa using h
  change ((contents.take length ++ .replicate (length - contents.size) 0)[
    (address - 0).toNat]?).getD 0xFF = _
  rw [h0, Array.getElem?_append_left hs, Array.getElem?_eq_getElem hs,
    Array.getElem?_eq_getElem (Nat.lt_of_lt_of_le h (Nat.min_le_right _ _))]
  simp

theorem readByte_writeByte_self {s : Segment} (h : s.IsRam) {address : Word}
    (hc : s.covers address = true) (value : Byte) :
    (s.writeByte address value).readByte address = value := by
  obtain ⟨base, capability, storage⟩ := s
  obtain ⟨rfl, contents, rfl⟩ := h
  rw [covers_iff] at hc
  change base.toNat ≤ address.toNat ∧ address.toNat < base.toNat + contents.size at hc
  have ho : (address - base).toNat < contents.size := by
    rw [UInt16.toNat_sub_of_le _ _ (UInt16.le_iff_toNat_le.mpr hc.1)]
    omega
  simp [readByte, writeByte, write, offset, Storage.readByte, Storage.writeByte,
    Capability.canRead, Capability.canWrite, ho]

theorem isRam_writeByte {s : Segment} (h : s.IsRam) (address : Word) (value : Byte) :
    (s.writeByte address value).IsRam := by
  obtain ⟨base, capability, storage⟩ := s
  obtain ⟨rfl, contents, rfl⟩ := h
  exact ⟨rfl, _, rfl⟩

end Segment

namespace Memory

theorem owner_of_ofSegments {segments : List Segment} {m : Memory}
    (h : ofSegments segments = .ok m) {s : Segment} (hs : s ∈ segments) {address : Word}
    (hc : s.covers address = true) : m.owner address = s := by
  refine owner_eq ?_ hc
  rw [segments_of_ofSegments h]
  exact List.mem_mergeSort.mpr hs

theorem readByte_of_ofSegments {segments : List Segment} {m : Memory}
    (h : ofSegments segments = .ok m) {s : Segment} (hs : s ∈ segments) {address : Word}
    (hc : s.covers address = true) : m.readByte address = s.readByte address :=
  congrArg (·.readByte address) (owner_of_ofSegments h hs hc)

theorem exists_ofSegments_ram (contents : Array Byte) :
    ∃ m, ofSegments [.ram 0 0x10000 contents] = .ok m ∧
      ∀ a : Word, m.owner a = .ram 0 0x10000 contents := by
  have ht : Tiles 0 [.ram 0 0x10000 contents] := by
    refine ⟨rfl, ?_, ?_⟩
    · rw [Segment.length_ram]; decide
    · rw [Tiles, Segment.stop_ram]; rfl
  obtain ⟨m, hm⟩ := exists_ofSegments ht
  refine ⟨m, hm, fun a => owner_of_ofSegments hm (List.mem_singleton_self _) ?_⟩
  simp only [Segment.covers_iff, Segment.stop_ram]
  exact ⟨Nat.zero_le _, by simpa using a.toNat_lt⟩

theorem capability_owner_writeByte (m : Memory) (a b : Word) (value : Byte) :
    ((m.writeByte a value).owner b).capability = (m.owner b).capability := by
  rw [writeByte, owner_modify]
  split <;> rfl

theorem owner_writeByte_of_readOnly {m : Memory} {b : Word}
    (h : (m.owner b).capability = .readOnly) (a : Word) (value : Byte) :
    (m.writeByte a value).owner b = m.owner b := by
  rw [writeByte, owner_modify]
  split
  · exact Segment.write_of_readOnly h (·.writeByte ((m.owner b).offset a) value)
  · rfl

theorem readByte_writeByte_self {m : Memory} {a : Word} (h : (m.owner a).IsRam) (value : Byte) :
    (m.writeByte a value).readByte a = value := by
  have hc := m.covers_owner a
  rw [readByte, writeByte, owner_modify, if_pos hc]
  exact Segment.readByte_writeByte_self h hc value

theorem isRam_owner_writeByte {m : Memory} {b : Word} (h : (m.owner b).IsRam) (a : Word)
    (value : Byte) : ((m.writeByte a value).owner b).IsRam := by
  rw [writeByte, owner_modify]
  split
  · exact Segment.isRam_writeByte h a value
  · exact h

end Memory

/-- A write operation of a bus. -/
inductive Store where
  | byte (address : Word) (value : Byte)
  | word (address value : Word)
  | bytes (address : Word) (values : List Byte)
  | transfer (source destination : Word)

namespace Store

def address : Store → Word
  | byte address _ | word address _ | bytes address _ | transfer _ address => address

def length : Store → Nat
  | byte _ _ | transfer _ _ => 1
  | word _ _ => 2
  | bytes _ values => values.length

/-- The bytes that go to the address and those behind it. -/
def values (m : Memory) : Store → List Byte
  | byte _ value => [value]
  | word _ value => [Word.low value, Word.high value]
  | bytes _ values => values
  | transfer source _ => [m.readByte source]

theorem length_values (s : Store) (m : Memory) : (s.values m).length = s.length := by
  cases s <;> rfl

end Store

theorem Listeners.foldl_subscribe {σ : Type} (state : σ)
    (old new : List (σ → Word → Nat → σ)) :
    new.foldl subscribe ⟨state, old⟩ = ⟨state, old ++ new⟩ := by
  induction new generalizing old with
  | nil => rw [List.append_nil]; rfl
  | cons listener rest ih => rw [List.foldl_cons, subscribe, ih, List.append_assoc]; rfl

namespace Bus

variable {ω : Type} [Observer ω]

def store (b : Bus ω) : Store → Bus ω
  | .byte address value => b.writeByte address value
  | .word address value => b.writeWord address value
  | .bytes address values => b.writeBytes address values
  | .transfer source destination => (b.transfer source destination).2

theorem store_eq (b : Bus ω) (s : Store) :
    b.store s = ⟨b.memory.writeEach s.address (s.values b.memory),
      Observer.written b.observer s.address s.length⟩ := by
  obtain ⟨memory, observer⟩ := b
  cases s with
  | byte _ _ | transfer _ _ => rfl
  | word address value => simp only [store, writeWord, Memory.writeWord_eq]; rfl
  | bytes address values => simp only [store, writeBytes, Memory.writeBytes_eq_writeEach]; rfl

def storeAll (b : Bus ω) (stores : List Store) : Bus ω :=
  stores.foldl store b

/-- What every write of a byte keeps, all stores keep. -/
theorem storeAll_keeps {P : Memory → Prop} (h : ∀ m a value, P m → P (m.writeByte a value))
    (stores : List Store) {b : Bus ω} (hb : P b.memory) : P (b.storeAll stores).memory := by
  have each (values : List Byte) : ∀ m a, P m → P (m.writeEach a values) := by
    induction values with
    | nil => exact fun _ _ hm => hm
    | cons value rest ih => exact fun m a hm => ih _ _ (h m a value hm)
  induction stores generalizing b with
  | nil => exact hb
  | cons s rest ih =>
      have hs : P (b.store s).memory := by
        rw [store_eq]
        exact each _ _ _ hb
      exact ih hs

theorem observer_storeAll {σ : Type} (b : Bus (Listeners σ)) (stores : List Store) :
    (b.storeAll stores).observer =
      ⟨stores.foldl (fun t s => b.observer.listeners.foldl (fun t l => l t s.address s.length) t)
        b.observer.state, b.observer.listeners⟩ := by
  induction stores generalizing b with
  | nil => rfl
  | cons s rest ih =>
      rw [storeAll, List.foldl_cons]
      refine (ih (b.store s)).trans ?_
      rw [store_eq]
      rfl

/-- The segments cannot be told from 64 KiB of bytes, each with the rules of its segment:
accesses to words and to ranges of any length are those to their bytes, and every write
tells each listener once, in the order in which they subscribed. -/
theorem every_access_is_bytewise {σ : Type} {segments : List Segment} {m : Memory}
    (hm : Memory.ofSegments segments = .ok m) (state : σ)
    (listeners : List (σ → Word → Nat → σ)) (stores : List Store) :
    let start : Bus (Listeners σ) := ⟨m, listeners.foldl Listeners.subscribe ⟨state, []⟩⟩
    let b := start.storeAll stores
    (∀ a, (b.readWord a).toNat = (b.readByte a).toNat + 256 * (b.readByte (a + 1)).toNat) ∧
    (∀ a n, (b.memory.readBytes a n).toList =
      (List.range n).map fun i => b.readByte (a + .ofNat i)) ∧
    (∀ s, (b.store s).memory = b.memory.writeEach s.address (s.values b.memory)) ∧
    (∀ source destination, b.transfer source destination =
      (b.readByte source, b.writeByte destination (b.readByte source))) ∧
    b.observer.state =
      stores.foldl (fun t s => listeners.foldl (fun t l => l t s.address s.length) t) state ∧
    ∀ s ∈ segments, ∀ a, s.covers a = true →
      (s.capability = .readOnly → b.readByte a = s.readByte a) ∧
      (s.capability = .writeOnly → b.readByte a = 0xFF) ∧
      (s.IsRam → ∀ value, (b.writeByte a value).readByte a = value) := by
  intro start b
  refine ⟨?_, ?_, ?_, fun _ _ => rfl, ?_, ?_⟩
  · intro a
    have hw : b.readWord a = .ofBytes (b.readByte a) (b.readByte (a + 1)) := b.memory.readWord_eq a
    rw [hw, Word.toNat_ofBytes]
  · intro a n
    exact b.memory.toList_readBytes a n
  · intro s
    rw [b.store_eq s]
  · have hl : start.observer = ⟨state, listeners⟩ := Listeners.foldl_subscribe state [] listeners
    rw [observer_storeAll, hl]
  · intro s hs a hc
    have ho : m.owner a = s := Memory.owner_of_ofSegments hm hs hc
    have hcap : (b.memory.owner a).capability = s.capability :=
      storeAll_keeps (P := fun n => (n.owner a).capability = s.capability)
        (fun n c value h => (n.capability_owner_writeByte c a value).trans h) stores
        (congrArg Segment.capability ho)
    refine ⟨fun h => ?_, fun h => ?_, fun h value => ?_⟩
    · have hr : b.memory.owner a = s :=
        storeAll_keeps (P := fun n => n.owner a = s)
          (fun n c value hn => (Memory.owner_writeByte_of_readOnly (hn ▸ h) c value).trans hn)
          stores ho
      exact congrArg (·.readByte a) hr
    · exact Segment.readByte_of_writeOnly (hcap.trans h) a
    · have hr : (b.memory.owner a).IsRam :=
        storeAll_keeps (P := fun n => (n.owner a).IsRam)
          (fun n c value hn => Memory.isRam_owner_writeByte hn c value) stores
          (show (m.owner a).IsRam from ho ▸ h)
      exact Memory.readByte_writeByte_self hr value

/-- A ROM of one byte, a RAM, a latch and the serial port under two stores, of which one is
split and the other one wraps, with two listeners that keep one log. -/
theorem accesses_across_four_segments :
    let segments := [Segment.rom 0 1 #[0x12], .ram 1 0x7FFF #[], .latch 0x8000 0x7F00, .serial]
    let note (who : Nat) : List (Nat × Word × Nat) → Word → Nat → List (Nat × Word × Nat) :=
      fun log a n => (who, a, n) :: log
    let stores := [Store.word 0 0xABCD, .bytes 0xFFFF [1, 2, 3]]
    ∃ m, Memory.ofSegments segments = .ok m ∧
      let start : Bus (Listeners (List (Nat × Word × Nat))) :=
        ⟨m, [note 1, note 2].foldl Listeners.subscribe ⟨[], []⟩⟩
      let b := start.storeAll stores
      (b.readWord 0xFFFF).toNat = (b.readByte 0xFFFF).toNat + 256 * (b.readByte 0).toNat ∧
      b.readByte 0 = 0x12 ∧ b.readByte 0x8000 = 0xFF ∧ (b.writeByte 1 0x56).readByte 1 = 0x56 ∧
      b.observer.state = [(2, 0xFFFF, 3), (1, 0xFFFF, 3), (2, 0, 2), (1, 0, 2)] := by
  intro segments note stores
  have ht : Tiles 0 segments := by
    refine ⟨rfl, ?_, ?_, ?_, ?_, ?_, ?_, ?_, rfl⟩
    · decide
    · rfl
    · rw [Segment.length_ram]; decide
    · rw [Segment.stop_ram]; rfl
    · rw [Segment.length_latch]; decide
    · rw [Segment.stop_latch]; rfl
    · decide
  obtain ⟨m, hm⟩ := Memory.exists_ofSegments ht
  obtain ⟨hw, _, _, _, hn, hs⟩ := every_access_is_bytewise hm [] [note 1, note 2] stores
  refine ⟨m, hm, hw 0xFFFF, ?_, ?_, ?_, hn⟩
  · exact (hs (.rom 0 1 #[0x12]) (by simp [segments]) 0 (by decide)).1 rfl
  · refine (hs (.latch 0x8000 0x7F00) (by simp [segments]) 0x8000 ?_).2.1 rfl
    rw [Segment.covers_iff, Segment.stop_latch]
    decide
  · refine (hs (.ram 1 0x7FFF #[]) (by simp [segments]) 1 ?_).2.2 ⟨rfl, _, rfl⟩ 0x56
    rw [Segment.covers_iff, Segment.stop_ram]
    decide

end Bus
end Z80
