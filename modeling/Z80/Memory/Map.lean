import Z80.Fault
import Z80.Memory.Segment

/-!
The address space as a list of segments that tiles it: in ascending order, each
begins where the one before stops and the last stops at 0x10000. Every address
therefore has one owner, and longer accesses are split where owners change.
-/

namespace Z80

/-- The segments cover the addresses from `start` to the end of the address space
exactly once, in ascending order. -/
def Tiles : Nat → List Segment → Prop
  | start, [] => start = 0x10000
  | start, s :: rest => s.base.toNat = start ∧ 0 < s.length ∧ Tiles s.stop rest

namespace Tiles

theorem exists_covers {start : Nat} {segments : List Segment} (h : Tiles start segments)
    (address : Word) (ha : start ≤ address.toNat) : ∃ s ∈ segments, s.covers address := by
  induction segments generalizing start with
  | nil =>
    have := address.toNat_lt
    simp only [Tiles] at h
    omega
  | cons s rest ih =>
    obtain ⟨hb, _, ht⟩ := h
    by_cases hs : address.toNat < s.stop
    · refine ⟨s, List.mem_cons_self, ?_⟩
      simp only [Segment.covers, Bool.and_eq_true, decide_eq_true_eq, UInt16.le_iff_toNat_le]
      omega
    · obtain ⟨t, hm, hc⟩ := ih ht (by omega)
      exact ⟨t, List.mem_cons_of_mem _ hm, hc⟩

end Tiles

/-- A memory is built once and keeps its bases and lengths for ever. -/
structure Memory where
  segments : List Segment
  tiles : Tiles 0 segments

namespace Memory

/-- The first segment, in the given order, that is empty or leaves the address
space. -/
def segmentFault? : List Segment → Option MapFault
  | [] => none
  | s :: rest =>
    if s.length = 0 then some (.zeroLength s.base)
    else if s.stop > 0x10000 then some (.outOfRange s.base s.length)
    else segmentFault? rest

/-- The lowest gap or overlap of segments in ascending order, of which everything
below `covered` is covered. -/
def tilingFault? (covered : Nat) : List Segment → Option MapFault
  | [] => if covered < 0x10000 then some (.gap covered 0x10000) else none
  | s :: rest =>
    let start := s.base.toNat
    if covered < start then some (.gap covered start)
    else if start < covered then some (.overlap start (min covered s.stop))
    else tilingFault? s.stop rest

theorem segmentFault?_eq_none_iff {segments : List Segment} :
    segmentFault? segments = none ↔ ∀ s ∈ segments, 0 < s.length ∧ s.stop ≤ 0x10000 := by
  induction segments with
  | nil => simp [segmentFault?]
  | cons s rest ih =>
    simp only [segmentFault?, List.forall_mem_cons]
    split
    · simp only [reduceCtorEq, false_iff]; omega
    · split
      · simp only [reduceCtorEq, false_iff]; omega
      · rw [ih]
        have : 0 < s.length ∧ s.stop ≤ 0x10000 := by omega
        simp [this]

theorem tiles_of_tilingFault?_eq_none {segments : List Segment} {covered : Nat}
    (hc : covered ≤ 0x10000) (hs : ∀ s ∈ segments, 0 < s.length ∧ s.stop ≤ 0x10000)
    (h : tilingFault? covered segments = none) : Tiles covered segments := by
  induction segments generalizing covered with
  | nil =>
    simp only [tilingFault?, ite_eq_right_iff, reduceCtorEq, imp_false] at h
    simp only [Tiles]
    omega
  | cons s rest ih =>
    simp only [List.forall_mem_cons] at hs
    simp only [tilingFault?] at h
    split at h
    · simp at h
    · split at h
      · simp at h
      · exact ⟨by omega, hs.1.1, ih hs.1.2 hs.2 h⟩

def byBase (segments : List Segment) : List Segment :=
  segments.mergeSort fun s t => s.base ≤ t.base

/-- Accepts exactly the lists of segments that tile the address space in some
order; of several faults an invalid segment is named before a gap or overlap. -/
def ofSegments (segments : List Segment) : Except MapFault Memory :=
  if segments.isEmpty then .error .noSegments
  else match hs : segmentFault? segments with
    | some fault => .error fault
    | none => match ht : tilingFault? 0 (byBase segments) with
      | some fault => .error fault
      | none => .ok {
          segments := byBase segments
          tiles := tiles_of_tilingFault?_eq_none (Nat.zero_le _)
            (fun s h => segmentFault?_eq_none_iff.1 hs s (List.mem_mergeSort.1 h)) ht }

theorem owner_isSome (m : Memory) (address : Word) :
    (m.segments.find? (·.covers address)).isSome := by
  rw [List.find?_isSome]
  exact m.tiles.exists_covers address (Nat.zero_le _)

def owner (m : Memory) (address : Word) : Segment :=
  (m.segments.find? (·.covers address)).get (m.owner_isSome address)

theorem covers_owner (m : Memory) (address : Word) : (m.owner address).covers address :=
  List.find?_some (p := fun s : Segment => s.covers address)
    (Option.some_get (m.owner_isSome address)).symm

theorem available_owner_pos (m : Memory) (address : Word) :
    0 < (m.owner address).available address := by
  have h := m.covers_owner address
  simp only [Segment.covers, Bool.and_eq_true, decide_eq_true_eq] at h
  simp only [Segment.available]
  omega

def readByte (m : Memory) (address : Word) : Byte :=
  (m.owner address).readByte address

/-- Appends the bytes of consecutive addresses, one owner after the other. -/
def appendBytes (m : Memory) (address : Word) (count : Nat) (bytes : Array Byte) : Array Byte :=
  if _ : count = 0 then bytes
  else
    let s := m.owner address
    let chunk := min (s.available address) count
    m.appendBytes (address + .ofNat chunk) (count - chunk) (bytes ++ s.readBytes address chunk)
termination_by count
decreasing_by
  have := m.available_owner_pos address
  omega

/-- Consecutive bytes; after 0xFFFF comes address 0 again. -/
def readBytes (m : Memory) (address : Word) (count : Nat) : Array Byte :=
  m.appendBytes address count #[]

/-- A word takes its high byte from the next segment where its owner stops. -/
def readWord (m : Memory) (address : Word) : Word :=
  let s := m.owner address
  if 2 ≤ s.available address then s.readWord address
  else
    let bytes := m.readBytes address 2
    .ofBytes (bytes[0]?.getD 0) (bytes[1]?.getD 0)

def modifyOwner (address : Word) (f : Segment → Segment) : List Segment → List Segment
  | [] => []
  | s :: rest => if s.covers address then f s :: rest else s :: modifyOwner address f rest

theorem tiles_modifyOwner {start : Nat} {segments : List Segment} (h : Tiles start segments)
    (address : Word) (f : Segment → Segment)
    (hf : ∀ s, (f s).base = s.base ∧ (f s).length = s.length) :
    Tiles start (modifyOwner address f segments) := by
  induction segments generalizing start with
  | nil => exact h
  | cons s rest ih =>
    obtain ⟨hb, hl, ht⟩ := h
    simp only [modifyOwner]
    split
    · refine ⟨by rw [(hf s).1]; exact hb, by rw [(hf s).2]; exact hl, ?_⟩
      simpa only [Segment.stop, hf s] using ht
    · exact ⟨hb, hl, ih ht⟩

def modify (m : Memory) (address : Word) (f : Segment → Segment)
    (hf : ∀ s, (f s).base = s.base ∧ (f s).length = s.length) : Memory where
  segments := modifyOwner address f m.segments
  tiles := tiles_modifyOwner m.tiles address f hf

def writeByte (m : Memory) (address : Word) (value : Byte) : Memory :=
  m.modify address (·.writeByte address value) fun s =>
    ⟨s.base_write _, s.length_write _ fun t => t.size_writeByte _ _⟩

/-- The bytes go to consecutive addresses in ascending order, to each owner its
share in one piece. -/
def writeBytes (m : Memory) (address : Word) (values : List Byte) : Memory :=
  if _ : values = [] then m
  else
    let chunk := min ((m.owner address).available address) values.length
    let written := m.modify address (·.writeBytes address (values.take chunk)) fun s =>
      ⟨s.base_write _, s.length_write _ fun t => t.size_writeBytes _ _⟩
    written.writeBytes (address + .ofNat chunk) (values.drop chunk)
termination_by values.length
decreasing_by
  have := m.available_owner_pos address
  have := List.length_pos_iff.2 ‹values ≠ []›
  simp only [List.length_drop]
  omega

def writeWord (m : Memory) (address : Word) (value : Word) : Memory :=
  if 2 ≤ (m.owner address).available address then
    m.modify address (·.writeWord address value) fun s =>
      ⟨s.base_write _, s.length_write _ fun t => t.size_writeWord _ _⟩
  else m.writeBytes address [Word.low value, Word.high value]

def serialOutput? (m : Memory) : Option (Array Byte) :=
  m.segments.findSome? (·.storage.output?)

end Memory
end Z80
