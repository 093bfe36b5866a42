import Z80.Proofs.Cache.Coherence
import Z80.Proofs.Memory.Flat
import Z80.Runner.Run

/-!
Which bytes a store can change. It is announced with its address and length, and no byte
outside that range changes but one: a store to the control register of a serial port may
start a transfer, which also overwrites the data register in front of it. Code is seldom
there, but a block that was decoded from that register is kept.
-/

namespace Z80

/-- A byte with these bits in the control register starts a transfer. -/
def SerialPort.Starts (value : Byte) : Prop := value &&& 0x81 = 0x81

theorem SerialPort.read_write_data (p : SerialPort) (value : Byte) :
    (p.write 1 value).read 1 = value := by
  simp [write, read]

theorem SerialPort.read_write_control {value : Byte} (h : Starts value) (p : SerialPort) :
    (p.write 2 value).read 1 = 0xFF := by
  simp only [Starts] at h
  simp [write, read, h]

theorem Storage.serial_of_readByte_ne {s : Storage} {a b : Word} {value : Byte} (hne : b ≠ a)
    (h : (s.writeByte a value).readByte b ≠ s.readByte b) :
    (∃ port, s = .serial port) ∧ a = 2 ∧ b = 1 ∧ SerialPort.Starts value := by
  have hn : a.toNat ≠ b.toNat := fun h0 => hne (UInt16.toNat_inj.mp h0).symm
  cases s with
  | plain contents =>
      exact absurd (readByte_writeByte_of_ne (s := .plain contents) trivial hne value) h
  | latch contents =>
      exact absurd (readByte_writeByte_of_ne (s := .latch contents) trivial hne value) h
  | serial port =>
      refine ⟨⟨port, rfl⟩, ?_⟩
      simp only [writeByte, readByte, SerialPort.write, SerialPort.read] at h
      split at h
      · rename_i hs
        obtain ⟨rfl, hs⟩ := hs
        have h2 : 2 ≠ b.toNat := hn
        refine ⟨rfl, ?_, hs⟩
        by_cases hb : 1 = b.toNat
        · exact UInt16.toNat_inj.mp hb.symm
        · simp only [Vector.getElem?_setIfInBounds_ne h2, Vector.getElem?_setIfInBounds_ne hb] at h
          exact absurd rfl h
      · rw [Vector.getElem?_setIfInBounds_ne hn] at h
        exact absurd rfl h

def Segment.IsSerial (s : Segment) : Prop := ∃ port, s.storage = .serial port

theorem Segment.serial_of_readByte_ne {s : Segment} {a b : Word} {value : Byte} (hne : b ≠ a)
    (h : (s.writeByte a value).readByte b ≠ s.readByte b) :
    s.IsSerial ∧ b = s.base + 1 ∧ a = b + 1 ∧ SerialPort.Starts value := by
  have ho : s.offset b ≠ s.offset a := by
    intro h0
    simp only [offset] at h0
    exact hne (by grind)
  simp only [readByte, writeByte, write] at h
  split at h
  · split at h
    · obtain ⟨hp, ha, hb, hv⟩ := Storage.serial_of_readByte_ne ho h
      simp only [offset] at ha hb
      exact ⟨hp, by grind, by grind, hv⟩
    · exact absurd rfl h
  · exact absurd rfl h

theorem Segment.isSerial_writeByte {s : Segment} {a : Word} {value : Byte}
    (h : (s.writeByte a value).IsSerial) : s.IsSerial := by
  obtain ⟨base, capability, storage⟩ := s
  obtain ⟨port, hp⟩ := h
  cases storage with
  | serial p => exact ⟨p, rfl⟩
  | plain _ | latch _ =>
      simp only [writeByte, write] at hp
      split at hp <;> cases hp

namespace Memory

/-- The data register of a serial port, which is the second one of its page. -/
def IsSerialData (m : Memory) (a : Word) : Prop :=
  (m.owner a).IsSerial ∧ a = (m.owner a).base + 1

theorem isSerialData_writeByte {m : Memory} {a b : Word} {value : Byte}
    (h : (m.writeByte a value).IsSerialData b) : m.IsSerialData b := by
  simp only [IsSerialData, writeByte, owner_modify] at h
  split at h
  · exact ⟨Segment.isSerial_writeByte h.1, h.2⟩
  · exact h

theorem eq_or_serial_of_readByte_ne {m : Memory} {a b : Word} {value : Byte}
    (h : (m.writeByte a value).readByte b ≠ m.readByte b) :
    b = a ∨ m.IsSerialData b ∧ b + 1 = a ∧ SerialPort.Starts value := by
  by_cases hne : b = a
  · exact .inl hne
  · refine .inr ?_
    rw [readByte, writeByte, owner_modify] at h
    split at h
    · obtain ⟨hs, hb, ha, hv⟩ := Segment.serial_of_readByte_ne hne h
      exact ⟨⟨hs, hb⟩, ha.symm, hv⟩
    · exact absurd rfl h

/-- A byte that consecutive writes change is one of those written, or its write to the
control register behind it started a transfer. -/
theorem mem_or_serial_of_readByte_ne {m : Memory} {a x : Word} {values : List Byte}
    (h : (m.writeEach a values).readByte x ≠ m.readByte x) :
    (∃ i < values.length, x = a + .ofNat i) ∨
      m.IsSerialData x ∧ ∃ i value, values[i]? = some value ∧ x + 1 = a + .ofNat i ∧
        SerialPort.Starts value := by
  induction values generalizing m a with
  | nil => exact absurd rfl h
  | cons value rest ih =>
      have h0 : a + .ofNat 0 = a := by grind
      by_cases hfirst : (m.writeByte a value).readByte x = m.readByte x
      · rw [writeEach, ← hfirst] at h
        obtain ⟨i, hi, hx⟩ | ⟨hs, i, v, hv, hx, ht⟩ := ih h
        · exact .inl ⟨i + 1, Nat.succ_lt_succ hi, by rw [Word.add_ofNat_succ, hx]⟩
        · exact .inr ⟨isSerialData_writeByte hs, i + 1, v, hv, by rw [Word.add_ofNat_succ, hx], ht⟩
      · obtain hx | ⟨hs, hx, ht⟩ := eq_or_serial_of_readByte_ne hfirst
        · exact .inl ⟨0, Nat.succ_pos _, by rw [h0, hx]⟩
        · exact .inr ⟨hs, 0, value, rfl, by rw [h0, hx], ht⟩

end Memory

/-- A store is announced with a range that holds every address whose byte it changes, save
the data register of a serial port of which it starts a transfer. -/
theorem Bus.changes_are_announced {ω : Type} [Observer ω] (b : Bus ω) (s : Store) :
    (b.store s).observer = Observer.written b.observer s.address s.length ∧
    ∀ x, (b.store s).readByte x ≠ b.readByte x →
      (∃ i < s.length, x = s.address + .ofNat i) ∨
      b.memory.IsSerialData x ∧ ∃ i value, (s.values b.memory)[i]? = some value ∧
        x + 1 = s.address + .ofNat i ∧ SerialPort.Starts value := by
  refine ⟨by rw [store_eq], ?_⟩
  intro x h
  simp only [readByte, store_eq] at h
  rw [← s.length_values b.memory]
  exact Memory.mem_or_serial_of_readByte_ne h

/-- A cache that watches the bus stays coherent with it, as far as its blocks keep off the
data registers of serial ports. -/
theorem Cache.Coherent.compile_store {mode : Mode} {b : Bus Cache}
    (h : b.observer.Coherent mode b.memory) (s : Store) {k : Word} {block : Block}
    (hk : (b.store s).observer.get? k = some block)
    (hs : ∀ i < block.length, ¬ b.memory.IsSerialData (k + .ofNat i)) :
    Block.compile mode (b.store s).memory k = .ok block := by
  rw [Bus.store_eq] at hk ⊢
  change (b.observer.invalidate s.address s.length).2.get? k = some block at hk
  rw [h.indexed.get?_invalidate, Option.filter_eq_some_iff, Bool.not_eq_true'] at hk
  obtain ⟨hk, ho⟩ := hk
  refine Block.compile_congr (h.compile_eq hk) fun i hi => ?_
  refine Classical.byContradiction fun hne => ?_
  obtain ⟨j, hj, hx⟩ | ⟨hd, -⟩ := Memory.mem_or_serial_of_readByte_ne hne
  · rw [s.length_values] at hj
    have hl := Block.le_of_overlaps_eq_false ho (Nat.ne_of_gt (Nat.zero_lt_of_lt hj)) hi
    rw [h.indexed.address_eq hk, hx, UInt16.toNat_sub, UInt16.toNat_add, UInt16.toNat_ofNat'] at hl
    have := s.address.toNat_lt
    omega
  · exact hs i hi hd

theorem Runner.tiles_cartridgeSegments (image : Array Byte) :
    Tiles 0 (cartridgeSegments image) := by
  refine ⟨rfl, ?_, ?_, ?_, ?_, ?_, rfl⟩
  · rw [Segment.length_rom]; decide
  · rw [Segment.stop_rom]; rfl
  · rw [Segment.length_ram]; decide
  · rw [Segment.stop_ram]; rfl
  · decide

theorem Segment.writeByte_serial (base a : Word) (port : SerialPort) (value : Byte) :
    (⟨base, .readWrite, .serial port⟩ : Segment).writeByte a value =
      ⟨base, .readWrite, .serial (port.write (a - base) value)⟩ :=
  rfl

theorem Memory.readByte_data_of_transfer {m : Memory} {port : SerialPort}
    (h : m.owner 0xFF01 = ⟨0xFF00, .readWrite, .serial port⟩) (value : Byte) :
    (m.writeByte 0xFF01 value).readByte 0xFF01 = value ∧
      ((m.writeByte 0xFF01 value).writeByte 0xFF02 0x81).readByte 0xFF01 = 0xFF := by
  have hs : SerialPort.Starts 0x81 := rfl
  have d1 : (0xFF01 - 0xFF00 : Word) = 1 := by decide
  have d2 : (0xFF02 - 0xFF00 : Word) = 2 := by decide
  have hc (p : SerialPort) (a : Word) (ha : 0xFF00 ≤ a) :
      (⟨0xFF00, .readWrite, .serial p⟩ : Segment).covers a = true := by
    simp only [Segment.covers, Bool.and_eq_true, decide_eq_true_eq]
    exact ⟨ha, a.toNat_lt⟩
  have h0 : (m.writeByte 0xFF01 value).owner 0xFF01 =
      ⟨0xFF00, .readWrite, .serial (port.write 1 value)⟩ := by
    rw [writeByte, owner_modify, h, if_pos (hc _ _ (by decide)), Segment.writeByte_serial, d1]
  have h1 : ((m.writeByte 0xFF01 value).writeByte 0xFF02 0x81).owner 0xFF01 =
      ⟨0xFF00, .readWrite, .serial ((port.write 1 value).write 2 0x81)⟩ := by
    rw [writeByte, owner_modify, h0, if_pos (hc _ _ (by decide)), Segment.writeByte_serial, d2]
  refine ⟨?_, ?_⟩
  · rw [readByte, h0, Segment.readByte, Segment.offset, d1]
    exact port.read_write_data value
  · rw [readByte, h1, Segment.readByte, Segment.offset, d1]
    exact SerialPort.read_write_control hs (port.write 1 value)

/-- On a Game Boy, a `RET` in the data register of the serial port stays in the cache when a
transfer makes it a `RST 38`. -/
theorem serial_transfer_changes_unannounced_byte :
    ∃ m block, Memory.ofSegments (Runner.cartridgeSegments #[]) = .ok m ∧
      let memory := m.writeByte 0xFF01 0xC9
      let b : Bus Cache := ⟨memory, Cache.empty.insert block⟩
      let s := Store.byte 0xFF02 0x81
      Block.compile .gameBoy memory 0xFF01 = .ok block ∧
      (b.store s).readByte 0xFF01 ≠ b.readByte 0xFF01 ∧
      (¬ ∃ i < s.length, 0xFF01 = s.address + .ofNat i) ∧
      (b.store s).observer.get? 0xFF01 = some block ∧
      Block.compile .gameBoy (b.store s).memory 0xFF01 ≠ .ok block := by
  obtain ⟨m, hm⟩ := Memory.exists_ofSegments (Runner.tiles_cartridgeSegments #[])
  have ho : m.owner 0xFF01 = .serial :=
    Memory.owner_of_ofSegments hm (by simp [Runner.cartridgeSegments]) (by decide)
  obtain ⟨h0, h1⟩ := Memory.readByte_data_of_transfer ho 0xC9
  let memory := m.writeByte 0xFF01 0xC9
  have hret : Block.compile .gameBoy memory 0xFF01 =
      .ok ⟨0xFF01, 1, #[], some .ret, .ofMachine 4, false⟩ :=
    Block.compile_of_byte h0 rfl
  have hrst : Block.compile .gameBoy (memory.writeByte 0xFF02 0x81) 0xFF01 =
      .ok ⟨0xFF01, 1, #[], some (.call 0x38), .ofMachine 4, false⟩ :=
    Block.compile_of_byte h1 rfl
  have hi := Cache.indexed_empty.insert ⟨0xFF01, 1, #[], some .ret, .ofMachine 4, false⟩
  refine ⟨m, _, hm, hret, ?_, ?_, ?_, ?_⟩
  · simp only [Bus.store, Bus.readByte, Bus.writeByte, h0, h1]
    decide
  · decide
  · rw [Bus.store_eq]
    refine (hi.get?_invalidate 0xFF02 1 0xFF01).trans ?_
    rw [Cache.get?_insert]
    rfl
  · change Block.compile .gameBoy (memory.writeByte 0xFF02 0x81) 0xFF01 ≠ _
    rw [hrst]
    simp

end Z80
