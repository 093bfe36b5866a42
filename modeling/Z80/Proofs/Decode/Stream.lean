import Z80.Proofs.Decode.Locality
import Z80.Proofs.Memory.Flat

/-!
A cursor is a stream of bytes however it is read. Bytes, signed bytes, words and ranges may
be read in any order: what comes back, put together, is memory from the start on. Address
and count part where the address has come round the top of memory, and the limit looks at
the count.
-/

namespace Z80.Cursor

/-- The ways to read on. -/
inductive Read where
  | byte
  | signedByte
  | word
  | bytes (count : Nat)

/-- What a read gives. -/
inductive Item where
  | byte (value : Byte)
  | signedByte (value : Int8)
  | word (value : Word)
  | bytes (values : Array Byte)

namespace Item

/-- The bytes in the order in which they stand in memory. A signed byte is stored as its
two's complement. -/
def toBytes : Item → List Byte
  | byte value => [value]
  | signedByte value => [value.toUInt8]
  | word value => [Word.low value, Word.high value]
  | bytes values => values.toList

/-- The read to which it is an answer. -/
def read : Item → Read
  | byte _ => .byte
  | signedByte _ => .signedByte
  | word _ => .word
  | bytes values => .bytes values.size

end Item

def Read.length : Read → Nat
  | byte | signedByte => 1
  | word => 2
  | bytes count => count

def read (c : Cursor) : Read → Item × Cursor
  | .byte =>
    let (value, d) := c.byte
    (.byte value, d)
  | .signedByte =>
    let (value, d) := c.signedByte
    (.signedByte value, d)
  | .word =>
    let (value, d) := c.word
    (.word value, d)
  | .bytes count =>
    let (values, d) := c.bytes count
    (.bytes values, d)

def readAll (c : Cursor) : List Read → List Item × Cursor
  | [] => ([], c)
  | r :: rest =>
    let (item, d) := c.read r
    let (items, d) := d.readAll rest
    (item :: items, d)

/-- The bytes ahead of a cursor. -/
def stream (c : Cursor) (count : Nat) : List Byte :=
  (List.range count).map c.peek

theorem length_stream (c : Cursor) (count : Nat) : (c.stream count).length = count := by
  rw [stream, List.length_map, List.length_range]

theorem stream_add (c : Cursor) (m n : Nat) :
    c.stream (m + n) = c.stream m ++ (c.skip m).stream n := by
  simp only [stream, List.range_add, List.map_append, List.map_map]
  congr 1
  apply List.map_congr_left
  intro i _
  rw [Function.comp_apply, peek_skip]

theorem stream_begin (memory : Memory) (start : Word) (count : Nat) :
    (begin memory start).stream count =
      (List.range count).map fun i => memory.readByte (start + .ofNat i) := by
  apply List.map_congr_left
  intro i _
  exact peek_begin memory start i

theorem toList_bytes (c : Cursor) (count : Nat) : (c.bytes count).1.toList = c.stream count :=
  c.memory.toList_readBytes c.address count

theorem toBytes_read (c : Cursor) (r : Read) : (c.read r).1.toBytes = c.stream r.length := by
  cases r with
  | byte =>
      simp only [read, byte_eq]
      rfl
  | signedByte =>
      simp only [read, signedByte, byte_eq, Item.toBytes, UInt8.toUInt8_toInt8]
      rfl
  | word =>
      simp only [read, word_eq, Item.toBytes, Word.low_ofBytes, Word.high_ofBytes]
      rfl
  | bytes count => exact c.toList_bytes count

theorem cursor_read (c : Cursor) (r : Read) : (c.read r).2 = c.skip r.length := by
  cases r <;> rfl

/-- The answer is of the kind and size that were asked for. -/
theorem item_read (c : Cursor) (r : Read) : (c.read r).1.read = r := by
  cases r with
  | byte | signedByte | word => rfl
  | bytes count =>
      have hl : (c.bytes count).1.size = count := by
        rw [← Array.length_toList, toList_bytes, length_stream]
      exact congrArg Read.bytes hl

/-- The bytes that the reads take together. -/
def total : List Read → Nat
  | [] => 0
  | r :: rest => r.length + total rest

theorem toBytes_readAll (c : Cursor) (reads : List Read) :
    (c.readAll reads).1.flatMap Item.toBytes = c.stream (total reads) := by
  induction reads generalizing c with
  | nil => rfl
  | cons r rest ih =>
      simp only [readAll, List.flatMap_cons]
      rw [ih, toBytes_read, cursor_read, total, stream_add]

theorem cursor_readAll (c : Cursor) (reads : List Read) :
    (c.readAll reads).2 = c.skip (total reads) := by
  induction reads generalizing c with
  | nil => rfl
  | cons r rest ih =>
      simp only [readAll]
      rw [ih, cursor_read, skip_skip, total]

theorem items_readAll (c : Cursor) (reads : List Read) :
    (c.readAll reads).1.map Item.read = reads := by
  induction reads generalizing c with
  | nil => rfl
  | cons r rest ih =>
      simp only [readAll, List.map_cons]
      rw [ih, item_read]

theorem toNat_address (c : Cursor) : c.address.toNat = (c.start.toNat + c.consumed) % 0x10000 := by
  rw [address, UInt16.toNat_add, UInt16.toNat_ofNat']
  omega

/-- However a cursor is read, the bytes are those of memory from its start on, and no byte is
skipped or read twice. The count is that of the bytes, the address runs along modulo 65536,
and the limit is reached with the 65535th byte. -/
theorem reads_are_one_byte_stream (memory : Memory) (start : Word) (reads : List Read) :
    let items := ((begin memory start).readAll reads).1
    let c := ((begin memory start).readAll reads).2
    let bytes := items.flatMap Item.toBytes
    items.map Item.read = reads ∧
    bytes = (List.range c.consumed).map (fun i => memory.readByte (start + .ofNat i)) ∧
    c.consumed = bytes.length ∧
    c.address.toNat = (start.toNat + bytes.length) % 0x10000 ∧
    (c.limitReached = true ↔ 0xFFFF ≤ bytes.length) := by
  intro items c bytes
  have hc : c = (begin memory start).skip (total reads) := cursor_readAll _ reads
  have hn : c.consumed = total reads := by
    rw [hc, consumed_skip]
    exact Nat.zero_add _
  have hb : bytes = (begin memory start).stream (total reads) := toBytes_readAll _ reads
  have hl : bytes.length = c.consumed := by rw [hb, length_stream, hn]
  refine ⟨items_readAll _ reads, ?_, hl.symm, ?_, ?_⟩
  · rw [hb, hn, stream_begin]
  · rw [hl, toNat_address, hc]
    rfl
  · rw [hl]
    exact c.limitReached_iff

end Z80.Cursor
