import Z80.Word

/-!
A segment owns a range of addresses and says whether it can be read and written.
Behind it is plain storage, a latch or the input/output page of the Game Boy with
its serial port. Offsets count from the segment's base and are words, so an access
that goes on byte by byte wraps where words do; plain storage moves a range of
bytes in one piece. A segment inside the address space never reaches that far.
-/

namespace Z80

inductive Capability where
  | readOnly
  | writeOnly
  | readWrite
  deriving DecidableEq

namespace Capability

def canRead : Capability → Bool
  | writeOnly => false
  | _ => true

def canWrite : Capability → Bool
  | readOnly => false
  | _ => true

end Capability

/-- A page of 256 registers, of which number 1 holds the serial byte and number 2
controls the transfer. All others are plain storage. -/
structure SerialPort where
  registers : Vector Byte 0x100
  output : Array Byte

namespace SerialPort

def new : SerialPort := ⟨.replicate _ 0, #[]⟩

def read (p : SerialPort) (offset : Word) : Byte :=
  p.registers[offset.toNat]?.getD 0xFF

/-- A transfer on the internal clock completes at once: the byte is sent, the data
register reads as if nothing was connected, and the start bit clears itself. -/
def write (p : SerialPort) (offset : Word) (value : Byte) : SerialPort :=
  if offset = 2 ∧ value &&& 0x81 = 0x81 then
    { registers := (p.registers.setIfInBounds 1 0xFF).setIfInBounds 2 (value &&& 0x7F)
      output := p.output.push p.registers[1] }
  else
    { p with registers := p.registers.setIfInBounds offset.toNat value }

end SerialPort

inductive Storage where
  | plain (contents : Array Byte)
  /-- Keeps what is written to it and reads as open bus. -/
  | latch (contents : Array Byte)
  | serial (port : SerialPort)

/-- Replaces the bytes from an index on as far as there are any. -/
def overwrite (contents : Array Byte) (index : Nat) : List Byte → Array Byte
  | [] => contents
  | value :: rest => overwrite (contents.setIfInBounds index value) (index + 1) rest

@[simp] theorem size_overwrite (contents : Array Byte) (index : Nat) (values : List Byte) :
    (overwrite contents index values).size = contents.size := by
  induction values generalizing contents index with
  | nil => rfl
  | cons value rest ih => rw [overwrite, ih, Array.size_setIfInBounds]

namespace Storage

/-- Zeros, with the given contents at the front as far as they fit. -/
def zeroed (length : Nat) (contents : Array Byte) : Storage :=
  .plain (contents.take length ++ .replicate (length - contents.size) 0)

/-- An image padded with 0xFF, as erased memory reads. -/
def erased (length : Nat) (image : Array Byte) : Storage :=
  .plain (image.take length ++ .replicate (length - image.size) 0xFF)

/-- Everything that is stored, whether or not it can be read. -/
def contents : Storage → Array Byte
  | plain contents | latch contents => contents
  | serial port => port.registers.toArray

def size : Storage → Nat
  | plain contents | latch contents => contents.size
  | serial _ => 0x100

def readByte : Storage → Word → Byte
  | plain contents, offset => contents[offset.toNat]?.getD 0xFF
  | latch _, _ => 0xFF
  | serial port, offset => port.read offset

def readWord (s : Storage) (offset : Word) : Word :=
  .ofBytes (s.readByte offset) (s.readByte (offset + 1))

def readBytes (s : Storage) (offset : Word) (count : Nat) : Array Byte :=
  match s with
  | plain contents => contents.extract offset.toNat (offset.toNat + count)
  | s => .ofFn fun i : Fin count => s.readByte (offset + .ofNat i)

def writeByte : Storage → Word → Byte → Storage
  | plain contents, offset, value => .plain (contents.setIfInBounds offset.toNat value)
  | latch contents, offset, value => .latch (contents.setIfInBounds offset.toNat value)
  | serial port, offset, value => .serial (port.write offset value)

def writeWord (s : Storage) (offset : Word) (value : Word) : Storage :=
  (s.writeByte offset (Word.low value)).writeByte (offset + 1) (Word.high value)

def writeEach (s : Storage) (offset : Word) : List Byte → Storage
  | [] => s
  | value :: rest => (s.writeByte offset value).writeEach (offset + 1) rest

def writeBytes (s : Storage) (offset : Word) (values : List Byte) : Storage :=
  match s with
  | plain contents => .plain (overwrite contents offset.toNat values)
  | s => s.writeEach offset values

@[simp] theorem size_writeByte (s : Storage) (offset : Word) (value : Byte) :
    (s.writeByte offset value).size = s.size := by
  cases s <;> simp [writeByte, size]

@[simp] theorem size_writeWord (s : Storage) (offset : Word) (value : Word) :
    (s.writeWord offset value).size = s.size := by
  simp [writeWord]

@[simp] theorem size_writeEach (s : Storage) (offset : Word) (values : List Byte) :
    (s.writeEach offset values).size = s.size := by
  induction values generalizing s offset with
  | nil => rfl
  | cons value rest ih => rw [writeEach, ih, size_writeByte]

@[simp] theorem size_writeBytes (s : Storage) (offset : Word) (values : List Byte) :
    (s.writeBytes offset values).size = s.size := by
  cases s with
  | plain contents => exact size_overwrite contents offset.toNat values
  | latch _ | serial _ => exact size_writeEach _ offset values

/-- The bytes that the serial port sent; other storage sends none. -/
def output? : Storage → Option (Array Byte)
  | plain _ | latch _ => none
  | serial port => some port.output

end Storage

structure Segment where
  base : Word
  capability : Capability
  storage : Storage

namespace Segment

def ram (base : Word) (length : Nat) (contents : Array Byte) : Segment :=
  ⟨base, .readWrite, .zeroed length contents⟩

def rom (base : Word) (length : Nat) (image : Array Byte) : Segment :=
  ⟨base, .readOnly, .erased length image⟩

def latch (base : Word) (length : Nat) : Segment :=
  ⟨base, .writeOnly, .latch (.replicate length 0)⟩

/-- The page 0xFF00 of the Game Boy. -/
def serial : Segment :=
  ⟨0xFF00, .readWrite, .serial .new⟩

def length (s : Segment) : Nat := s.storage.size

/-- One past the last address, so that the last segment may stop at 0x10000. -/
def stop (s : Segment) : Nat := s.base.toNat + s.length

def covers (s : Segment) (address : Word) : Bool :=
  s.base ≤ address && address.toNat < s.stop

def offset (s : Segment) (address : Word) : Word :=
  address - s.base

def available (s : Segment) (address : Word) : Nat :=
  s.stop - address.toNat

/-- Memory that cannot be read gives 0xFF. -/
def readByte (s : Segment) (address : Word) : Byte :=
  if s.capability.canRead then s.storage.readByte (s.offset address) else 0xFF

def readWord (s : Segment) (address : Word) : Word :=
  if s.capability.canRead then s.storage.readWord (s.offset address) else 0xFFFF

def readBytes (s : Segment) (address : Word) (count : Nat) : Array Byte :=
  if s.capability.canRead then s.storage.readBytes (s.offset address) count
  else .replicate count 0xFF

/-- A write to memory that cannot be written is ignored. -/
def write (s : Segment) (f : Storage → Storage) : Segment :=
  match s with
  | ⟨base, capability, storage⟩ =>
    ⟨base, capability, if capability.canWrite then f storage else storage⟩

def writeByte (s : Segment) (address : Word) (value : Byte) : Segment :=
  let offset := s.offset address
  s.write (·.writeByte offset value)

def writeWord (s : Segment) (address : Word) (value : Word) : Segment :=
  let offset := s.offset address
  s.write (·.writeWord offset value)

def writeBytes (s : Segment) (address : Word) (values : List Byte) : Segment :=
  let offset := s.offset address
  s.write (·.writeBytes offset values)

theorem base_write (s : Segment) (f : Storage → Storage) : (s.write f).base = s.base := rfl

theorem length_write (s : Segment) (f : Storage → Storage) (h : ∀ t, (f t).size = t.size) :
    (s.write f).length = s.length := by
  simp only [write, length]
  split
  · exact h _
  · rfl

end Segment
end Z80
