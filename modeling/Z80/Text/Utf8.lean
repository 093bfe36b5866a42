import Z80.Word

/-!
Text from bytes that may not be text. Where they are no UTF-8, each longest piece
that could still begin a character, or else a single byte, becomes one replacement
character.
-/

namespace Z80.Utf8

/-- What a first byte announces: how many bytes follow it, the range of the first
of them, and its own bits of the character. -/
def lead? (b : Byte) : Option (Nat × Byte × Byte × Nat) :=
  if b < 0x80 then some (0, 0x80, 0xBF, b.toNat)
  else if b < 0xC2 then none
  else if b < 0xE0 then some (1, 0x80, 0xBF, b.toNat % 32)
  else if b = 0xE0 then some (2, 0xA0, 0xBF, 0)
  else if b = 0xED then some (2, 0x80, 0x9F, 13)
  else if b < 0xF0 then some (2, 0x80, 0xBF, b.toNat % 16)
  else if b = 0xF0 then some (3, 0x90, 0xBF, 0)
  else if b < 0xF4 then some (3, 0x80, 0xBF, b.toNat % 8)
  else if b = 0xF4 then some (3, 0x80, 0x8F, 4)
  else none

/-- Reads the bytes that have to follow; the first one that does not fit is left. -/
def follow (low high : Byte) (code : Nat) : Nat → List Byte → Option Nat × List Byte
  | 0, rest => (some code, rest)
  | _ + 1, [] => (none, [])
  | n + 1, b :: rest =>
    if low ≤ b ∧ b ≤ high then follow 0x80 0xBF (64 * code + b.toNat % 64) n rest
    else (none, b :: rest)

theorem length_follow_le (low high : Byte) (code n : Nat) (bytes : List Byte) :
    (follow low high code n bytes).2.length ≤ bytes.length := by
  fun_induction follow low high code n bytes with
  | case1 | case2 | case4 => simp
  | case3 => simp only [List.length_cons]; omega

def next (b : Byte) (rest : List Byte) : Char × List Byte :=
  match lead? b with
  | none => ('\ufffd', rest)
  | some (count, low, high, code) =>
    match follow low high code count rest with
    | (some code, rest) => (.ofNat code, rest)
    | (none, rest) => ('\ufffd', rest)

theorem length_next_le (b : Byte) (rest : List Byte) : (next b rest).2.length ≤ rest.length := by
  unfold next
  split
  · exact Nat.le_refl _
  · rename_i count low high code _
    have := length_follow_le low high code count rest
    split <;> simp_all

def decodeOnto (text : String) : List Byte → String
  | [] => text
  | b :: rest => decodeOnto (text.push (next b rest).1) (next b rest).2
termination_by bytes => bytes.length
decreasing_by
  have := length_next_le b rest
  simp only [List.length_cons]
  omega

def decode (bytes : List Byte) : String :=
  decodeOnto "" bytes

end Z80.Utf8
