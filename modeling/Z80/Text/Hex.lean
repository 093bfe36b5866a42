/-!
Hexadecimal numbers in messages: capital digits behind 0x, filled up with zeros
to a least number of digits.
-/

namespace Z80.Hex

/-- At least `width` digits, most significant first. -/
def digits (width n : Nat) : List Char :=
  let ds := (Nat.toDigits 16 n).map Char.toUpper
  List.replicate (width - ds.length) '0' ++ ds

def number (width n : Nat) : String :=
  "0x" ++ String.ofList (digits width n)

/-- An address: four digits, five for the end of the address space. -/
def address (n : Nat) : String :=
  number 4 n

end Z80.Hex
