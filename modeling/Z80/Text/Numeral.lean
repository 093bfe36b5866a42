import Z80.Word

/-!
Reads an address as it is typed: decimal, or hexadecimal behind 0x or 0X, with an
optional plus sign in front of the digits. Faults are told apart in reading order.
-/

namespace Z80

inductive NumeralFault where
  | empty
  | invalidDigit
  | tooLarge
  deriving DecidableEq

def NumeralFault.message : NumeralFault → String
  | empty => "cannot parse integer from empty string"
  | invalidDigit => "invalid digit found in string"
  | tooLarge => "number too large to fit in target type"

namespace Numeral

def digit? (base : Nat) (c : Char) : Option Nat :=
  let value :=
    if '0' ≤ c ∧ c ≤ '9' then c.toNat - 48
    else if 'a' ≤ c ∧ c ≤ 'z' then c.toNat - 87
    else if 'A' ≤ c ∧ c ≤ 'Z' then c.toNat - 55
    else base
  if value < base then some value else none

def digits (base n : Nat) : List Char → Except NumeralFault Nat
  | [] => .ok n
  | c :: rest =>
    match digit? base c with
    | none => .error .invalidDigit
    | some d =>
      let n := base * n + d
      if n > 0xFFFF then .error .tooLarge else digits base n rest

def unsigned (base : Nat) : List Char → Except NumeralFault Nat
  | [] => .error .empty
  | ['+'] => .error .invalidDigit
  | '+' :: rest => digits base 0 rest
  | cs => digits base 0 cs

def parse (text : String) : Except NumeralFault Word :=
  UInt16.ofNat <$> match text.toList with
    | '0' :: 'x' :: rest | '0' :: 'X' :: rest => unsigned 16 rest
    | cs => unsigned 10 cs

end Numeral
end Z80
