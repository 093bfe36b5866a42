/-!
Decimal text of a float with a fixed number of places: the exact binary value,
rounded to the nearest such decimal, a tie going to the even digit.
-/

namespace Z80.Fixed

/-- The nearest whole number to a quotient; of two equally near ones the even one. -/
def roundDiv (num den : Nat) : Nat :=
  let quotient := num / den
  let rest := 2 * (num % den)
  if rest > den ∨ rest = den ∧ quotient % 2 = 1 then quotient + 1 else quotient

/-- The units of the last place in `mantissa * 2 ^ (exponent - 1075)`. -/
def units (places mantissa exponent : Nat) : Nat :=
  let scaled := mantissa * Nat.pow 10 places
  if exponent ≥ 1075 then scaled <<< (exponent - 1075)
  else roundDiv scaled (1 <<< (1075 - exponent))

def render (places n : Nat) : String :=
  let fraction := (Nat.toDigits 10 (n % Nat.pow 10 places))
  let zeros := List.replicate (places - fraction.length) '0'
  s!"{n / Nat.pow 10 places}." ++ String.ofList (zeros ++ fraction)

/-- The text of a float that is neither negative nor infinite. -/
def ofFloat (places : Nat) (x : Float) : String :=
  let bits := x.toBits.toNat
  let exponent := (bits >>> 52) % 2048
  let fraction := bits % 0x10000000000000
  render places
    (if exponent = 0 then units places fraction 1
    else units places (0x10000000000000 + fraction) exponent)

end Z80.Fixed
