import Z80.Alu.Decimal
import Z80.Mode
import Z80.Proofs.Alu.Words

/-!
Decimal arithmetic on numbers of any length. A byte holds two decimal digits; the processor adds
or subtracts it as a binary number and then adjusts it. Where the digits carry, in decimal, is
where the adjustment corrects them, and the carry that it leaves is the one of the two digits
together. So byte after byte a number comes out right, and its last carry tells whether it left
the range of that many digits.
-/

namespace Z80.Alu

/-- Both halves of the byte are decimal digits. -/
def IsDecimal (b : Byte) : Prop :=
  b.toNat / 16 ≤ 9 ∧ b.toNat % 16 ≤ 9

def decimalValue (b : Byte) : Nat :=
  10 * (b.toNat / 16) + b.toNat % 16

/-- The least significant byte comes first. -/
def decimalNumber : List Byte → Nat
  | [] => 0
  | b :: rest => decimalValue b + 100 * decimalNumber rest

/-- The numbers of so many bytes lie below it. -/
def decimalRange (bytes : Nat) : Nat :=
  Nat.pow 100 bytes

theorem decimalRange_succ (bytes : Nat) : decimalRange (bytes + 1) = decimalRange bytes * 100 :=
  rfl

def adjust : Mode → Flags → Byte → Byte × Flags
  | .z80 => decimalAdjust
  | .gameBoy => decimalAdjustGameBoy

/-- The operation with its result adjusted. -/
def adjusted (mode : Mode) (op : Flags → Byte → Byte → Byte × Flags) (f : Flags) (a b : Byte) :
    Byte × Flags :=
  let (result, f) := op f a b
  adjust mode f result

/-- The operation on the bytes of two numbers in order, each with the flags that the one
before it left. -/
def overBytes (op : Flags → Byte → Byte → Byte × Flags) :
    Flags → List Byte → List Byte → List Byte × Flags
  | f, a :: as, b :: bs =>
    let (result, f) := op f a b
    let (results, f) := overBytes op f as bs
    (result :: results, f)
  | f, _, _ => ([], f)

/-- Two decimal digits in one byte. -/
def packed (v : Nat) : Nat :=
  v + 6 * (v / 10)

theorem IsDecimal.toNat_eq {b : Byte} (h : IsDecimal b) :
    decimalValue b < 100 ∧ b.toNat = packed (decimalValue b) := by
  simp only [IsDecimal, decimalValue, packed] at *
  omega

theorem isDecimal_of_toNat {b : Byte} {v : Nat} (hv : v < 100) (h : b.toNat = packed v) :
    IsDecimal b ∧ decimalValue b = v := by
  simp only [IsDecimal, decimalValue, packed, h] at *
  omega

/-- A binary sum, corrected where the digits carry. -/
theorem packed_sum (x y c : Nat) :
    ((packed x + packed y + c) % 256 +
      (6 * ((x % 10 + y % 10 + c) / 10) + 96 * ((x + y + c) / 100))) % 256 =
        packed ((x + y + c) % 100) := by
  simp only [packed]
  omega

/-- The binary sum tells where the decimal one carries. -/
theorem hundred_le_sum (x y : Nat) {c : Nat} (hc : c ≤ 1) :
    100 ≤ x + y + c ↔ 0x99 < packed x + packed y + c := by
  simp only [packed]
  -- With nines in the high digits there is no room for a carry from the low ones.
  rcases Nat.lt_or_ge (x / 10 + y / 10) 9 with high | high <;> omega

/-- A binary difference, corrected where the digits borrow. -/
theorem packed_difference {x y c : Nat} (hx : x < 100) (hy : y < 100) (hc : c ≤ 1) :
    (256 - (6 * ((9 + (y % 10 + c) - x % 10) / 10) + 96 * ((99 + (y + c) - x) / 100)) +
      (256 + packed x - (packed y + c)) % 256) % 256 =
        packed ((100 + x - (y + c)) % 100) := by
  simp only [packed]
  omega

/-- What is added to the digits, or taken from them. -/
def correction (low high : Bool) : Byte :=
  (if low then 0x06 else 0) + (if high then 0x60 else 0)

theorem toNat_correction (low high : Bool) :
    (correction low high).toNat = 6 * low.toNat + 96 * high.toNat := by
  cases low <;> cases high <;> rfl

/-- After an addition the two processors correct alike. -/
theorem adjust_of_addition (mode : Mode) {f : Flags} (hf : f.subtract = false) (a : Byte) :
    let low := f.halfCarry || decide (9 < a.toNat % 16)
    let high := f.carry || decide (0x99 < a.toNat)
    (adjust mode f a).1 = a + correction low high ∧ (adjust mode f a).2.carry = high := by
  cases mode <;> simp [adjust, decimalAdjust, decimalAdjustGameBoy, correction, hf]

/-- After a subtraction they do where the digits tell no more than the flags. -/
theorem adjust_of_subtraction (mode : Mode) {f : Flags} (hf : f.subtract = true) {a : Byte}
    (hl : 9 < a.toNat % 16 → f.halfCarry = true) (hh : 0x99 < a.toNat → f.carry = true) :
    (adjust mode f a).1 = a - correction f.halfCarry f.carry ∧
      (adjust mode f a).2.carry = f.carry := by
  have hl' : (f.halfCarry || decide (9 < a.toNat % 16)) = f.halfCarry := by simpa using hl
  have hh' : (f.carry || decide (0x99 < a.toNat)) = f.carry := by simpa using hh
  cases mode with
  | z80 =>
      simp only [adjust, decimalAdjust, correction, hf, gt_iff_lt, hl', hh', if_true, and_self]
  | gameBoy => simp [adjust, decimalAdjustGameBoy, correction, hf]

/-- The digits of a sum carry where the flags and the byte tell the adjustment to correct. -/
theorem adjusted_addWithCarry (mode : Mode) (f : Flags) {a b : Byte} (ha : IsDecimal a)
    (hb : IsDecimal b) :
    let r := adjusted mode addWithCarry f a b
    IsDecimal r.1 ∧ decimalValue r.1 + 100 * r.2.carry.toNat =
      decimalValue a + decimalValue b + f.carry.toNat := by
  obtain ⟨hx, ha⟩ := ha.toNat_eq
  obtain ⟨hy, hb⟩ := hb.toNat_eq
  generalize decimalValue a = x at *
  generalize decimalValue b = y at *
  have hc := f.carry.toNat_le
  let sum := addWithCarry f a b
  have hs : sum.1.toNat = (packed x + packed y + f.carry.toNat) % 256 := by
    rw [← ha, ← hb]
    exact toNat_addBytes ..
  have half : sum.2.halfCarry = decide (15 < packed x % 16 + packed y % 16 + f.carry.toNat) := by
    rw [← ha, ← hb]
    rfl
  have full : sum.2.carry = decide (255 < packed x + packed y + f.carry.toNat) := by
    rw [← ha, ← hb]
    rfl
  have hlow : (sum.2.halfCarry || decide (9 < sum.1.toNat % 16)).toNat =
      (x % 10 + y % 10 + f.carry.toNat) / 10 := by
    refine toNat_eq_div ?_ (by omega)
    rw [hs, half, ← Bool.decide_or, decide_eq_true_iff]
    simp only [packed]
    omega
  have hhigh : (sum.2.carry || decide (0x99 < sum.1.toNat)).toNat =
      (x + y + f.carry.toNat) / 100 := by
    refine toNat_eq_div ?_ (by omega)
    rw [hs, full, ← Bool.decide_or, decide_eq_true_iff]
    have := hundred_le_sum x y hc
    omega
  obtain ⟨hr, hk⟩ := adjust_of_addition mode (f := sum.2) rfl sum.1
  have hn := congrArg UInt8.toNat hr
  rw [UInt8.toNat_add, toNat_correction, hlow, hhigh, hs, packed_sum] at hn
  obtain ⟨hd, hv⟩ := isDecimal_of_toNat (Nat.mod_lt _ (by decide)) hn
  refine ⟨hd, ?_⟩
  calc decimalValue _ + 100 * (adjust mode sum.2 sum.1).2.carry.toNat
    _ = (x + y + f.carry.toNat) % 100 + 100 * ((x + y + f.carry.toNat) / 100) := by
      rw [hk, hhigh]
      exact congrArg (· + _) hv
    _ = x + y + f.carry.toNat := Nat.mod_add_div ..

/-- Those of a difference borrow where the flags alone tell it to. -/
theorem adjusted_subtractWithCarry (mode : Mode) (f : Flags) {a b : Byte} (ha : IsDecimal a)
    (hb : IsDecimal b) :
    let r := adjusted mode subtractWithCarry f a b
    IsDecimal r.1 ∧ decimalValue r.1 + decimalValue b + f.carry.toNat =
      decimalValue a + 100 * r.2.carry.toNat := by
  obtain ⟨hx, ha⟩ := ha.toNat_eq
  obtain ⟨hy, hb⟩ := hb.toNat_eq
  generalize decimalValue a = x at *
  generalize decimalValue b = y at *
  have hc := f.carry.toNat_le
  let difference := subtractWithCarry f a b
  have hs : difference.1.toNat = (256 + packed x - (packed y + f.carry.toNat)) % 256 := by
    rw [← ha, ← hb]
    exact toNat_subtractBytes ..
  have half : difference.2.halfCarry =
      decide (packed x % 16 < packed y % 16 + f.carry.toNat) := by
    rw [← ha, ← hb]
    rfl
  have full : difference.2.carry = decide (packed x < packed y + f.carry.toNat) := by
    rw [← ha, ← hb]
    rfl
  have hlow : difference.2.halfCarry.toNat = (9 + (y % 10 + f.carry.toNat) - x % 10) / 10 := by
    refine toNat_eq_div ?_ (by omega)
    rw [half, decide_eq_true_iff]
    simp only [packed]
    omega
  have hhigh : difference.2.carry.toNat = (99 + (y + f.carry.toNat) - x) / 100 := by
    refine toNat_eq_div ?_ (by omega)
    rw [full, decide_eq_true_iff]
    simp only [packed]
    omega
  obtain ⟨hr, hk⟩ := adjust_of_subtraction mode (f := difference.2) rfl (a := difference.1)
    (by
      rw [hs, half, decide_eq_true_iff]
      simp only [packed]
      omega)
    (by
      rw [hs, full, decide_eq_true_iff]
      simp only [packed]
      omega)
  have hn := congrArg UInt8.toNat hr
  rw [UInt8.toNat_sub, toNat_correction, hlow, hhigh, hs, packed_difference hx hy hc] at hn
  obtain ⟨hd, hv⟩ := isDecimal_of_toNat (Nat.mod_lt _ (by decide)) hn
  refine ⟨hd, ?_⟩
  calc decimalValue _ + y + f.carry.toNat
    _ = (100 + x - (y + f.carry.toNat)) % 100 + y + f.carry.toNat :=
      congrArg (· + y + f.carry.toNat) hv
    _ = x + 100 * ((99 + (y + f.carry.toNat) - x) / 100) := by omega
    _ = x + 100 * (adjust mode difference.2 difference.1).2.carry.toNat := by rw [hk, hhigh]

theorem decimalNumber_lt {xs : List Byte} (h : ∀ b ∈ xs, IsDecimal b) :
    decimalNumber xs < decimalRange xs.length := by
  induction xs with
  | nil => decide
  | cons b rest ih =>
      rw [List.forall_mem_cons] at h
      have hb := h.1.toNat_eq.1
      have hr := ih h.2
      rw [decimalNumber, List.length_cons, decimalRange_succ]
      omega

/-- What an operation does to two digits it does to numbers of any length, the carry of each
byte going into the next one. The sign is that of the second number. -/
theorem overBytes_of_step (op : Flags → Byte → Byte → Byte × Flags) (sign : Int)
    (hop : ∀ f a b, IsDecimal a → IsDecimal b → IsDecimal (op f a b).1 ∧
      decimalValue (op f a b).1 + sign * (100 * (op f a b).2.carry.toNat) =
        decimalValue a + sign * (decimalValue b + f.carry.toNat))
    (f : Flags) {xs ys : List Byte} (hl : xs.length = ys.length) (hx : ∀ b ∈ xs, IsDecimal b)
    (hy : ∀ b ∈ ys, IsDecimal b) :
    let r := overBytes op f xs ys
    r.1.length = xs.length ∧ (∀ b ∈ r.1, IsDecimal b) ∧
      decimalNumber r.1 + sign * (decimalRange xs.length * r.2.carry.toNat) =
        decimalNumber xs + sign * (decimalNumber ys + f.carry.toNat) := by
  induction xs generalizing f ys with
  | nil =>
      obtain rfl := List.length_eq_zero_iff.mp hl.symm
      refine ⟨rfl, hx, ?_⟩
      simp [overBytes, decimalNumber, decimalRange]
  | cons a xs ih =>
      cases ys with
      | nil => cases hl
      | cons b ys =>
          rw [List.forall_mem_cons] at hx hy
          obtain ⟨hd, hv⟩ := hop f a b hx.1 hy.1
          obtain ⟨hn, hds, hvs⟩ := ih (op f a b).2 (Nat.succ.inj hl) hx.2 hy.2
          refine ⟨congrArg Nat.succ hn, List.forall_mem_cons.mpr ⟨hd, hds⟩, ?_⟩
          simp only [overBytes, decimalNumber, List.length_cons, decimalRange_succ]
          push_cast
          grind

/-- A carry out of a range leaves the remainder. -/
theorem mod_of_carry {t r range : Nat} {carry : Bool} (hr : r < range)
    (h : r + range * carry.toNat = t) : r = t % range ∧ (carry = true ↔ range ≤ t) := by
  subst h
  cases carry with
  | false => simp [Nat.mod_eq_of_lt hr, hr]
  | true => simp [Nat.mod_eq_of_lt hr]

/-- So does a borrow. -/
theorem emod_of_borrow {x t r range : Nat} {borrow : Bool} (hr : r < range)
    (h : r + t = x + range * borrow.toNat) :
    (r : Int) = (x - t) % range ∧ (borrow = true ↔ x < t) := by
  cases borrow with
  | false =>
      rw [Bool.toNat_false, Nat.mul_zero] at h
      rw [show (x : Int) - t = r by omega, Int.emod_eq_of_lt (by omega) (by omega)]
      exact ⟨rfl, by simp; omega⟩
  | true =>
      rw [Bool.toNat_true, Nat.mul_one] at h
      rw [show (x : Int) - t = r - range by omega, Int.sub_emod_right,
        Int.emod_eq_of_lt (by omega) (by omega)]
      exact ⟨rfl, by simp; omega⟩

/-- Numbers of any length are added and subtracted exactly, on both processors: the digits are
those of the sum or difference with the carry, in the range of that many digits, and the last
carry is set where it left the range. -/
theorem decimal_arithmetic_is_exact (mode : Mode) (f : Flags) (xs ys : List Byte)
    (hl : xs.length = ys.length) (hx : ∀ b ∈ xs, IsDecimal b) (hy : ∀ b ∈ ys, IsDecimal b) :
    let x := decimalNumber xs
    let y := decimalNumber ys
    let carry := f.carry.toNat
    let range := decimalRange xs.length
    let sum := overBytes (adjusted mode addWithCarry) f xs ys
    let difference := overBytes (adjusted mode subtractWithCarry) f xs ys
    (sum.1.length = xs.length ∧ (∀ b ∈ sum.1, IsDecimal b) ∧
      decimalNumber sum.1 = (x + y + carry) % range ∧
      (sum.2.carry = true ↔ range ≤ x + y + carry)) ∧
    difference.1.length = xs.length ∧ (∀ b ∈ difference.1, IsDecimal b) ∧
      (decimalNumber difference.1 : Int) = (x - (y + carry : Nat)) % (range : Nat) ∧
      (difference.2.carry = true ↔ x < y + carry) := by
  intro x y carry range sum difference
  obtain ⟨hsl, hsd, hs⟩ := overBytes_of_step (adjusted mode addWithCarry) 1
    (fun f a b ha hb => (adjusted_addWithCarry mode f ha hb).imp_right fun h => by omega) f hl hx hy
  obtain ⟨hdl, hdd, hd⟩ := overBytes_of_step (adjusted mode subtractWithCarry) (-1)
    (fun f a b ha hb => (adjusted_subtractWithCarry mode f ha hb).imp_right fun h => by omega)
    f hl hx hy
  have hsum : decimalNumber sum.1 + range * sum.2.carry.toNat = x + y + carry := by
    change (_ : Int) + 1 * (range * sum.2.carry.toNat) = x + 1 * (y + carry) at hs
    rw [Int.one_mul, Int.one_mul, ← Int.add_assoc] at hs
    exact_mod_cast hs
  have hdifference : decimalNumber difference.1 + (y + carry) =
      x + range * difference.2.carry.toNat := by
    change (decimalNumber difference.1 : Int) + -1 * (range * difference.2.carry.toNat) =
      x + -1 * (y + carry) at hd
    have hd : (decimalNumber difference.1 : Int) + (y + carry) =
        x + range * difference.2.carry.toNat := by omega
    exact_mod_cast hd
  have hsr : decimalNumber sum.1 < range :=
    Nat.lt_of_lt_of_eq (decimalNumber_lt hsd) (congrArg decimalRange hsl)
  have hdr : decimalNumber difference.1 < range :=
    Nat.lt_of_lt_of_eq (decimalNumber_lt hdd) (congrArg decimalRange hdl)
  exact ⟨⟨hsl, hsd, mod_of_carry hsr hsum⟩, hdl, hdd, emod_of_borrow hdr hdifference⟩

/-- On the Game Boy, 9599 and 499 with a carry that comes in: their sum leaves the range of four
digits, their difference does not. -/
theorem decimal_arithmetic_of_four_digits :
    let xs : List Byte := [0x99, 0x95]
    let ys : List Byte := [0x99, 0x04]
    let f := { Flags.clear with carry := true }
    let sum := overBytes (adjusted .gameBoy addWithCarry) f xs ys
    let difference := overBytes (adjusted .gameBoy subtractWithCarry) f xs ys
    xs.length = ys.length ∧ (∀ b ∈ xs, IsDecimal b) ∧ (∀ b ∈ ys, IsDecimal b) ∧
      decimalNumber sum.1 = 99 ∧ sum.2.carry = true ∧
      decimalNumber difference.1 = 9099 ∧ difference.2.carry = false := by
  intro xs ys f sum difference
  have hx : ∀ b ∈ xs, IsDecimal b := by simp [xs, IsDecimal]
  have hy : ∀ b ∈ ys, IsDecimal b := by simp [ys, IsDecimal]
  have hxv : decimalNumber xs = 9599 := rfl
  have hyv : decimalNumber ys = 499 := rfl
  obtain ⟨⟨-, -, hs, hc⟩, -, -, hd, hb⟩ :=
    decimal_arithmetic_is_exact .gameBoy f xs ys rfl hx hy
  rw [hxv, hyv] at hs hc hd hb
  refine ⟨rfl, hx, hy, hs.trans (by decide), hc.mpr (by decide), ?_, ?_⟩
  · exact Int.ofNat.inj hd
  · exact Bool.eq_false_iff.mpr fun h => absurd (hb.mp h) (by decide)

end Z80.Alu
