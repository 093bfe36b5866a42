import Z80.Alu.Arithmetic
import Z80.Proofs.Word

/-!
Sums and differences of words with a carry are exact: the flags say where the exact result
left its range, for unsigned and for signed words. The processor works on bytes, so they are
also what two operations on bytes give, on the low ones and then on the high ones with the
carry between them.
-/

namespace Z80.Alu

/-- The word in two's complement. -/
def signed (w : Word) : Int :=
  w.toInt16.toInt

theorem isNegativeWord_eq (w : Word) : isNegativeWord w = decide (32768 ≤ w.toNat) := rfl

theorem isNegative_high (w : Word) : isNegative (Word.high w) = isNegativeWord w := by
  change decide (128 ≤ (Word.high w).toNat) = decide (32768 ≤ w.toNat)
  rw [Word.toNat_high, decide_eq_decide]
  omega

theorem signed_eq (w : Word) :
    signed w = if isNegativeWord w then (w.toNat : Int) - 65536 else w.toNat := by
  have hw := w.toNat_lt
  have hs : signed w = w.toBitVec.toInt := rfl
  rw [hs, BitVec.toInt_eq_toNat_cond, isNegativeWord_eq]
  change (if 2 * w.toNat < 65536 then (w.toNat : Int) else w.toNat - 65536) = _
  by_cases h : 32768 ≤ w.toNat
  · rw [if_neg (by omega), if_pos (decide_eq_true h)]
  · rw [if_pos (by omega), if_neg (by simpa using h)]

/-- The word and the flags tell an exact result: `full` is that of the unsigned words, `signed`
that of the signed ones, `part` that of their lower twelve bits. -/
structure Tells (r : Word × Flags) (full signed part : Int) : Prop where
  value : (r.1.toNat : Int) = full % 65536
  carry : r.2.carry = true ↔ ¬ (0 ≤ full ∧ full < 65536)
  overflow : r.2.parityOverflow = true ↔ ¬ (-32768 ≤ signed ∧ signed < 32768)
  halfCarry : r.2.halfCarry = true ↔ ¬ (0 ≤ part ∧ part < 4096)
  zero : r.2.zero = true ↔ r.1 = 0

theorem toNat_addWordsWithCarry (f : Flags) (a b : Word) :
    (addWordsWithCarry f a b).1.toNat = (a.toNat + b.toNat + f.carry.toNat) % 65536 :=
  UInt16.toNat_ofNat'

theorem toNat_subtractWordsWithCarry (f : Flags) (a b : Word) :
    (subtractWordsWithCarry f a b).1.toNat =
      (65536 + a.toNat - (b.toNat + f.carry.toNat)) % 65536 := by
  have ha := a.toNat_lt
  have hb := b.toNat_lt
  have hc := f.carry.toNat_le
  simp only [subtractWordsWithCarry, UInt16.toNat_sub, UInt16.toNat_ofNat']
  omega

/-- Signs overflow in a sum where those of the words agree and the result has another one. -/
theorem overflow_of_sum {a b w : Word} {carry : Bool}
    (hw : w.toNat = (a.toNat + b.toNat + carry.toNat) % 65536) :
    (isNegativeWord a == isNegativeWord b && isNegativeWord a != isNegativeWord w) = true ↔
      ¬ (-32768 ≤ signed a + signed b + carry.toNat ∧
        signed a + signed b + carry.toNat < 32768) := by
  have ha := a.toNat_lt
  have hb := b.toNat_lt
  have hc := carry.toNat_le
  simp only [signed_eq, isNegativeWord_eq, hw]
  by_cases hna : 32768 ≤ a.toNat <;> by_cases hnb : 32768 ≤ b.toNat <;>
    simp [hna, hnb] <;> omega

/-- In a difference they do where the signs of the words differ. -/
theorem overflow_of_difference {a b w : Word} {carry : Bool}
    (hw : w.toNat = (65536 + a.toNat - (b.toNat + carry.toNat)) % 65536) :
    (isNegativeWord a != isNegativeWord b && isNegativeWord a != isNegativeWord w) = true ↔
      ¬ (-32768 ≤ signed a - signed b - carry.toNat ∧
        signed a - signed b - carry.toNat < 32768) := by
  have ha := a.toNat_lt
  have hb := b.toNat_lt
  have hc := carry.toNat_le
  simp only [signed_eq, isNegativeWord_eq, hw]
  by_cases hna : 32768 ≤ a.toNat <;> by_cases hnb : 32768 ≤ b.toNat <;>
    simp [hna, hnb] <;> omega

theorem tells_addWordsWithCarry (f : Flags) (a b : Word) :
    Tells (addWordsWithCarry f a b) (a.toNat + b.toNat + f.carry.toNat)
      (signed a + signed b + f.carry.toNat)
      ((a.toNat % 4096 : Nat) + (b.toNat % 4096 : Nat) + f.carry.toNat) where
  value := by
    rw [toNat_addWordsWithCarry]
    omega
  carry := by
    simp only [addWordsWithCarry, decide_eq_true_eq]
    omega
  overflow := overflow_of_sum (toNat_addWordsWithCarry f a b)
  halfCarry := by
    simp only [addWordsWithCarry, decide_eq_true_eq]
    omega
  zero := beq_iff_eq

theorem tells_subtractWordsWithCarry (f : Flags) (a b : Word) :
    Tells (subtractWordsWithCarry f a b) (a.toNat - b.toNat - f.carry.toNat)
      (signed a - signed b - f.carry.toNat)
      ((a.toNat % 4096 : Nat) - (b.toNat % 4096 : Nat) - f.carry.toNat) where
  value := by
    have hb := b.toNat_lt
    have hc := f.carry.toNat_le
    rw [toNat_subtractWordsWithCarry]
    omega
  carry := by
    have ha := a.toNat_lt
    simp only [subtractWordsWithCarry, decide_eq_true_eq]
    omega
  overflow := overflow_of_difference (toNat_subtractWordsWithCarry f a b)
  halfCarry := by
    simp only [subtractWordsWithCarry, decide_eq_true_eq]
    omega
  zero := beq_iff_eq

/-- A carry that is set where a number below twice the range leaves it. -/
theorem toNat_eq_div {carry : Bool} {n range : Nat} (h : carry = true ↔ range ≤ n)
    (hn : n < 2 * range) : carry.toNat = n / range := by
  cases carry with
  | false =>
      have hlt : n < range := Nat.not_le.mp fun hle => Bool.false_ne_true (h.mpr hle)
      exact (Nat.div_eq_of_lt hlt).symm
  | true =>
      have hle : 1 * range ≤ n := (Nat.one_mul range).symm ▸ h.mp rfl
      exact (Nat.div_eq_of_lt_le hle hn).symm

theorem toNat_addBytes (f : Flags) (a b : Byte) (carry : Bool) :
    (addBytes f a b carry).1.toNat = (a.toNat + b.toNat + carry.toNat) % 256 :=
  UInt8.toNat_ofNat'

theorem toNat_carry_addBytes (f : Flags) (a b : Byte) (carry : Bool) :
    (addBytes f a b carry).2.carry.toNat = (a.toNat + b.toNat + carry.toNat) / 256 := by
  have ha := a.toNat_lt
  have hb := b.toNat_lt
  have hc := carry.toNat_le
  exact toNat_eq_div decide_eq_true_iff (by omega)

theorem toNat_subtractBytes (f : Flags) (a b : Byte) (carry : Bool) :
    (subtractBytes f a b carry).1.toNat = (256 + a.toNat - (b.toNat + carry.toNat)) % 256 := by
  have ha := a.toNat_lt
  have hb := b.toNat_lt
  have hc := carry.toNat_le
  simp only [subtractBytes, UInt8.toNat_sub, UInt8.toNat_ofNat']
  omega

theorem toNat_carry_subtractBytes (f : Flags) (a b : Byte) (carry : Bool) :
    (subtractBytes f a b carry).2.carry.toNat =
      (255 + (b.toNat + carry.toNat) - a.toNat) / 256 := by
  have ha := a.toNat_lt
  have hb := b.toNat_lt
  have hc := carry.toNat_le
  refine toNat_eq_div ?_ (by omega)
  simp only [subtractBytes, decide_eq_true_eq]
  omega

/-- An operation on the low bytes of two words and then, with the flags that it leaves, on the
high ones. -/
def onHalves (op : Flags → Byte → Byte → Byte × Flags) (f : Flags) (a b : Word) : Word × Flags :=
  let (low, f) := op f (Word.low a) (Word.low b)
  let (high, f) := op f (Word.high a) (Word.high b)
  (.ofBytes low high, f)

/-- A word shows in the flags what its high byte shows, but for zero. The signs overflow as
those of the high bytes do, whichever of the two rules is in use. -/
theorem withWordResult_eq {f g : Flags} {a b w : Word} {low high : Byte}
    (hw : w = .ofBytes low high) (rule : Bool → Bool → Bool)
    {half half' subtract carry carry' : Bool} (hh : half = half') (hc : carry = carry') :
    (w, { withWordResult f w with
      halfCarry := half
      parityOverflow := rule (isNegativeWord a) (isNegativeWord b) &&
        isNegativeWord a != isNegativeWord w
      subtract := subtract
      carry := carry }) =
    (Word.ofBytes low high, { g.withResult high with
      halfCarry := half'
      parityOverflow := rule (isNegative (Word.high a)) (isNegative (Word.high b)) &&
        isNegative (Word.high a) != isNegative high
      subtract := subtract
      carry := carry'
      zero := w == 0 }) := by
  have hb : Word.high w = high := by rw [hw, Word.high_ofBytes]
  subst hb hh hc
  simp only [withWordResult, Flags.withResult, Flags.withUndocumented, isNegative_high, ← hw]

theorem addWordsWithCarry_eq (f : Flags) (a b : Word) :
    let r := onHalves addWithCarry f a b
    addWordsWithCarry f a b = (r.1, { r.2 with zero := (addWordsWithCarry f a b).2.zero }) := by
  let low := addWithCarry f (Word.low a) (Word.low b)
  let high := addWithCarry low.2 (Word.high a) (Word.high b)
  have hl : low.2.carry.toNat = (a.toNat % 256 + b.toNat % 256 + f.carry.toNat) / 256 := by
    rw [← Word.toNat_low, ← Word.toNat_low]
    exact toNat_carry_addBytes ..
  have hw : (addWordsWithCarry f a b).1 = .ofBytes low.1 high.1 := by
    rw [← UInt16.toNat_inj, Word.toNat_ofBytes, toNat_addWordsWithCarry]
    simp only [high, low, addWithCarry, toNat_addBytes, toNat_carry_addBytes, Word.toNat_low,
      Word.toNat_high]
    omega
  have hh : decide (a.toNat % 4096 + b.toNat % 4096 + f.carry.toNat > 4095) =
      decide ((Word.high a).toNat % 16 + (Word.high b).toNat % 16 + low.2.carry.toNat > 15) := by
    rw [hl, Word.toNat_high, Word.toNat_high, decide_eq_decide]
    omega
  have hc : decide (a.toNat + b.toNat + f.carry.toNat > 65535) =
      decide ((Word.high a).toNat + (Word.high b).toNat + low.2.carry.toNat > 255) := by
    rw [hl, Word.toNat_high, Word.toNat_high, decide_eq_decide]
    omega
  exact withWordResult_eq (g := low.2) hw (· == ·) hh hc

theorem subtractWordsWithCarry_eq (f : Flags) (a b : Word) :
    let r := onHalves subtractWithCarry f a b
    subtractWordsWithCarry f a b =
      (r.1, { r.2 with zero := (subtractWordsWithCarry f a b).2.zero }) := by
  let low := subtractWithCarry f (Word.low a) (Word.low b)
  let high := subtractWithCarry low.2 (Word.high a) (Word.high b)
  have hl : low.2.carry.toNat =
      (255 + (b.toNat % 256 + f.carry.toNat) - a.toNat % 256) / 256 := by
    rw [← Word.toNat_low, ← Word.toNat_low]
    exact toNat_carry_subtractBytes ..
  have hw : (subtractWordsWithCarry f a b).1 = .ofBytes low.1 high.1 := by
    have ha := a.toNat_lt
    have hb := b.toNat_lt
    have hc := f.carry.toNat_le
    rw [← UInt16.toNat_inj, Word.toNat_ofBytes, toNat_subtractWordsWithCarry]
    simp only [high, low, subtractWithCarry, toNat_subtractBytes, toNat_carry_subtractBytes,
      Word.toNat_low, Word.toNat_high]
    omega
  have hh : decide (a.toNat % 4096 < b.toNat % 4096 + f.carry.toNat) =
      decide ((Word.high a).toNat % 16 < (Word.high b).toNat % 16 + low.2.carry.toNat) := by
    rw [hl, Word.toNat_high, Word.toNat_high, decide_eq_decide]
    have hc := f.carry.toNat_le
    omega
  have hc : decide (a.toNat < b.toNat + f.carry.toNat) =
      decide ((Word.high a).toNat < (Word.high b).toNat + low.2.carry.toNat) := by
    rw [hl, Word.toNat_high, Word.toNat_high, decide_eq_decide]
    have hc := f.carry.toNat_le
    omega
  exact withWordResult_eq (g := low.2) hw (· != ·) hh hc

/-- Without a carry the sum is that of a clear carry, and sign, zero and parity stay. -/
theorem addWords_eq (f : Flags) (a b : Word) :
    let r := addWordsWithCarry { f with carry := false } a b
    addWords f a b =
      (r.1, { r.2 with
        sign := f.sign, zero := f.zero, parityOverflow := f.parityOverflow }) := rfl

/-- Word arithmetic is exact for all words and all incoming flags, and it is byte arithmetic
done twice. -/
theorem word_arithmetic_is_exact (f : Flags) (a b : Word) :
    let carry : Int := f.carry.toNat
    let sum := addWordsWithCarry f a b
    let difference := subtractWordsWithCarry f a b
    let halves := onHalves addWithCarry f a b
    let differences := onHalves subtractWithCarry f a b
    let plain := addWordsWithCarry { f with carry := false } a b
    (Tells sum (a.toNat + b.toNat + carry) (signed a + signed b + carry)
        ((a.toNat % 4096 : Nat) + (b.toNat % 4096 : Nat) + carry) ∧
      sum.2.subtract = false ∧
      sum = (halves.1, { halves.2 with zero := sum.2.zero })) ∧
    (Tells difference (a.toNat - b.toNat - carry) (signed a - signed b - carry)
        ((a.toNat % 4096 : Nat) - (b.toNat % 4096 : Nat) - carry) ∧
      difference.2.subtract = true ∧
      difference = (differences.1, { differences.2 with zero := difference.2.zero })) ∧
    addWords f a b =
      (plain.1, { plain.2 with
        sign := f.sign, zero := f.zero, parityOverflow := f.parityOverflow }) :=
  ⟨⟨tells_addWordsWithCarry f a b, rfl, addWordsWithCarry_eq f a b⟩,
    ⟨tells_subtractWordsWithCarry f a b, rfl, subtractWordsWithCarry_eq f a b⟩,
    addWords_eq f a b⟩

end Z80.Alu
