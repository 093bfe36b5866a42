import Z80.Word

/-!
A word is its two bytes. The halves and the word that they make are numbers, so that what is
done to a word byte by byte can be computed.
-/

namespace Z80.Word

theorem toNat_ofBytes (low high : Byte) :
    (Word.ofBytes low high).toNat = low.toNat + 256 * high.toNat := by
  have hl := low.toNat_lt
  have hh := high.toNat_lt
  simp only [Word.ofBytes, UInt16.toNat_or, UInt16.toNat_shiftLeft, UInt8.toNat_toUInt16]
  have hs : (high.toNat <<< ((8 : UInt16).toNat % 16)) % 2 ^ 16 = high.toNat <<< 8 := by
    rw [Nat.shiftLeft_eq]
    change high.toNat * 2 ^ 8 % 2 ^ 16 = _
    rw [Nat.shiftLeft_eq]
    omega
  rw [hs, ← Nat.shiftLeft_add_eq_or_of_lt hl, Nat.shiftLeft_eq]
  omega

theorem toNat_low (w : Word) : (low w).toNat = w.toNat % 256 :=
  UInt16.toNat_toUInt8 w

theorem toNat_high (w : Word) : (high w).toNat = w.toNat / 256 := by
  have hw := w.toNat_lt
  rw [high, UInt16.toNat_toUInt8, UInt16.toNat_shiftRight]
  change w.toNat >>> 8 % 256 = _
  rw [Nat.shiftRight_eq_div_pow]
  omega

@[simp] theorem low_ofBytes (l h : Byte) : low (.ofBytes l h) = l := by
  have := l.toNat_lt
  rw [← UInt8.toNat_inj, toNat_low, toNat_ofBytes]
  omega

@[simp] theorem high_ofBytes (l h : Byte) : high (.ofBytes l h) = h := by
  have := l.toNat_lt
  rw [← UInt8.toNat_inj, toNat_high, toNat_ofBytes]
  omega

@[simp] theorem ofBytes_low_high (w : Word) : ofBytes (low w) (high w) = w := by
  rw [← UInt16.toNat_inj, toNat_ofBytes, toNat_low, toNat_high]
  omega

end Z80.Word
