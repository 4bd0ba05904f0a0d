import ClassScript.Number.Binary
import Mathlib

/-!
# Numbers and their bits

A finite number is its sign and its magnitude: it is `ofMagnitude` of the magnitude, negated
if the sign bit is set (`eq_signed`). A number is unpacked into the fields of the format, and
packed again, wherever it is made from bits or negated; that this gives the same fields back
is what has to be shown.
-/

namespace ClassScript.Number

open Float.Model Float.Model.UnpackedFloat

/-- The number is not infinite, and it is a number. -/
def IsFinite (n : Float) : Prop := magnitude n < infinity

theorem infinity_eq : infinity = 2047 * 2 ^ 52 := rfl

/-! ## Fields -/

/-- The bits with the given sign and magnitude. -/
def signedBits (sign : Sign) (magnitude : Nat) : BitVec Format.binary64.numBits :=
  BitVec.ofNat 64 (sign.toBitVec.toNat * 2 ^ 63 + magnitude)

/-- What finite bits with the given sign and magnitude are unpacked to. -/
def unpacked (sign : Sign) (magnitude : Nat) : UnpackedFloat :=
  if some : 0 < magnitude then
    if magnitude < 2 ^ 52 then .finite sign magnitude (-1074) some
    else .finite sign (2 ^ 52 + magnitude % 2 ^ 52) (magnitude / 2 ^ 52 - 1075 : Int) (by omega)
  else .zero sign

section Fields

variable (sign : Sign) {magnitude : Nat}

theorem toNat_signedBits (small : magnitude < 2 ^ 63) :
    (signedBits sign magnitude).toNat = sign.toBitVec.toNat * 2 ^ 63 + magnitude := by
  have bit := sign.toBitVec.isLt
  refine (BitVec.toNat_ofNat _ 64).trans (Nat.mod_eq_of_lt ?_)
  omega

theorem toNat_packComponents (exponent : BitVec 11) (mantissa : BitVec 52) :
    (packComponents .binary64 sign exponent mantissa).toNat =
      sign.toBitVec.toNat * 2 ^ 63 + exponent.toNat * 2 ^ 52 + mantissa.toNat := by
  unfold packComponents
  rw [BitVec.toNat_append, BitVec.toNat_append, ← Nat.shiftLeft_add_eq_or_of_lt exponent.isLt,
    ← Nat.shiftLeft_add_eq_or_of_lt mantissa.isLt, Nat.shiftLeft_eq, Nat.shiftLeft_eq]
  show (_ * 2 ^ 11 + _) * 2 ^ 52 + _ = _
  omega

theorem packComponents_eq {exponent mantissa : Nat} (small : magnitude < 2 ^ 63)
    (same : exponent * 2 ^ 52 + mantissa % 2 ^ 52 = magnitude) :
    packComponents .binary64 sign (BitVec.ofNat 11 exponent) (BitVec.ofNat 52 mantissa) =
      signedBits sign magnitude := by
  have exponentFits : exponent < 2 ^ 11 := by omega
  apply BitVec.eq_of_toNat_eq
  rw [toNat_packComponents, BitVec.toNat_ofNat, BitVec.toNat_ofNat, toNat_signedBits sign small,
    Nat.mod_eq_of_lt exponentFits, ← same, Nat.add_assoc]

theorem unpackMantissa_signedBits (small : magnitude < 2 ^ 63) :
    unpackMantissa (signedBits sign magnitude) = BitVec.ofNat 52 magnitude := by
  apply BitVec.eq_of_toNat_eq
  rw [unpackMantissa, BitVec.toNat_cast, BitVec.extractLsb_toNat, toNat_signedBits sign small,
    Nat.shiftRight_zero]
  show _ % 2 ^ 52 = (BitVec.ofNat 52 magnitude).toNat
  rw [BitVec.toNat_ofNat]
  omega

theorem unpackExponent_signedBits (small : magnitude < 2 ^ 63) :
    unpackExponent (signedBits sign magnitude) = BitVec.ofNat 11 (magnitude / 2 ^ 52) := by
  apply BitVec.eq_of_toNat_eq
  rw [unpackExponent, BitVec.toNat_cast, BitVec.extractLsb_toNat, toNat_signedBits sign small,
    Nat.shiftRight_eq_div_pow]
  show _ / 2 ^ 52 % 2 ^ 11 = (BitVec.ofNat 11 (magnitude / 2 ^ 52)).toNat
  rw [BitVec.toNat_ofNat]
  omega

theorem unpackSign_signedBits (small : magnitude < 2 ^ 63) :
    unpackSign (signedBits sign magnitude) = sign.toBitVec := by
  have bit := sign.toBitVec.isLt
  apply BitVec.eq_of_toNat_eq
  rw [unpackSign, BitVec.toNat_cast, BitVec.extractLsb_toNat, toNat_signedBits sign small,
    Nat.shiftRight_eq_div_pow]
  show _ / 2 ^ 63 % 2 ^ 1 = _
  omega

theorem ofBitVec_toBitVec : Sign.ofBitVec sign.toBitVec = sign := by
  cases sign <;> rfl

theorem ofNat_eq_iff {width a b : Nat} (small : a < 2 ^ width) (small' : b < 2 ^ width) :
    BitVec.ofNat width a = BitVec.ofNat width b ↔ a = b := by
  rw [← BitVec.toNat_inj, BitVec.toNat_ofNat, BitVec.toNat_ofNat, Nat.mod_eq_of_lt small,
    Nat.mod_eq_of_lt small']

theorem log2_eq {n k : Nat} (low : 2 ^ k ≤ n) (high : n < 2 ^ (k + 1)) : n.log2 = k := by
  have some : n ≠ 0 := by
    have := Nat.two_pow_pos k
    omega
  exact (Nat.log2_eq_iff some).mpr ⟨low, high⟩

theorem exponentBias_eq : ((Format.binary64.exponentBias : Nat) : Int) = 1023 := rfl

/-- Unpacking the bits of a finite magnitude gives its sign, exponent and significand. -/
theorem unpack_signedBits (finite : magnitude < infinity) :
    UnpackedFloat.unpack .binary64 (signedBits sign magnitude) = unpacked sign magnitude := by
  rw [infinity_eq] at finite
  have small : magnitude < 2 ^ 63 := by omega
  have exponentFits : magnitude / 2 ^ 52 < 2 ^ 11 := by omega
  unfold UnpackedFloat.unpack
  simp only [unpackMantissa_signedBits sign small, unpackExponent_signedBits sign small,
    unpackSign_signedBits sign small, ofBitVec_toBitVec]
  have inner : BitVec.ofNat 11 (magnitude / 2 ^ 52) ≠ -1#11 := by
    rw [show -1#11 = BitVec.ofNat 11 2047 from rfl, Ne, ofNat_eq_iff exponentFits (by decide)]
    omega
  rw [if_neg inner]
  by_cases normal : magnitude < 2 ^ 52
  · have first : magnitude / 2 ^ 52 = 0 := by omega
    have mantissa : (BitVec.ofNat 52 magnitude).toNat = magnitude := by
      rw [BitVec.toNat_ofNat, Nat.mod_eq_of_lt normal]
    rw [if_pos (by rw [first]), unpacked]
    by_cases some : 0 < magnitude
    · have other : BitVec.ofNat 52 magnitude ≠ 0#52 := by
        rw [Ne, ofNat_eq_iff normal (by decide)]
        omega
      rw [dif_neg other, dif_pos some, if_pos normal]
      simp only [mantissa, exponentBias_eq, first, UnpackedFloat.finite.injEq, true_and]
      rfl
    · have zero : magnitude = 0 := by omega
      rw [dif_pos (by rw [zero]), dif_neg some]
  · have other : BitVec.ofNat 11 (magnitude / 2 ^ 52) ≠ 0#11 := by
      rw [Ne, ofNat_eq_iff exponentFits (by decide)]
      omega
    -- the bit in front of the stored ones is set
    have mantissa : (1#1 ++ BitVec.ofNat 52 magnitude).toNat = 2 ^ 52 + magnitude % 2 ^ 52 := by
      rw [BitVec.toNat_append, ← Nat.shiftLeft_add_eq_or_of_lt (BitVec.isLt _),
        BitVec.toNat_ofNat]
      rfl
    have exponent : (BitVec.ofNat 11 (magnitude / 2 ^ 52)).toNat = magnitude / 2 ^ 52 := by
      rw [BitVec.toNat_ofNat, Nat.mod_eq_of_lt exponentFits]
    rw [if_neg other, unpacked, dif_pos (by omega), if_neg normal]
    simp only [mantissa, exponentBias_eq, exponent, UnpackedFloat.finite.injEq, true_and]
    omega

/-- Packing what was unpacked gives the bits back. -/
theorem pack_unpacked (finite : magnitude < infinity) :
    UnpackedFloat.pack .binary64 (unpacked sign magnitude) = signedBits sign magnitude := by
  rw [infinity_eq] at finite
  have small : magnitude < 2 ^ 63 := by omega
  have bits : Format.binary64.mantissaBits = 53 := rfl
  have stored : ((Format.binary64.mantissaBitsWithoutImplicit : Nat) : Int) = 52 := rfl
  unfold unpacked
  split
  · next some =>
    split
    · next subnormal =>
      -- a subnormal has no implicit bit, so its significand is packed as it is
      have low : magnitude.log2 < 52 := (Nat.log2_lt (by omega)).mpr subnormal
      unfold UnpackedFloat.pack
      simp only [exponentBias_eq, stored, bits]
      rw [if_neg (by decide), if_neg (by omega)]
      exact packComponents_eq sign small (by omega)
    · next normal =>
      -- a normal one gets its implicit bit back, which packing takes away again
      have full : (2 ^ 52 + magnitude % 2 ^ 52).log2 = 52 := log2_eq (by omega) (by omega)
      have exponent : ((magnitude / 2 ^ 52 - 1075 : Int) + 1023 + 52).toNat =
          magnitude / 2 ^ 52 := by omega
      unfold UnpackedFloat.pack
      simp only [exponentBias_eq, stored, bits, full, exponent]
      rw [if_neg (by show ¬ 2 ^ 11 ≤ _; omega), if_pos trivial]
      exact packComponents_eq sign small (by omega)
  · next none =>
    obtain rfl : magnitude = 0 := by omega
    exact packComponents_eq sign (by decide) rfl

theorem neg_unpacked : (unpacked sign magnitude).neg = unpacked (-sign) magnitude := by
  unfold unpacked
  split
  · split <;> rfl
  · rfl

end Fields

/-! ## Numbers -/

theorem eq_of_toBits {n n' : Float} (same : n.toBits = n'.toBits) : n = n' := by
  obtain ⟨⟨bits, valid⟩⟩ := n
  obtain ⟨⟨bits', valid'⟩⟩ := n'
  obtain rfl : bits = bits' := same
  rfl

/-- The bits of a number that is made from finite bits. -/
theorem toBits_ofMagnitude {m : Nat} (finite : m < infinity) :
    (ofMagnitude m).toBits.toBitVec = signedBits .positive m := by
  have same : (UInt64.ofNat m).toBitVec = signedBits .positive m := by
    show BitVec.ofNat 64 m = BitVec.ofNat 64 (0 * 2 ^ 63 + m)
    rw [Nat.zero_mul, Nat.zero_add]
  show UnpackedFloat.pack .binary64 (UnpackedFloat.unpack .binary64 (UInt64.ofNat m).toBitVec) = _
  rw [same, unpack_signedBits .positive finite, pack_unpacked .positive finite]

/-- Negation changes the sign bit only. -/
theorem toBits_neg {n : Float} {sign : Sign} {m : Nat} (finite : m < infinity)
    (bits : n.toBits.toBitVec = signedBits sign m) :
    (-n).toBits.toBitVec = signedBits (-sign) m := by
  show UnpackedFloat.pack .binary64 (UnpackedFloat.unpack .binary64 n.toBits.toBitVec).neg = _
  rw [bits, unpack_signedBits sign finite, neg_unpacked, pack_unpacked (-sign) finite]

theorem signedBits_eq {bits : UInt64} {sign : Sign}
    (same : bits.toNat / 2 ^ 63 = sign.toBitVec.toNat) :
    bits.toBitVec = signedBits sign (bits.toNat % 2 ^ 63) := by
  refine BitVec.eq_of_toNat_eq ?_
  rw [toNat_signedBits sign (Nat.mod_lt _ (Nat.two_pow_pos 63)), ← same]
  show bits.toNat = _
  omega

/-- Finite bits are the bits of the number that they make. -/
theorem toBits_ofBits {bits : UInt64} (finite : bits.toNat % 2 ^ 63 < infinity) :
    (Float.ofBits bits).toBits = bits := by
  have range := bits.toNat_lt
  have found : ∃ sign : Sign, bits.toNat / 2 ^ 63 = sign.toBitVec.toNat := by
    by_cases high : 2 ^ 63 ≤ bits.toNat
    · exact ⟨.negative, by show _ = 1; omega⟩
    · exact ⟨.positive, by show _ = 0; omega⟩
  obtain ⟨sign, same⟩ := found
  apply UInt64.toBitVec_inj.mp
  show UnpackedFloat.pack .binary64 (UnpackedFloat.unpack .binary64 bits.toBitVec) = _
  rw [signedBits_eq same, unpack_signedBits sign finite, pack_unpacked sign finite]

/-- A finite number is the one with its magnitude, or that one negated. -/
theorem eq_signed {n : Float} (finite : IsFinite n) :
    n = if isNegative n then -ofMagnitude (magnitude n) else ofMagnitude (magnitude n) := by
  have range := n.toBits.toNat_lt
  refine eq_of_toBits (UInt64.toBitVec_inj.mp ?_)
  by_cases negative : isNegative n
  · have high : 2 ^ 63 ≤ n.toBits.toNat := UInt64.le_iff_toNat_le.mp (of_decide_eq_true negative)
    rw [if_pos negative, toBits_neg finite (toBits_ofMagnitude finite)]
    exact signedBits_eq (by show _ = 1; omega)
  · have low : n.toBits.toNat < 2 ^ 63 := Nat.lt_of_not_le fun high =>
      negative (decide_eq_true (UInt64.le_iff_toNat_le.mpr high))
    rw [if_neg negative, toBits_ofMagnitude finite]
    exact signedBits_eq (by show _ = 0; omega)

end ClassScript.Number
