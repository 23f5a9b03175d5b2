/-
**A double has a sign, an exponent and a fraction.**

Every double is packed from its three parts. They show whether it is a number, where its place is, and
that the negative of a number has the opposite place.

* `parts`: what is unpacked from the parts; `pack_parts`: it is packed to them again;
* `rank_eq`: the place of a number from its parts; `rank_neg`: the place of its negative;
* `rank_of_toBits`: the bits of what is not below zero are its place;
* `unpack_pack`: a normal number is unpacked as it was packed.
-/

import Mathlib
import Cascades.Proofs.Double

namespace Cascades.Double

open Float.Model UnpackedFloat

variable {sign : Sign} {exponent : BitVec 11} {fraction : BitVec 52} {value : Float}

/-! ### Packed parts -/

theorem toNat_packComponents (sign : Sign) (exponent : BitVec 11) (fraction : BitVec 52) :
    (packComponents Format.binary64 sign exponent fraction).toNat =
      sign.toBitVec.toNat * 2 ^ 63 + exponent.toNat * 2 ^ 52 + fraction.toNat := by
  unfold packComponents
  rw [BitVec.toNat_append, BitVec.toNat_append, ← Nat.shiftLeft_add_eq_or_of_lt fraction.isLt,
    ← Nat.shiftLeft_add_eq_or_of_lt exponent.isLt, Nat.shiftLeft_eq, Nat.shiftLeft_eq]
  omega

/-- Every word has its parts. -/
theorem exists_packComponents (word : BitVec Format.binary64.numBits) :
    ∃ sign exponent fraction, word = packComponents Format.binary64 sign exponent fraction :=
  ⟨_, _, _, (packComponents_unpackSign_unpackExponent_unpackMantissa word).symm⟩

/-- The leading bit of a normal number is not among its parts. -/
theorem toNat_leading (fraction : BitVec 52) : (1#1 ++ fraction).toNat = 2 ^ 52 + fraction.toNat := by
  rw [BitVec.toNat_append, ← Nat.shiftLeft_add_eq_or_of_lt fraction.isLt]
  rfl

/-! ### Unpacked parts -/

/-- What the parts stand for. The greatest exponent is that of infinity and NaN, the least one that of zero
and the numbers without a leading bit. -/
def parts (sign : Sign) (exponent : BitVec 11) (fraction : BitVec 52) : UnpackedFloat :=
  if exponent = -1#11 then if fraction = 0#52 then .infinity sign else .notANumber
  else if exponent = 0#11 then
    if positive : 0 < fraction.toNat then .finite sign fraction.toNat (-1074) positive else .zero sign
  else .finite sign (2 ^ 52 + fraction.toNat) (exponent.toNat - 1075) (by omega)

theorem unpack_packComponents :
    unpack Format.binary64 (packComponents Format.binary64 sign exponent fraction) =
      parts sign exponent fraction := by
  unfold UnpackedFloat.unpack parts
  simp only [unpackSign_packComponents, unpackMantissa_packComponents, unpackExponent_packComponents,
    Sign.ofBitVec_toBitVec, toNat_leading]
  split
  · rfl
  split
  · rename_i least
    subst least
    split
    · rename_i zero
      subst zero
      rfl
    · rename_i other
      have positive : 0 < fraction.toNat :=
        Nat.pos_of_ne_zero fun zero => other (BitVec.eq_of_toNat_eq zero)
      rw [dif_pos positive]
      rfl
  · rfl

theorem isNaN_parts :
    (parts sign exponent fraction).isNaN = decide (exponent = -1#11 ∧ fraction ≠ 0#52) := by
  unfold parts
  split
  · split <;> simp_all [UnpackedFloat.isNaN]
  · split
    · split <;> simp_all [UnpackedFloat.isNaN]
    · simp_all [UnpackedFloat.isNaN]

theorem neg_parts : (parts sign exponent fraction).neg = parts (-sign) exponent fraction := by
  unfold parts
  split
  · split <;> rfl
  · split
    · split <;> rfl
    · rfl

/-- **What the parts of a number stand for is packed to them.** -/
theorem pack_parts (number : (parts sign exponent fraction).isNaN = false) :
    pack Format.binary64 (parts sign exponent fraction) =
      packComponents Format.binary64 sign exponent fraction := by
  have bits : isNaNBits (packComponents Format.binary64 sign exponent fraction) = false := by
    unfold isNaNBits
    rw [unpackExponent_packComponents, unpackMantissa_packComponents, ← number, isNaN_parts]
  rw [← unpack_packComponents, pack_unpack _ (by decide), bits, if_neg Bool.false_ne_true]

/-! ### Places -/

theorem toNat_toBits (shown : value.toBits.toBitVec = packComponents Format.binary64 sign exponent fraction) :
    value.toBits.toNat = sign.toBitVec.toNat * 2 ^ 63 + exponent.toNat * 2 ^ 52 + fraction.toNat := by
  rw [← toNat_packComponents, ← shown]
  rfl

theorem isNaN_eq (shown : value.toBits.toBitVec = packComponents Format.binary64 sign exponent fraction) :
    value.isNaN = decide (exponent = -1#11 ∧ fraction ≠ 0#52) := by
  show (unpack Format.binary64 value.toBits.toBitVec).isNaN = _
  rw [shown, unpack_packComponents, isNaN_parts]

/-- **The place of a number**: what its exponent and its fraction make together, with its sign. -/
theorem rank_eq (shown : value.toBits.toBitVec = packComponents Format.binary64 sign exponent fraction)
    (number : value.isNaN = false) :
    rank value = sign.apply (exponent.toNat * 2 ^ 52 + fraction.toNat : Nat) := by
  have eleven := exponent.isLt
  have others := fraction.isLt
  unfold rank
  rw [number, if_neg Bool.false_ne_true, toNat_toBits shown]
  cases sign with
  | positive =>
    have plus : Sign.positive.toBitVec.toNat = 0 := rfl
    rw [plus, if_pos (by unfold signBit; omega), Nat.zero_mul, Nat.zero_add]
    rfl
  | negative =>
    have minus : Sign.negative.toBitVec.toNat = 1 := rfl
    have size : 1 * 2 ^ 63 + exponent.toNat * 2 ^ 52 + fraction.toNat - signBit =
        exponent.toNat * 2 ^ 52 + fraction.toNat := by
      unfold signBit
      omega
    rw [minus, if_neg (by unfold signBit; omega), size]
    rfl

/-- The negative of a number has the other sign. -/
theorem toBits_neg (shown : value.toBits.toBitVec = packComponents Format.binary64 sign exponent fraction)
    (number : value.isNaN = false) :
    (-value).toBits.toBitVec = packComponents Format.binary64 (-sign) exponent fraction := by
  rw [isNaN_eq shown] at number
  show pack Format.binary64 (unpack Format.binary64 value.toBits.toBitVec).neg = _
  rw [shown, unpack_packComponents, neg_parts, pack_parts (isNaN_parts.trans number)]

/-- **The negative of a number** has the opposite place. -/
theorem rank_neg (number : value.isNaN = false) : rank (-value) = -rank value := by
  obtain ⟨sign, exponent, fraction, shown⟩ := exists_packComponents value.toBits.toBitVec
  have turned := toBits_neg shown number
  have still : (-value).isNaN = false := by
    rw [isNaN_eq turned, ← isNaN_eq shown, number]
  rw [rank_eq turned still, rank_eq shown number]
  cases sign with
  | positive => rfl
  | negative => exact (Int.neg_neg _).symm

/-- What has bits up to those of infinity is a number, with its bits as its place. -/
theorem rank_of_toBits (below : value.toBits.toNat ≤ 2047 * 2 ^ 52) :
    value.isNaN = false ∧ rank value = value.toBits.toNat := by
  obtain ⟨sign, exponent, fraction, shown⟩ := exists_packComponents value.toBits.toBitVec
  have bits := toNat_toBits shown
  have others := fraction.isLt
  have plus : Sign.positive.toBitVec.toNat = 0 := rfl
  have minus : Sign.negative.toBitVec.toNat = 1 := rfl
  obtain rfl : sign = .positive := by
    cases sign with
    | positive => rfl
    | negative =>
      rw [minus] at bits
      omega
  have number : value.isNaN = false := by
    rw [isNaN_eq shown]
    refine decide_eq_false ?_
    rintro ⟨rfl, other⟩
    have greatest : (-1#11).toNat = 2047 := rfl
    refine other (BitVec.eq_of_toNat_eq ?_)
    rw [BitVec.toNat_zero]
    omega
  refine ⟨number, ?_⟩
  rw [rank_eq shown number, bits, plus, Nat.zero_mul, Nat.zero_add]
  rfl

/-! ### Normal numbers -/

section Normal

variable {mantissa : Nat} {power : Int} {positive : 0 < mantissa} (long : 2 ^ 52 ≤ mantissa)
  (short : mantissa < 2 ^ 53) (normal : -1074 ≤ power)
include long short normal

/-- The bits of a number with a leading bit; where its power is too great it is packed to infinity. -/
theorem toNat_pack :
    (pack Format.binary64 (.finite .positive mantissa power positive)).toNat =
      min ((power + 1074).toNat * 2 ^ 52 + mantissa) (2047 * 2 ^ 52) := by
  obtain ⟨place, rfl⟩ : ∃ place : Nat, power = place - 1074 := ⟨(power + 1074).toNat, by omega⟩
  have biased : ((place : Int) - 1074 + Format.binary64.exponentBias + (52 : Nat)).toNat = place + 1 := by
    change ((place : Int) - 1074 + (1023 : Nat) + 52).toNat = _
    omega
  have plain : ((place : Int) - 1074 + 1074).toNat = place := by omega
  have size : mantissa.log2 + 1 = Format.binary64.mantissaBits := by
    rw [(Nat.log2_eq_iff (by omega)).2 ⟨long, short⟩]
    rfl
  unfold UnpackedFloat.pack
  dsimp only
  rw [biased, plain, if_pos size]
  split
  · rename_i above
    change 2 ^ 11 ≤ place + 1 + 1 at above
    rw [Nat.min_eq_right (by omega)]
    rfl
  · rename_i below
    change ¬ 2 ^ 11 ≤ place + 1 + 1 at below
    have plus : Sign.positive.toBitVec.toNat = 0 := rfl
    rw [Nat.min_eq_left (by omega), toNat_packComponents, plus, BitVec.toNat_ofNat, BitVec.toNat_ofNat]
    omega

/-- A normal number is unpacked as it was packed. -/
theorem unpack_pack (bounded : power ≤ 971) :
    unpack Format.binary64 (pack Format.binary64 (.finite .positive mantissa power positive)) =
      .finite .positive mantissa power positive := by
  obtain ⟨place, rfl⟩ : ∃ place : Nat, power = place - 1074 := ⟨(power + 1074).toNat, by omega⟩
  have biased : (BitVec.ofNat 11 (place + 1)).toNat = place + 1 := by
    rw [BitVec.toNat_ofNat]
    omega
  have leading : 2 ^ 52 + (BitVec.ofNat 52 mantissa).toNat = mantissa := by
    rw [BitVec.toNat_ofNat]
    omega
  have notGreatest : BitVec.ofNat 11 (place + 1) ≠ -1#11 := by
    intro same
    rw [same] at biased
    change 2047 = _ at biased
    omega
  have notLeast : BitVec.ofNat 11 (place + 1) ≠ 0#11 := by
    intro same
    rw [same] at biased
    cases biased
  have shown : .finite .positive mantissa (place - 1074) positive =
      parts .positive (BitVec.ofNat 11 (place + 1)) (BitVec.ofNat 52 mantissa) := by
    unfold parts
    rw [if_neg notGreatest, if_neg notLeast]
    congr 1
    · exact leading.symm
    · rw [biased]
      omega
  have number : (parts .positive (BitVec.ofNat 11 (place + 1)) (BitVec.ofNat 52 mantissa)).isNaN = false := by
    rw [← shown]
    rfl
  rw [shown, pack_parts number, unpack_packComponents]

end Normal

end Cascades.Double
