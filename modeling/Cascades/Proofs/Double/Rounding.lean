/-
**Whole numbers keep their order when they become doubles.**

A natural number that has more than fifty-three bits loses the lower ones. What is left is rounded to the
nearest whole number, to the even one of two, and one bit more is lost where that carries. So the place
of the double is found from the bits that are left and from how many were lost, and it rises with the
number. Up to two to the power of fifty-three no bit is lost, and different numbers have different places.

* `nearest`: the rounding; `roundedMantissa_shifted`: what a round and a sticky bit make of it;
* `toNat_pack_rounded`: the bits of what is rounded;
* `roundedRank`: the place of the double nearest to a number; `toNat_toBits_ofNat`: its bits are that;
* `rank_ofInt_mono`: whole numbers keep their order; `rank_ofInt_strictMono`: small ones stay different.
-/

import Cascades.Proofs.Double.Parts

namespace Cascades.Double

open Float.Model UnpackedFloat

variable {first second number places : Nat} {power : Int}

/-! ### The nearest whole number -/

/-- The whole number nearest to a number without some of its lower places, the even one of two. -/
def nearest (number places : Nat) : Nat :=
  if 2 ^ places < 2 * (number % 2 ^ places) then number / 2 ^ places + 1
  else if 2 ^ places = 2 * (number % 2 ^ places) then number / 2 ^ places + number / 2 ^ places % 2
  else number / 2 ^ places

/-- **Rounding keeps the order.** -/
theorem nearest_mono (below : first ≤ second) : nearest first places ≤ nearest second places := by
  have one := Nat.div_add_mod first (2 ^ places)
  have two := Nat.div_add_mod second (2 ^ places)
  have quotients : first / 2 ^ places ≤ second / 2 ^ places := Nat.div_le_div_right below
  unfold nearest
  rcases Nat.lt_or_eq_of_le quotients with less | same
  · split <;> split <;> (try split) <;> (try split) <;> omega
  · rw [same] at one ⊢
    split <;> split <;> (try split) <;> (try split) <;> omega

theorem nearest_le (number places : Nat) : nearest number places ≤ number / 2 ^ places + 1 := by
  unfold nearest
  split
  · exact Nat.le_refl _
  · split <;> omega

theorem le_nearest (number places : Nat) : number / 2 ^ places ≤ nearest number places := by
  unfold nearest
  split
  · exact Nat.le_succ _
  · split
    · exact Nat.le_add_right _ _
    · exact Nat.le_refl _

/-- Nothing is rounded where nothing is lost. -/
theorem nearest_mul (number places : Nat) : nearest (number * 2 ^ places) places = number := by
  have positive := Nat.two_pow_pos places
  unfold nearest
  rw [Nat.mul_mod_left, if_neg (by omega), if_neg (by omega), Nat.mul_div_cancel _ positive]

theorem nearest_bounds (some : number ≠ 0) (long : number.log2 = 52 + places) :
    2 ^ 52 ≤ nearest number places ∧ nearest number places ≤ 2 ^ 53 := by
  have positive := Nat.two_pow_pos places
  have lower := Nat.log2_self_le some
  have upper : number < 2 ^ (53 + places) := by
    have bound := Nat.lt_log2_self (n := number)
    rwa [long, Nat.add_right_comm] at bound
  rw [long, Nat.pow_add] at lower
  rw [Nat.pow_add] at upper
  have least := (Nat.le_div_iff_mul_le positive).2 lower
  have most := (Nat.div_lt_iff_lt_mul positive).2 upper
  exact ⟨Nat.le_trans least (le_nearest number places), Nat.le_trans (nearest_le number places) most⟩

/-! ### Lower places are lost -/

theorem twice_mod {rest modulus : Nat} (below : rest < modulus) :
    2 * rest % modulus = if 2 * rest < modulus then 2 * rest else 2 * rest - modulus := by
  split
  · rename_i short
    exact Nat.mod_eq_of_lt short
  · rename_i long
    rw [Nat.mod_eq_sub_mod (by omega), Nat.mod_eq_of_lt (by omega)]

/-- What is known of the lost places: whether they are at least one half, and whether they are neither
nothing nor one half. -/
theorem shifted_eq (number places : Nat) :
    ExtendedMantissa.ofMantissaAndAccuracy number .exact >>> places =
      ⟨number / 2 ^ places, decide (2 ^ places ≤ 2 * (number % 2 ^ places)),
        decide (2 * (number % 2 ^ places) % 2 ^ places ≠ 0)⟩ := by
  induction places with
  | zero =>
    simp [ExtendedMantissa.ofMantissaAndAccuracy, HShiftRight.hShiftRight, Nat.repeat, Nat.mod_one]
  | succ places ih =>
    have step : ExtendedMantissa.ofMantissaAndAccuracy number .exact >>> (places + 1) =
        (ExtendedMantissa.ofMantissaAndAccuracy number .exact >>> places).shiftRightOne := rfl
    have rest := Nat.mod_lt number (Nat.two_pow_pos places)
    have more : number % 2 ^ (places + 1) =
        number % 2 ^ places + 2 ^ places * (number / 2 ^ places % 2) := by
      rw [Nat.pow_succ, Nat.mod_mul]
    have twice : 2 ^ (places + 1) = 2 * 2 ^ places := by rw [Nat.pow_succ, Nat.mul_comm]
    have low : 2 * (number % 2 ^ (places + 1)) % 2 ^ (places + 1) = 2 * (number % 2 ^ places) := by
      rw [more, twice, Nat.mul_mod_mul_left, Nat.add_mul_mod_self_left, Nat.mod_mod]
    have half : number / 2 ^ (places + 1) = number / 2 ^ places / 2 := by
      rw [Nat.pow_succ, Nat.div_div_eq_div_mul]
    rw [step, ih, low, half, more, twice]
    unfold ExtendedMantissa.shiftRightOne
    rw [ExtendedMantissa.mk.injEq]
    refine ⟨rfl, Bool.eq_iff_iff.2 ?_, Bool.eq_iff_iff.2 ?_⟩
    · rw [bne_iff_ne, decide_eq_true_iff]
      rcases Nat.mod_two_eq_zero_or_one (number / 2 ^ places) with even | odd
      · rw [even, Nat.mul_zero]
        omega
      · rw [odd, Nat.mul_one]
        omega
    · rw [Bool.or_eq_true, decide_eq_true_iff, decide_eq_true_iff, decide_eq_true_iff, twice_mod rest]
      split <;> omega

/-- **The lost places round the rest to the nearest number.** -/
theorem roundedMantissa_shifted (number places : Nat) :
    (ExtendedMantissa.ofMantissaAndAccuracy number .exact >>> places).roundedMantissa =
      nearest number places := by
  have rest := Nat.mod_lt number (Nat.two_pow_pos places)
  have twice := twice_mod rest
  rw [shifted_eq]
  unfold ExtendedMantissa.roundedMantissa nearest
  by_cases half : 2 ^ places ≤ 2 * (number % 2 ^ places)
  · rw [if_neg (by omega)] at twice
    by_cases sticky : 2 * (number % 2 ^ places) % 2 ^ places ≠ 0
    · rw [decide_eq_true half, decide_eq_true sticky, if_pos (by omega)]
      rfl
    · rw [decide_eq_true half, decide_eq_false sticky, if_neg (by omega), if_pos (by omega)]
      rfl
  · rw [if_pos (by omega)] at twice
    rw [decide_eq_false half, if_neg (by omega), if_neg (by omega)]
    by_cases sticky : 2 * (number % 2 ^ places) % 2 ^ places ≠ 0
    · rw [decide_eq_true sticky]
      rfl
    · rw [decide_eq_false sticky]
      rfl

/-! ### Fifty-three places are left -/

theorem shiftToTarget
    (shift : (max ((number.log2 : Int) + 1 + power - 53) (-1074) - power).toNat = places) :
    shiftToTargetExponent Format.binary64 number power .exact =
      (ExtendedMantissa.ofMantissaAndAccuracy number .exact >>> places, power + places) := by
  subst shift
  rfl

/-- A short mantissa loses nothing. -/
theorem shiftToTarget_short (short : number < 2 ^ 53) (normal : -1074 ≤ power) :
    shiftToTargetExponent Format.binary64 number power .exact = (⟨number, false, false⟩, power) := by
  have small : number.log2 ≤ 52 := by
    rcases Nat.eq_zero_or_pos number with rfl | positive
    · decide
    · exact Nat.le_of_lt_succ ((Nat.log2_lt (by omega)).2 short)
  have shifted := @shiftToTarget number 0 power (by omega)
  rwa [Int.natCast_zero, Int.add_zero] at shifted

/-- A carry loses one zero more. -/
theorem shiftToTarget_carry (normal : -1074 ≤ power) :
    shiftToTargetExponent Format.binary64 (2 ^ 53) power .exact =
      (⟨2 ^ 52, false, false⟩, power + 1) := by
  have long : (2 ^ 53 : Nat).log2 = 53 := Nat.log2_two_pow
  exact @shiftToTarget _ 1 _ (by rw [long]; omega)

section Long

variable (long : number.log2 = 52 + places) (normal : -1074 ≤ power + places)
include long normal

theorem shiftToTarget_long :
    shiftToTargetExponent Format.binary64 number power .exact =
      (ExtendedMantissa.ofMantissaAndAccuracy number .exact >>> places, power + places) :=
  shiftToTarget (by rw [long]; omega)

theorem roundWithAccuracy_short (some : number ≠ 0) (short : nearest number places < 2 ^ 53) :
    ∃ positive, roundWithAccuracy Format.binary64 .positive number power .exact =
      .finite .positive (nearest number places) (power + places) positive := by
  have positive : 0 < nearest number places :=
    Nat.lt_of_lt_of_le (by decide) (nearest_bounds some long).1
  refine ⟨positive, ?_⟩
  unfold roundWithAccuracy
  rw [shiftToTarget_long long normal]
  dsimp only
  rw [roundedMantissa_shifted, shiftToTarget_short short normal]
  exact dif_neg (Nat.pos_iff_ne_zero.1 positive)

theorem roundWithAccuracy_carry (carry : nearest number places = 2 ^ 53) :
    ∃ positive, roundWithAccuracy Format.binary64 .positive number power .exact =
      .finite .positive (2 ^ 52) (power + places + 1) positive := by
  refine ⟨by decide, ?_⟩
  unfold roundWithAccuracy
  rw [shiftToTarget_long long normal]
  dsimp only
  rw [roundedMantissa_shifted, carry, shiftToTarget_carry normal]
  rfl

/-- **The bits of what is rounded.** A carry leads to the next exponent without fraction, which comes right
after the greatest fraction of this one. -/
theorem toNat_pack_rounded (some : number ≠ 0) :
    (pack Format.binary64 (roundWithAccuracy Format.binary64 .positive number power .exact)).toNat =
      min ((power + places + 1074).toNat * 2 ^ 52 + nearest number places) (2047 * 2 ^ 52) := by
  obtain ⟨least, most⟩ := nearest_bounds some long
  rcases Nat.lt_or_eq_of_le most with short | carry
  · obtain ⟨positive, rounded⟩ := roundWithAccuracy_short long normal some short
    rw [rounded, toNat_pack least short normal]
  · obtain ⟨positive, rounded⟩ := roundWithAccuracy_carry long normal carry
    have next : (power + places + 1 + 1074).toNat = (power + places + 1074).toNat + 1 := by omega
    rw [rounded, toNat_pack (by omega) (by omega) (by omega), next, carry]
    omega

end Long

/-! ### Natural numbers -/

theorem log2_mul_two_pow (some : number ≠ 0) (places : Nat) :
    (number * 2 ^ places).log2 = number.log2 + places := by
  have lower := Nat.log2_self_le some
  have upper := Nat.lt_log2_self (n := number)
  have positive := Nat.two_pow_pos places
  refine (Nat.log2_eq_iff (Nat.mul_ne_zero some (Nat.pos_iff_ne_zero.1 positive))).2 ⟨?_, ?_⟩
  · rw [Nat.pow_add]
    exact Nat.mul_le_mul_right _ lower
  · rw [Nat.add_right_comm, Nat.pow_add]
    exact Nat.mul_lt_mul_of_pos_right upper positive

/-- The place of the double nearest to a number. -/
def roundedRank (number : Nat) : Nat :=
  if number = 0 then 0
  else min ((number.log2 + 1022) * 2 ^ 52 + nearest (number * 2 ^ 53) (number.log2 + 1)) (2047 * 2 ^ 52)

theorem nearest_scaled (some : number ≠ 0) :
    2 ^ 52 ≤ nearest (number * 2 ^ 53) (number.log2 + 1) ∧
      nearest (number * 2 ^ 53) (number.log2 + 1) ≤ 2 ^ 53 := by
  have size := log2_mul_two_pow some 53
  exact nearest_bounds (Nat.mul_ne_zero some (by decide)) (by omega)

/-- A number beyond fifty-three places is rounded. -/
theorem toNat_toBits_ofNat_long (long : 2 ^ 53 ≤ number) :
    (ofNat number).toBits.toNat = roundedRank number := by
  have some : number ≠ 0 := by omega
  have shift : number <<< 53 * 10 ^ 0 = number * 2 ^ 53 := by
    rw [Nat.shiftLeft_eq]
    omega
  have rounded : UnpackedFloat.ofScientific Format.binary64 number 0 =
      roundWithAccuracy Format.binary64 .positive (number * 2 ^ 53) (-53) .exact := by
    rw [← shift]
    have enough : ¬ (0 : Int) < -(2 ^ 11 + number.log2) := by omega
    unfold UnpackedFloat.ofScientific
    rw [dif_neg some, if_neg (by decide), if_neg enough, if_pos (by decide)]
    rfl
  have word : (ofNat number).toBits.toNat =
      (pack Format.binary64 (UnpackedFloat.ofScientific Format.binary64 number 0)).toNat := by
    unfold ofNat Float.ofScientific
    rw [dif_neg (by omega)]
    rfl
  have size := log2_mul_two_pow some 53
  have place : ((-53 : Int) + (number.log2 + 1 : Nat) + 1074).toNat = number.log2 + 1022 := by omega
  rw [word, rounded, @toNat_pack_rounded _ (number.log2 + 1) _ (by omega) (by omega) (by omega), place,
    roundedRank, if_neg some]

section Short

variable (some : number ≠ 0) (short : number < 2 ^ 53)
include some short

theorem log2_short : number.log2 ≤ 52 ∧ (number * 2 ^ (52 - number.log2)).log2 = 52 := by
  have small : number.log2 ≤ 52 := Nat.le_of_lt_succ ((Nat.log2_lt some).2 short)
  refine ⟨small, ?_⟩
  rw [log2_mul_two_pow some]
  omega

theorem scaled_short :
    2 ^ 52 ≤ number * 2 ^ (52 - number.log2) ∧ number * 2 ^ (52 - number.log2) < 2 ^ 53 := by
  obtain ⟨_, size⟩ := log2_short some short
  have product : number * 2 ^ (52 - number.log2) ≠ 0 :=
    Nat.mul_ne_zero some (Nat.pos_iff_ne_zero.1 (Nat.two_pow_pos _))
  exact (Nat.log2_eq_iff product).1 size

theorem nearest_short :
    nearest (number * 2 ^ 53) (number.log2 + 1) = number * 2 ^ (52 - number.log2) := by
  obtain ⟨small, _⟩ := log2_short some short
  have again : number * 2 ^ 53 = number * 2 ^ (52 - number.log2) * 2 ^ (number.log2 + 1) := by
    rw [Nat.mul_assoc, ← Nat.pow_add]
    congr 2
    omega
  rw [again, nearest_mul]

theorem ofNat_short :
    ∃ positive, UnpackedFloat.ofNat Format.binary64 number =
      .finite .positive (number * 2 ^ (52 - number.log2)) (number.log2 - 52) positive := by
  obtain ⟨small, size⟩ := log2_short some short
  obtain ⟨lower, upper⟩ := scaled_short some short
  have whole := nearest_mul (number * 2 ^ (52 - number.log2)) 0
  rw [Nat.pow_zero, Nat.mul_one] at whole
  obtain ⟨positive, rounded⟩ := @roundWithAccuracy_short _ 0 (number.log2 - 52) size
    (by omega) (by omega) (by rw [whole]; exact upper)
  have target : ((0 : Int) - max ((number.log2 : Int) + 1 + 0 - 53) (-1074)).toNat = 52 - number.log2 := by
    omega
  have decreased :
      decreaseExponent number 0 (Format.binary64.targetExponent (totalExponent number 0)) =
        (number * 2 ^ (52 - number.log2), (number.log2 : Int) - 52) := by
    show (number <<< ((0 : Int) - max ((number.log2 : Int) + 1 + 0 - 53) (-1074)).toNat,
      (0 : Int) - ((0 : Int) - max ((number.log2 : Int) + 1 + 0 - 53) (-1074)).toNat) = _
    rw [target, Nat.shiftLeft_eq]
    congr 1
    omega
  have above : compare (number : Int) 0 = .gt := by
    rw [Int.compare_eq_gt]
    omega
  have normal : UnpackedFloat.ofNat Format.binary64 number = roundWithAccuracy Format.binary64 .positive
      (number * 2 ^ (52 - number.log2)) (number.log2 - 52) .exact := by
    unfold UnpackedFloat.ofNat UnpackedFloat.ofInt UnpackedFloat.normalize
    rw [above]
    show UnpackedFloat.round Format.binary64 .positive number 0 = _
    unfold UnpackedFloat.round
    dsimp only
    rw [decreased]
  refine ⟨by omega, normal.trans (rounded.trans ?_)⟩
  congr 1
  rw [Int.natCast_zero, Int.add_zero]

/-- A number within fifty-three places is a double, and so is its product with one. -/
theorem toNat_toBits_ofNat_short : (ofNat number).toBits.toNat = roundedRank number := by
  obtain ⟨small, size⟩ := log2_short some short
  obtain ⟨lower, upper⟩ := scaled_short some short
  obtain ⟨positive, exact⟩ := ofNat_short some short
  have product : number * 2 ^ (52 - number.log2) ≠ 0 := by omega
  have whole : number.toUInt64.toNat = number := by
    show number % 2 ^ 64 = number
    omega
  have factor : number.toUInt64.toFloat.toModel.unpack =
      .finite .positive (number * 2 ^ (52 - number.log2)) (number.log2 - 52) positive := by
    show unpack Format.binary64
      (pack Format.binary64 (UnpackedFloat.ofNat Format.binary64 number.toUInt64.toNat)) = _
    rw [whole, exact, unpack_pack lower upper (by omega) (by omega)]
  have one : (Float.ofBits 0x3FF0000000000000).toModel.unpack =
      .finite .positive (2 ^ 52) (-52) (by decide) := rfl
  have word : (ofNat number).toBits.toNat = (pack Format.binary64 (UnpackedFloat.mul Format.binary64
      number.toUInt64.toFloat.toModel.unpack (Float.ofBits 0x3FF0000000000000).toModel.unpack)).toNat := by
    unfold ofNat Float.ofScientific
    rw [dif_pos ⟨short, by decide⟩]
    rfl
  have twice := log2_mul_two_pow product 52
  have place : ((number.log2 : Int) - 52 + -52 + (52 : Nat) + 1074).toNat = number.log2 + 1022 := by omega
  rw [word, factor, one]
  show (pack Format.binary64 (roundWithAccuracy Format.binary64 .positive
    (number * 2 ^ (52 - number.log2) * 2 ^ 52) ((number.log2 : Int) - 52 + -52) .exact)).toNat = _
  rw [@toNat_pack_rounded _ 52 _ (by rw [twice, size]) (by omega)
    (Nat.mul_ne_zero product (by decide)), place, nearest_mul, roundedRank, if_neg some,
    nearest_short some short]

end Short

/-- **The bits of the double nearest to a number.** -/
theorem toNat_toBits_ofNat (number : Nat) : (ofNat number).toBits.toNat = roundedRank number := by
  rcases Nat.eq_zero_or_pos number with rfl | positive
  · rfl
  rcases Nat.lt_or_ge number (2 ^ 53) with short | long
  · exact toNat_toBits_ofNat_short (Nat.pos_iff_ne_zero.1 positive) short
  · exact toNat_toBits_ofNat_long long

/-! ### The order of places -/

theorem roundedRank_le (number : Nat) : roundedRank number ≤ 2047 * 2 ^ 52 := by
  unfold roundedRank
  split
  · exact Nat.zero_le _
  · exact Nat.min_le_right _ _

theorem roundedRank_pos (some : number ≠ 0) : 0 < roundedRank number := by
  unfold roundedRank
  rw [if_neg some]
  exact Nat.lt_min.2 ⟨by omega, by decide⟩

/-- More places of a number count for more than what stands in them. -/
theorem roundedRank_mono (below : first ≤ second) : roundedRank first ≤ roundedRank second := by
  unfold roundedRank
  split
  · exact Nat.zero_le _
  rename_i some
  have other : second ≠ 0 := by omega
  have logs : first.log2 ≤ second.log2 :=
    (Nat.le_log2 other).2 (Nat.le_trans (Nat.log2_self_le some) below)
  rw [if_neg other]
  refine Nat.le_min.2 ⟨Nat.le_trans (Nat.min_le_left _ _) ?_, Nat.min_le_right _ _⟩
  rcases Nat.lt_or_eq_of_le logs with less | same
  · have most := (nearest_scaled some).2
    have least := (nearest_scaled other).1
    omega
  · rw [same]
    exact Nat.add_le_add_left (nearest_mono (Nat.mul_le_mul_right _ below)) _

theorem roundedRank_strictMono (below : first < second) (small : second ≤ 2 ^ 53) :
    roundedRank first < roundedRank second := by
  have other : second ≠ 0 := by omega
  rcases Nat.eq_zero_or_pos first with rfl | positive
  · exact roundedRank_pos other
  have some : first ≠ 0 := by omega
  have short : first < 2 ^ 53 := by omega
  have logs : first.log2 ≤ second.log2 :=
    (Nat.le_log2 other).2 (Nat.le_trans (Nat.log2_self_le some) (Nat.le_of_lt below))
  obtain ⟨few, _⟩ := log2_short some short
  obtain ⟨_, upper⟩ := scaled_short some short
  unfold roundedRank
  rw [if_neg some, if_neg other, nearest_short some short]
  refine Nat.lt_min.2 ⟨Nat.lt_of_le_of_lt (Nat.min_le_left _ _) ?_,
    Nat.lt_of_le_of_lt (Nat.min_le_left _ _) (by omega)⟩
  rcases Nat.lt_or_eq_of_le logs with less | same
  · have least := (nearest_scaled other).1
    omega
  · have shortToo : second < 2 ^ 53 := (Nat.log2_lt other).1 (by omega)
    rw [nearest_short other shortToo, ← same]
    exact Nat.add_lt_add_left (Nat.mul_lt_mul_of_pos_right below (Nat.two_pow_pos _)) _

/-! ### Integers -/

theorem rank_ofNat (number : Nat) :
    (ofNat number).isNaN = false ∧ rank (ofNat number) = roundedRank number := by
  have bits := toNat_toBits_ofNat number
  have below : (ofNat number).toBits.toNat ≤ 2047 * 2 ^ 52 := by
    rw [bits]
    exact roundedRank_le number
  have ranked := rank_of_toBits below
  rwa [bits] at ranked

theorem rank_ofInt (value : Int) :
    rank (ofInt value) =
      if value < 0 then -(roundedRank value.natAbs : Int) else roundedRank value.natAbs := by
  obtain ⟨number, ranked⟩ := rank_ofNat value.natAbs
  unfold ofInt
  split
  · rw [rank_neg number, ranked]
  · exact ranked

section Integers

variable {low high : Int}

/-- **Whole numbers keep their order** when they become doubles. -/
theorem rank_ofInt_mono (below : low ≤ high) : rank (ofInt low) ≤ rank (ofInt high) := by
  rw [rank_ofInt, rank_ofInt]
  split <;> split
  · have sizes : roundedRank high.natAbs ≤ roundedRank low.natAbs := roundedRank_mono (by omega)
    omega
  · omega
  · omega
  · have sizes : roundedRank low.natAbs ≤ roundedRank high.natAbs := roundedRank_mono (by omega)
    omega

/-- **Small whole numbers stay different.** -/
theorem rank_ofInt_strictMono (below : low < high) (one : low.natAbs ≤ 2 ^ 53)
    (two : high.natAbs ≤ 2 ^ 53) : rank (ofInt low) < rank (ofInt high) := by
  rw [rank_ofInt, rank_ofInt]
  split <;> split
  · have sizes : roundedRank high.natAbs < roundedRank low.natAbs := roundedRank_strictMono (by omega) one
    omega
  · have size : 0 < roundedRank low.natAbs := roundedRank_pos (by omega)
    omega
  · omega
  · have sizes : roundedRank low.natAbs < roundedRank high.natAbs := roundedRank_strictMono (by omega) two
    omega

end Integers

end Cascades.Double
