import Garnet.Decimal.Numeral
import Garnet.Number.Arithmetic
import Garnet.Proofs.Decimal.Shortest
import Garnet.Proofs.Equality.Doubles
import Mathlib

/-!
# Doubles nearest to integers

Doubles are compared as the numbers that they stand for, and an integer that is compared with a
double is rounded to the nearest one first. The rounding keeps the order to every integer that a
double can hold, so that it matters only to the integers above and below a whole double that come
out as the double itself.
-/

namespace Garnet.Doubles

open Float.Model (UnpackedFloat totalExponent)
open Float.Model.UnpackedFloat
open Float.Model.Format (binary64)
open Decimal (Finite)

/-! ## The number that a double stands for -/

def signed (s : Sign) (q : ℚ) : ℚ :=
  match s with
  | .negative => -q
  | .positive => q

/-- The least power of two that no double can hold. -/
def tooLarge : ℚ := 2 ^ 1024

theorem tooLarge_pos : 0 < tooLarge := by
  unfold tooLarge
  positivity

/-- The number that a double stands for. An infinity counts as the first power of two that is too
large, and what is not a number as zero. -/
def number : UnpackedFloat → ℚ
  | .infinity s => signed s tooLarge
  | .notANumber | .zero _ => 0
  | .finite s m e _ => signed s (m * 2 ^ e)

/-- The form in which a finite number is packed: the mantissa has 53 bits unless the exponent is the
least one. -/
structure Normal (m : Nat) (e : Int) : Prop where
  pos : 0 < m
  mantissa_lt : m < 2 ^ 53
  least_or : 2 ^ 52 ≤ m ∨ e = -1074
  le_exponent : -1074 ≤ e
  exponent_le : e ≤ 971

namespace Normal

variable {m n : Nat} {e f : Int}

theorem number_pos (h : Normal m e) : (0 : ℚ) < m * 2 ^ e := by
  have := h.pos
  positivity

theorem number_lt (h : Normal m e) : (m * 2 ^ e : ℚ) < tooLarge := by
  have hm : (m : ℚ) < 2 ^ 53 := by exact_mod_cast h.mantissa_lt
  have he : (2 : ℚ) ^ e ≤ 2 ^ (971 : Int) := zpow_le_zpow_right₀ (by norm_num) h.exponent_le
  calc (m * 2 ^ e : ℚ) < 2 ^ 53 * 2 ^ e := by gcongr
    _ ≤ 2 ^ 53 * 2 ^ (971 : Int) := by gcongr
    _ = tooLarge := by rw [tooLarge, ← zpow_natCast, ← zpow_natCast, ← zpow_add₀ two_ne_zero]; rfl

/-- A larger exponent makes a larger number: its mantissa has all 53 bits. -/
theorem number_lt_of_exponent_lt (hm : Normal m e) (hn : Normal n f) (h : e < f) :
    (m * 2 ^ e : ℚ) < n * 2 ^ f := by
  have hmantissa : (m : ℚ) < 2 ^ 53 := by exact_mod_cast hm.mantissa_lt
  have hlead : (2 : ℚ) ^ 52 ≤ n := by
    have := hm.le_exponent
    exact_mod_cast hn.least_or.resolve_right (by omega)
  calc (m * 2 ^ e : ℚ) < 2 ^ 53 * 2 ^ e := by gcongr
    _ = 2 ^ 52 * 2 ^ (e + 1) := by rw [zpow_add₀ two_ne_zero]; ring
    _ ≤ 2 ^ 52 * 2 ^ f := by
      have hpow : (2 : ℚ) ^ (e + 1) ≤ 2 ^ f := zpow_le_zpow_right₀ one_le_two h
      gcongr
    _ ≤ n * 2 ^ f := by gcongr

theorem compare_eq (hm : Normal m e) (hn : Normal n f) :
    (compare e f).then (compare m n) = compare (m * 2 ^ e : ℚ) (n * 2 ^ f) := by
  rcases lt_trichotomy e f with h | rfl | h
  · rw [compare_lt_iff_lt.mpr h, compare_lt_iff_lt.mpr (hm.number_lt_of_exponent_lt hn h)]
    rfl
  · have hpow : (0 : ℚ) < 2 ^ e := by positivity
    rw [compare_eq_iff_eq.mpr rfl, Ordering.eq_then]
    rcases lt_trichotomy m n with h | rfl | h
    · rw [compare_lt_iff_lt.mpr h, compare_lt_iff_lt.mpr (by gcongr)]
    · rw [compare_eq_iff_eq.mpr rfl, compare_eq_iff_eq.mpr rfl]
    · rw [compare_gt_iff_gt.mpr h, compare_gt_iff_gt.mpr (by gcongr)]
  · rw [compare_gt_iff_gt.mpr h, compare_gt_iff_gt.mpr (hn.number_lt_of_exponent_lt hm h)]
    rfl

end Normal

/-- What the bits of a double unpack to. -/
def Unpacked : UnpackedFloat → Prop
  | .finite _ m e _ => Normal m e
  | _ => True

theorem unpacked_unpack (b : BitVec binary64.numBits) : Unpacked (unpack binary64 b) := by
  have hmantissa : (unpackMantissa b).toNat < 2 ^ 52 := (unpackMantissa b).isLt
  have hexponent : (unpackExponent b).toNat < 2 ^ 11 := (unpackExponent b).isLt
  have hbias : (binary64.exponentBias : Int) = 1023 := rfl
  unfold unpack
  dsimp only
  by_cases hones : unpackExponent b = -1#11
  · rw [if_pos hones]
    split <;> trivial
  · have hones : (unpackExponent b).toNat ≠ 2047 := fun h => hones (BitVec.eq_of_toNat_eq h)
    rw [if_neg ‹_›]
    by_cases hzero : unpackExponent b = 0#11
    · rw [if_pos hzero]
      split
      · trivial
      · rename_i hm
        have hm : (unpackMantissa b).toNat ≠ 0 := fun h => hm (BitVec.eq_of_toNat_eq h)
        refine ⟨by omega, by omega, .inr ?_, ?_, ?_⟩ <;> rw [hzero, hbias] <;> decide
    · have hzero : (unpackExponent b).toNat ≠ 0 := fun h => hzero (BitVec.eq_of_toNat_eq h)
      rw [if_neg ‹_›]
      constructor <;> first | rw [lead_toNat] | rw [hbias]
      all_goals omega

section Order

variable {p q : UnpackedFloat}

theorem compare_neg_neg (a b : ℚ) : compare (-a) (-b) = (compare a b).swap := by
  rcases lt_trichotomy a b with h | rfl | h
  · rw [compare_lt_iff_lt.mpr h, compare_gt_iff_gt.mpr (neg_lt_neg h)]
    rfl
  · rw [compare_eq_iff_eq.mpr rfl, compare_eq_iff_eq.mpr rfl]
    rfl
  · rw [compare_gt_iff_gt.mpr h, compare_lt_iff_lt.mpr (neg_lt_neg h)]
    rfl

theorem compare_eq_number (hp : Unpacked p) (hq : Unpacked q) (hpn : p ≠ .notANumber)
    (hqn : q ≠ .notANumber) : p.compare q = some (compare (number p) (number q)) := by
  have lt {a b : ℚ} (h : a < b) : some Ordering.lt = some (compare a b) := by
    rw [compare_lt_iff_lt.mpr h]
  have gt {a b : ℚ} (h : b < a) : some Ordering.gt = some (compare a b) := by
    rw [compare_gt_iff_gt.mpr h]
  have eq (a : ℚ) : some Ordering.eq = some (compare a a) := by rw [compare_eq_iff_eq.mpr rfl]
  have hlarge := tooLarge_pos
  cases p with
  | notANumber => exact absurd rfl hpn
  | zero s =>
    cases q with
    | notANumber => exact absurd rfl hqn
    | zero r => exact eq 0
    | infinity r =>
      cases r with
      | negative => exact gt (neg_lt_zero.mpr hlarge)
      | positive => exact lt hlarge
    | finite r n f hn =>
      cases r with
      | negative => exact gt (neg_lt_zero.mpr hq.number_pos)
      | positive => exact lt hq.number_pos
  | infinity s =>
    cases q with
    | notANumber => exact absurd rfl hqn
    | zero r =>
      cases s with
      | negative => exact lt (neg_lt_zero.mpr hlarge)
      | positive => exact gt hlarge
    | infinity r =>
      cases s <;> cases r
      case negative.negative | positive.positive => exact eq _
      case negative.positive => exact lt (neg_lt_self hlarge)
      case positive.negative => exact gt (neg_lt_self hlarge)
    | finite r n f hn =>
      obtain ⟨hpos, hless⟩ := And.intro hq.number_pos hq.number_lt
      cases s <;> cases r
      case negative.negative => exact lt (neg_lt_neg hless)
      case negative.positive => exact lt ((neg_lt_zero.mpr hlarge).trans hpos)
      case positive.negative => exact gt ((neg_lt_zero.mpr hpos).trans hlarge)
      case positive.positive => exact gt hless
  | finite s m e hm =>
    obtain ⟨hpos, hless⟩ := And.intro hp.number_pos hp.number_lt
    cases q with
    | notANumber => exact absurd rfl hqn
    | zero r =>
      cases s with
      | negative => exact lt (neg_lt_zero.mpr hpos)
      | positive => exact gt hpos
    | infinity r =>
      cases s <;> cases r
      case negative.negative => exact gt (neg_lt_neg hless)
      case negative.positive => exact lt ((neg_lt_zero.mpr hpos).trans hlarge)
      case positive.negative => exact gt ((neg_lt_zero.mpr hlarge).trans hpos)
      case positive.positive => exact lt hless
    | finite r n f hn =>
      have hsame := Normal.compare_eq hp hq
      cases s <;> cases r
      case negative.negative =>
        refine congrArg some ?_
        rw [hsame]
        exact (compare_neg_neg _ _).symm
      case negative.positive => exact lt ((neg_lt_zero.mpr hpos).trans hq.number_pos)
      case positive.negative => exact gt ((neg_lt_zero.mpr hq.number_pos).trans hpos)
      case positive.positive => exact congrArg some hsame

end Order

variable {x y : Float}

/-- The number of a double that is one. -/
def toRat (x : Float) : ℚ := number x.toModel.unpack

theorem unpack_ne (hx : x.isNaN = false) : x.toModel.unpack ≠ .notANumber := by
  intro h
  have hx : x.toModel.unpack.isNaN = false := hx
  rw [h] at hx
  cases hx

/-- Nothing compares with what is not a number. -/
theorem compareFloats_nan (hy : y.isNaN = true) : Eval.compareFloats x y = none := by
  have hy : y.toModel.unpack.isNaN = true := hy
  have hunpack : y.toModel.unpack = .notANumber := by
    cases h : y.toModel.unpack with
    | notANumber => rfl
    | _ => rw [h] at hy; cases hy
  have hleft (p : UnpackedFloat) : p.compare .notANumber = none := by cases p <;> rfl
  have hright (p : UnpackedFloat) : UnpackedFloat.compare .notANumber p = none := rfl
  simp only [Eval.compareFloats, gt_iff_lt, Eval.lt_iff_compare, Eval.beq_iff_compare, hunpack,
    hleft, hright, reduceCtorEq, if_false]

/-- Doubles compare as the numbers that they stand for. -/
theorem compareFloats_eq_toRat (hx : x.isNaN = false) (hy : y.isNaN = false) :
    Eval.compareFloats x y = some (compare (toRat x) (toRat y)) := by
  have hcompare {x y : Float} (hx : x.isNaN = false) (hy : y.isNaN = false) :
      x.toModel.unpack.compare y.toModel.unpack = some (compare (toRat x) (toRat y)) :=
    compare_eq_number (unpacked_unpack _) (unpacked_unpack _) (unpack_ne hx) (unpack_ne hy)
  simp only [Eval.compareFloats, gt_iff_lt, Eval.lt_iff_compare, Eval.beq_iff_compare,
    hcompare hx hy, hcompare hy hx, Option.some.injEq, compare_lt_iff_lt, compare_eq_iff_eq]
  rcases lt_trichotomy (toRat x) (toRat y) with h | h | h
  · rw [if_pos h, compare_lt_iff_lt.mpr h]
  · rw [if_neg h.not_lt, if_neg h.not_gt, if_pos h, compare_eq_iff_eq.mpr h]
  · rw [if_neg h.not_gt, if_pos h, compare_gt_iff_gt.mpr h]

end Garnet.Doubles

namespace Garnet.Decimal.Finite

open Doubles

variable {x : Float} {f : Finite}

/-- The number with its sign. -/
def toRat (f : Finite) : ℚ := if f.negative then -f.value else f.value

theorem floor_eq (f : Finite) : f.floor = ⌊f.toRat⌋ := by
  have hquotient (n : Int) : ⌊(n : ℚ) / f.den⌋ = n / (f.den : Int) :=
    Rat.floor_intCast_div_natCast n f.den
  rw [floor, toRat, ← hquotient, ← num_div_den]
  split
  · push_cast
    rw [neg_div]
  · rfl

theorem toRat_eq_floor_iff : f.toRat = f.floor ↔ f.isIntegral := by
  rw [isIntegral_iff]
  have hvalue : 0 ≤ f.value := by
    have := f.ulp_pos
    unfold value
    positivity
  constructor
  · intro h
    refine ⟨f.floor.natAbs, ?_⟩
    have habs : |f.toRat| = f.value := by
      unfold toRat
      split
      · rw [abs_neg, abs_of_nonneg hvalue]
      · exact abs_of_nonneg hvalue
    rw [← habs, h, Nat.cast_natAbs, Int.cast_abs]
  · rintro ⟨n, hn⟩
    rw [floor_eq, toRat, hn]
    split
    · rw [← Int.cast_natCast, ← Int.cast_neg, Int.floor_intCast]
    · rw [Int.floor_natCast, Int.cast_natCast]

end Garnet.Decimal.Finite

namespace Garnet.Doubles

open Float.Model (UnpackedFloat totalExponent)
open Float.Model.UnpackedFloat
open Float.Model.Format (binary64)
open Decimal (Finite)

variable {x : Float} {f : Finite}

theorem signed_ofBitVec (b : BitVec binary64.numBits) (q : ℚ) :
    signed (.ofBitVec (unpackSign b)) q =
      if b.toNat / 0x8000000000000000 = 1 then -q else q := by
  have hb : b.toNat < 2 ^ 64 := b.isLt
  have hsign := sign_toNat (b := b)
  obtain h | h := BitVec.eq_zero_or_eq_one (unpackSign b)
  · rw [h] at hsign ⊢
    rw [if_neg (by change 0 = _ at hsign; omega)]
    rfl
  · rw [h] at hsign ⊢
    rw [if_pos (by change 1 = _ at hsign; omega)]
    rfl

/-- The parts of a double make up the number that it stands for. -/
theorem toRat_of_ofFloat? (h : Finite.ofFloat? x = some f) : toRat x = f.toRat := by
  have hbits : x.toBits.toNat = x.toModel.toBits.toBitVec.toNat := rfl
  have hbias : (binary64.exponentBias : Int) = 1023 := rfl
  unfold toRat Float.Model.unpack
  generalize (x.toModel.toBits.toBitVec : BitVec binary64.numBits) = b at hbits ⊢
  have hexponent := exponent_toNat (b := b)
  have hmantissa := mantissa_toNat (b := b)
  simp only [Finite.ofFloat?, hbits, beq_iff_eq, Finite.hiddenBit] at h
  unfold unpack
  dsimp only
  split at h
  · cases h
  · rename_i hones
    rw [if_neg fun h => hones (by rw [← hexponent, h]; rfl)]
    split at h
    · rename_i hzero
      cases h
      have hexponent : @unpackExponent binary64 b = 0#11 :=
        BitVec.eq_of_toNat_eq (by rw [hexponent, hzero]; rfl)
      rw [if_pos hexponent]
      split
      · rename_i hm
        rw [hm] at hmantissa
        simp [number, Finite.toRat, Finite.value, ← hmantissa]
      · simp only [number, signed_ofBitVec, hmantissa, Finite.toRat, Finite.value, Finite.ulp, beq_iff_eq]
        have hleast :
            ((@unpackExponent binary64 b).toNat : Int) - (binary64.exponentBias + 52) + 1 = -1074 := by
          rw [hexponent, hbias]
          rfl
        rw [← hleast]
        rfl
    · rename_i hzero
      cases h
      rw [if_neg fun h => hzero (by rw [← hexponent, h]; rfl)]
      simp only [number, signed_ofBitVec, lead_toNat, hmantissa, hexponent, Finite.toRat, Finite.value, Finite.ulp, beq_iff_eq, hbias, Nat.add_comm 0x10000000000000]
      rfl

/-- Which bits stand for the parts of a finite double. -/
theorem ofFloat?_eq_none_iff :
    Finite.ofFloat? x = none ↔ @unpackExponent binary64 x.toModel.toBits.toBitVec = -1#11 := by
  have hbits : x.toBits.toNat = x.toModel.toBits.toBitVec.toNat := rfl
  have hexponent := exponent_toNat (b := x.toModel.toBits.toBitVec)
  have hones : @unpackExponent binary64 x.toModel.toBits.toBitVec = -1#11 ↔
      x.toBits.toNat / 0x10000000000000 % 0x800 = 2047 := by
    rw [hbits, ← hexponent]
    exact ⟨fun h => by rw [h]; rfl, fun h => BitVec.eq_of_toNat_eq h⟩
  rw [hones]
  simp only [Finite.ofFloat?, beq_iff_eq, Finite.hiddenBit]
  split
  · simpa only [true_iff]
  · split <;> simpa only [reduceCtorEq, false_iff]

theorem isNaN_of_ofFloat? (h : Finite.ofFloat? x = some f) : x.isNaN = false := by
  have hones := mt ofFloat?_eq_none_iff.mpr (by rw [h]; nofun)
  change x.toModel.unpack.isNaN = false
  unfold Float.Model.unpack unpack
  dsimp only
  rw [if_neg hones]
  split
  · split <;> rfl
  · rfl

/-- A double without parts is infinite, or not a number. -/
theorem toRat_of_ofFloat?_none (h : Finite.ofFloat? x = none) (hx : x.isNaN = false) :
    toRat x = if x < 0.0 then -tooLarge else tooLarge := by
  have hinfinite : ∃ s, x.toModel.unpack = .infinity s := by
    have hx := unpack_ne hx
    unfold Float.Model.unpack unpack at hx ⊢
    dsimp only at hx ⊢
    rw [if_pos (ofFloat?_eq_none_iff.mp h)] at hx ⊢
    split at hx
    · exact ⟨_, if_pos ‹_›⟩
    · exact absurd rfl hx
  obtain ⟨s, hs⟩ := hinfinite
  have hzero : (0.0 : Float).toModel.unpack = .zero .positive := by rfl
  have hless : x < 0.0 ↔ s = .negative := by
    rw [Eval.lt_iff_compare, hs, hzero]
    cases s with
    | negative => exact ⟨fun _ => rfl, fun _ => rfl⟩
    | positive => exact ⟨nofun, nofun⟩
  rw [toRat, hs]
  cases s with
  | negative =>
    rw [if_pos (hless.mpr rfl)]
    rfl
  | positive =>
    rw [if_neg fun h => nomatch hless.mp h]
    rfl

/-! ## Rounding -/

section Rounding

theorem mantissa_shiftRight (em : ExtendedMantissa) (k : Nat) :
    (em >>> k).mantissa = em.mantissa / 2 ^ k := by
  induction k with
  | zero => exact (Nat.div_one _).symm
  | succ k ih =>
    change (em >>> k).mantissa / 2 = _
    rw [ih, Nat.div_div_eq_div_mul, Nat.pow_succ]

/-- Nothing is lost when only zeros are shifted out. -/
theorem shiftRight_exact (q k : Nat) :
    (⟨q * 2 ^ k, false, false⟩ : ExtendedMantissa) >>> k = ⟨q, false, false⟩ := by
  induction k generalizing q with
  | zero => rw [pow_zero, Nat.mul_one]; rfl
  | succ k ih =>
    change ((⟨q * 2 ^ (k + 1), false, false⟩ : ExtendedMantissa) >>> k).shiftRightOne = _
    rw [Nat.pow_succ, Nat.mul_comm (2 ^ k), ← Nat.mul_assoc, ih]
    simp [ExtendedMantissa.shiftRightOne]

theorem roundedMantissa_bounds (em : ExtendedMantissa) :
    em.mantissa ≤ em.roundedMantissa ∧ em.roundedMantissa ≤ em.mantissa + 1 := by
  obtain ⟨m, r, t⟩ := em
  cases r <;> cases t <;>
    simp only [ExtendedMantissa.roundedMantissa, ExtendedMantissa.accuracy,
      Accuracy.roundToNearestEven] <;> omega

/-- The mantissa after rounding away `k` bits. -/
def rounded (m k : Nat) : Nat := ((⟨m, false, false⟩ : ExtendedMantissa) >>> k).roundedMantissa

theorem rounded_bounds (m k : Nat) : m / 2 ^ k ≤ rounded m k ∧ rounded m k ≤ m / 2 ^ k + 1 := by
  have h := roundedMantissa_bounds ((⟨m, false, false⟩ : ExtendedMantissa) >>> k)
  rwa [mantissa_shiftRight] at h

theorem rounded_exact (q k : Nat) : rounded (q * 2 ^ k) k = q := by
  rw [rounded, shiftRight_exact]
  rfl

theorem targetExponent_eq (m : Nat) (e : Int) :
    binary64.targetExponent (totalExponent m e) = max (m.log2 - 52 + e) (-1074) := by
  have hbits : (binary64.mantissaBits : Int) = 53 := rfl
  have hleast : binary64.minExponent = -1074 := rfl
  rw [Float.Model.Format.targetExponent, totalExponent, hbits, hleast]
  omega

/-- A mantissa with its bits in place after `k` of them have been shifted out. -/
theorem shiftToTargetExponent_eq {m k : Nat} {e : Int} (hm : m.log2 = 52 + k) (he : -1074 ≤ e + k) :
    shiftToTargetExponent binary64 m e .exact =
      ((⟨m, false, false⟩ : ExtendedMantissa) >>> k, e + k) := by
  have hshift : (max ((m.log2 : Int) - 52 + e) (-1074) - e).toNat = k := by omega
  simp only [shiftToTargetExponent, shiftToExponent, targetExponent_eq, hshift,
    ExtendedMantissa.ofMantissaAndAccuracy]

/-- The number after rounding, in the form in which it is packed. -/
theorem roundWithAccuracy_eq {m k : Nat} {e : Int} (s : Sign) (hm : m.log2 = 52 + k)
    (he : -1074 ≤ e + k) :
    ∃ n f h, roundWithAccuracy binary64 s m e .exact = .finite s n f h ∧ 2 ^ 52 ≤ n ∧ n < 2 ^ 53 ∧
      e + k ≤ f ∧ (n * 2 ^ f : ℚ) = rounded m k * 2 ^ (e + k) := by
  have hm0 : m ≠ 0 := by rintro rfl; simp at hm; omega
  have hlow : 2 ^ 52 ≤ m / 2 ^ k := by
    rw [Nat.le_div_iff_mul_le (by positivity), ← Nat.pow_add, ← hm]
    exact Nat.log2_self_le hm0
  have hhigh : m / 2 ^ k < 2 ^ 53 := by
    rw [Nat.div_lt_iff_lt_mul (by positivity), ← Nat.pow_add, ← Nat.log2_lt hm0]
    omega
  obtain ⟨hq, hq'⟩ := rounded_bounds m k
  -- rounding up may come to one bit more, which is shifted out again
  obtain ⟨n, j, hn, hn', hj, hvalue⟩ : ∃ n j : Nat, 2 ^ 52 ≤ n ∧ n < 2 ^ 53 ∧
      (rounded m k).log2 = 52 + j ∧ rounded m k = n * 2 ^ j := by
    rcases (by omega : rounded m k < 2 ^ 53 ∨ rounded m k = 2 ^ 53) with hless | heq
    · refine ⟨rounded m k, 0, by omega, hless, ?_, by rw [pow_zero, Nat.mul_one]⟩
      exact (Nat.log2_eq_iff (by omega)).mpr ⟨by omega, by omega⟩
    · refine ⟨2 ^ 52, 1, le_rfl, by decide, ?_, heq⟩
      rw [heq, Nat.log2_two_pow]
  refine ⟨n, e + k + j, by omega, ?_, hn, hn', by omega, ?_⟩
  · have hsecond : shiftToTargetExponent binary64 (rounded m k) (e + k) .exact =
        (⟨n, false, false⟩, e + k + j) := by
      rw [shiftToTargetExponent_eq (e := e + k) hj (by omega), hvalue, shiftRight_exact]
    have hn0 : n ≠ 0 := by omega
    unfold roundWithAccuracy
    rw [shiftToTargetExponent_eq hm he]
    dsimp only
    rw [← rounded, hsecond]
    exact dif_neg hn0
  · rw [hvalue, zpow_add₀ two_ne_zero (e + k), zpow_natCast]
    push_cast
    ring

/-- The numbers that a mantissa of 53 bits can stand for are multiples of `2 ^ k` where `k` bits are
rounded away. -/
theorem dvd_of_mantissa_lt {a j k : Nat} (ha : a < 2 ^ 53) (h : 2 ^ (52 + k) ≤ a * 2 ^ j) :
    2 ^ k ∣ a * 2 ^ j := by
  refine dvd_mul_of_dvd_right (Nat.pow_dvd_pow 2 ?_) a
  by_contra hjk
  have hpow : 2 ^ (53 + j) ≤ 2 ^ (52 + k) := Nat.pow_le_pow_right (by decide) (by omega)
  have hless : a * 2 ^ j < 2 ^ (53 + j) := by
    rw [Nat.pow_add]
    exact Nat.mul_lt_mul_of_pos_right ha (by positivity)
  omega

/-- Rounding does not pass a number that a mantissa of 53 bits can stand for. -/
theorem rounded_monotone {m k a j : Nat} (hm : m ≠ 0) (hlog : m.log2 = 52 + k) (ha : a < 2 ^ 53) :
    (m ≤ a * 2 ^ j → rounded m k * 2 ^ k ≤ a * 2 ^ j) ∧
      (a * 2 ^ j ≤ m → a * 2 ^ j ≤ rounded m k * 2 ^ k) := by
  have hlow : 2 ^ (52 + k) ≤ m := hlog ▸ Nat.log2_self_le hm
  have hdiv : m / 2 ^ k * 2 ^ k ≤ m := Nat.div_mul_le_self m _
  have hlead : 2 ^ (52 + k) ≤ m / 2 ^ k * 2 ^ k := by
    rw [Nat.pow_add]
    refine Nat.mul_le_mul_right _ ?_
    rwa [Nat.le_div_iff_mul_le (by positivity), ← Nat.pow_add]
  obtain ⟨hdown, hup⟩ := rounded_bounds m k
  constructor
  · intro h
    obtain ⟨c, hc⟩ := dvd_of_mantissa_lt ha (hlow.trans h)
    rw [hc, Nat.mul_comm (2 ^ k)] at h ⊢
    by_cases hless : m / 2 ^ k < c
    · exact Nat.mul_le_mul_right _ (by omega)
    · have heq : m = c * 2 ^ k :=
        h.antisymm ((Nat.mul_le_mul_right _ (Nat.le_of_not_lt hless)).trans hdiv)
      rw [heq, rounded_exact]
  · intro h
    refine le_trans ?_ (Nat.mul_le_mul_right (2 ^ k) hdown)
    rcases Nat.lt_or_ge (a * 2 ^ j) (2 ^ (52 + k)) with hless | hge
    · exact hless.le.trans hlead
    · obtain ⟨c, hc⟩ := dvd_of_mantissa_lt ha hge
      rw [hc, Nat.mul_comm (2 ^ k)] at h ⊢
      exact Nat.mul_le_mul_right _ ((Nat.le_div_iff_mul_le (by positivity)).mpr h)

theorem log2_mul_two_pow {m : Nat} (hm : m ≠ 0) (k : Nat) : (m * 2 ^ k).log2 = m.log2 + k := by
  have hpos : 0 < 2 ^ k := by positivity
  rw [Nat.log2_eq_iff (Nat.mul_ne_zero hm hpos.ne'), Nat.pow_add, Nat.add_right_comm, Nat.pow_add]
  exact ⟨Nat.mul_le_mul_right _ (Nat.log2_self_le hm),
    Nat.mul_lt_mul_of_pos_right Nat.lt_log2_self hpos⟩

/-- A magnitude is rounded without passing a number that a mantissa of 53 bits can stand for. -/
theorem round_eq {m : Nat} (s : Sign) (hm : m ≠ 0) :
    ∃ n e h, round binary64 s m 0 = .finite s n e h ∧ 2 ^ 52 ≤ n ∧ n < 2 ^ 53 ∧ -1074 ≤ e ∧
      ∀ a j : Nat, a < 2 ^ 53 →
        (m ≤ a * 2 ^ j → (n * 2 ^ e : ℚ) ≤ a * 2 ^ j) ∧
          (a * 2 ^ j ≤ m → (a * 2 ^ j : ℚ) ≤ n * 2 ^ e) := by
  -- bits that are missing from the mantissa, and bits that it has too many
  obtain ⟨l, hl⟩ : ∃ l, l = 52 - m.log2 := ⟨_, rfl⟩
  obtain ⟨k, hk⟩ : ∃ k, k = m.log2 - 52 := ⟨_, rfl⟩
  have hround :
      round binary64 s m 0 = roundWithAccuracy binary64 s (m * 2 ^ l) (-(l : Int)) .exact := by
    have hshift : (-max ((m.log2 : Int) - 52 + 0) (-1074)).toNat = l := by omega
    simp only [Float.Model.UnpackedFloat.round, decreaseExponent, targetExponent_eq,
      Nat.shiftLeft_eq, Int.zero_sub, hshift]
  obtain ⟨n, e, h, heq, hn, hn', he, hvalue⟩ :=
    roundWithAccuracy_eq (m := m * 2 ^ l) (k := k) (e := -(l : Int)) s
      (by rw [log2_mul_two_pow hm]; omega) (by omega)
  refine ⟨n, e, h, hround.trans heq, hn, hn', by omega, fun a j ha => ?_⟩
  rw [hvalue]
  rcases Nat.eq_zero_or_pos k with hk0 | hk0
  · have hm : (rounded (m * 2 ^ l) k * 2 ^ (-(l : Int) + k) : ℚ) = m := by
      have hexact : rounded (m * 2 ^ l) 0 = m * 2 ^ l := by
        rw [← Nat.mul_one (m * 2 ^ l), ← pow_zero 2, rounded_exact]
        simp
      rw [hk0, hexact, Int.natCast_zero, Int.add_zero, zpow_neg, zpow_natCast]
      push_cast
      field_simp
    rw [hm]
    constructor <;> intro h <;> exact_mod_cast h
  · have hl0 : l = 0 := by omega
    obtain ⟨hup, hdown⟩ := rounded_monotone (j := j) hm (k := k) (by omega) ha
    rw [hl0, pow_zero, Nat.mul_one, Int.natCast_zero, Int.neg_zero, Int.zero_add, zpow_natCast]
    exact ⟨fun h => by exact_mod_cast hup h, fun h => by exact_mod_cast hdown h⟩

end Rounding

/-! ## Integers as doubles -/

/-- A number of 53 bits is packed as it is, unless it is too large. -/
theorem unpack_pack {n : Nat} {e : Int} (s : Sign) (h : 0 < n) (hn : 2 ^ 52 ≤ n) (hn' : n < 2 ^ 53)
    (he : -1074 ≤ e) :
    (Float.Model.pack (.finite s n e h)).unpack =
      if e ≤ 971 then .finite s n e h else .infinity s := by
  have hlog : n.log2 + 1 = binary64.mantissaBits := by
    rw [(Nat.log2_eq_iff (by omega)).mpr ⟨hn, hn'⟩]
    rfl
  obtain ⟨b, hb⟩ : ∃ b, b =
      (e + binary64.exponentBias + binary64.mantissaBitsWithoutImplicit).toNat := ⟨_, rfl⟩
  have hb' : b = (e + 1023 + 52).toNat := hb
  change unpack binary64 (UnpackedFloat.pack binary64 _) = _
  simp only [UnpackedFloat.pack, hlog, ← hb]
  by_cases hlarge : e ≤ 971
  · rw [if_pos hlarge, if_neg (by change ¬2048 ≤ _; omega), if_pos trivial]
    have hexponent : (BitVec.ofNat 11 b).toNat = b := by
      rw [BitVec.toNat_ofNat, Nat.mod_eq_of_lt (by omega)]
    have hmantissa : (1#1 ++ BitVec.ofNat 52 n).toNat = n := by
      rw [lead_toNat, BitVec.toNat_ofNat]
      omega
    have hones : BitVec.ofNat 11 b ≠ -1#11 := by
      intro h
      rw [h] at hexponent
      change 2047 = b at hexponent
      omega
    have hzero : BitVec.ofNat 11 b ≠ 0#11 := by
      intro h
      rw [h] at hexponent
      change 0 = b at hexponent
      omega
    simp only [unpack, unpackExponent_packComponents, unpackMantissa_packComponents,
      unpackSign_packComponents, Sign.ofBitVec_toBitVec]
    rw [if_neg hones, if_neg hzero]
    simp only [hexponent, hmantissa]
    congr 1
    change (b : Int) - (1023 + 52) = e
    omega
  · rw [if_neg hlarge, if_pos (by change 2048 ≤ _; omega)]
    cases s <;> rfl

/-- A double can hold these integers, or a double with one more bit for its exponent could. -/
structure Fits (y : Int) : Prop where
  mantissa : ∃ a j : Nat, a < 2 ^ 53 ∧ y.natAbs = a * 2 ^ j
  le_tooLarge : (y.natAbs : ℚ) ≤ tooLarge

theorem fits_zero : Fits 0 := ⟨⟨0, 0, by decide, rfl⟩, by simpa using tooLarge_pos.le⟩

/-- A magnitude that is not on the other side of an integer that fits. -/
def Follows (m : Nat) (w : ℚ) : Prop :=
  ∀ y : Int, Fits y → (m ≤ y.natAbs → w ≤ y.natAbs) ∧ (y.natAbs ≤ m → (y.natAbs : ℚ) ≤ w)

/-- A number that is not on the other side of an integer that fits. -/
def Stands (i : Int) (q : ℚ) : Prop :=
  ∀ y : Int, Fits y → (i ≤ y → q ≤ y) ∧ (y ≤ i → (y : ℚ) ≤ q)

theorem Follows.stands {m : Nat} {w : ℚ} (h : Follows m w) (s : Sign) :
    Stands (s.apply m) (signed s w) := by
  have hpos : 0 ≤ w := by simpa using (h 0 fits_zero).2 (Nat.zero_le m)
  intro y hy
  obtain ⟨hup, hdown⟩ := h y hy
  rcases le_total 0 y with hy0 | hy0
  · have habs : (y.natAbs : ℚ) = y := by rw [Nat.cast_natAbs, abs_of_nonneg hy0]
    have hy0' : (0 : ℚ) ≤ y := by exact_mod_cast hy0
    rw [habs] at hup hdown
    cases s with
    | negative =>
      change (-(m : Int) ≤ y → -w ≤ y) ∧ (y ≤ -(m : Int) → (y : ℚ) ≤ -w)
      refine ⟨fun _ => by linarith, fun hle => ?_⟩
      have : w ≤ y := hup (by omega)
      obtain rfl : y = 0 := by omega
      rw [Int.cast_zero] at this ⊢
      linarith
    | positive => exact ⟨fun hle => hup (by change (m : Int) ≤ y at hle; omega),
        fun hle => hdown (by change y ≤ (m : Int) at hle; omega)⟩
  · have habs : (y.natAbs : ℚ) = -y := by rw [Nat.cast_natAbs, abs_of_nonpos hy0, Int.cast_neg]
    have hy0' : (y : ℚ) ≤ 0 := by exact_mod_cast hy0
    rw [habs] at hup hdown
    cases s with
    | negative =>
      change (-(m : Int) ≤ y → -w ≤ y) ∧ (y ≤ -(m : Int) → (y : ℚ) ≤ -w)
      exact ⟨fun hle => neg_le.mp (hdown (by omega)), fun hle => le_neg.mp (hup (by omega))⟩
    | positive =>
      change ((m : Int) ≤ y → w ≤ y) ∧ (y ≤ (m : Int) → (y : ℚ) ≤ w)
      refine ⟨fun hle => ?_, fun _ => hy0'.trans hpos⟩
      have : w ≤ -y := hup (by omega)
      obtain rfl : y = 0 := by omega
      simpa using this

/-- A magnitude does not pass on its way into a double what fits. -/
theorem number_round {m : Nat} (s : Sign) (hm : m ≠ 0) :
    ∃ w : ℚ, number (Float.Model.pack (.round binary64 s m 0)).unpack = signed s w ∧
      (Float.Model.pack (.round binary64 s m 0)).unpack ≠ .notANumber ∧
      Follows m w := by
  obtain ⟨n, e, h, heq, hn, hn', he, hmonotone⟩ := round_eq s hm
  rw [heq, unpack_pack s h hn hn' he]
  by_cases hlarge : e ≤ 971
  · rw [if_pos hlarge]
    refine ⟨n * 2 ^ e, rfl, nofun, fun y ⟨⟨a, j, ha, hy⟩, _⟩ => ?_⟩
    have := hmonotone a j ha
    rw [hy]
    push_cast
    exact this
  · rw [if_neg hlarge]
    refine ⟨tooLarge, rfl, nofun, fun y ⟨⟨a, j, ha, hy⟩, hle⟩ => ⟨fun hmy => ?_, fun _ => hle⟩⟩
    have hlead : (2 : ℚ) ^ 52 ≤ n := by exact_mod_cast hn
    have hpow : (2 : ℚ) ^ (972 : Int) ≤ 2 ^ e := zpow_le_zpow_right₀ one_le_two (by omega)
    calc tooLarge = 2 ^ 52 * 2 ^ (972 : Int) := by
          rw [tooLarge, ← zpow_natCast, ← zpow_natCast, ← zpow_add₀ two_ne_zero]; rfl
      _ ≤ n * 2 ^ e := by gcongr
      _ ≤ y.natAbs := by
          have := (hmonotone a j ha).1 (hy ▸ hmy)
          rw [hy]
          push_cast
          exact this

/-- The double nearest to an integer is a number, and it is not on the other side of an integer that
fits. -/
theorem ofInt_spec (i : Int) :
    (Decimal.ofInt i).isNaN = false ∧ Stands i (toRat (Decimal.ofInt i)) := by
  have hnumber {u : UnpackedFloat} (h : u ≠ .notANumber) : u.isNaN = false := by
    cases u with
    | notANumber => exact absurd rfl h
    | _ => rfl
  have hround (s : Sign) {m : Nat} (hm : m ≠ 0)
      (heq : UnpackedFloat.normalize binary64 (s.apply m) 0 .positive = .round binary64 s m 0) :
      (Decimal.ofInt (s.apply m)).isNaN = false ∧ Stands (s.apply m) (toRat (Decimal.ofInt (s.apply m))) := by
    change (Float.Model.pack (UnpackedFloat.normalize _ _ _ _)).unpack.isNaN = false ∧
      Stands _ (number (Float.Model.pack (UnpackedFloat.normalize _ _ _ _)).unpack)
    obtain ⟨w, hw, hnan, hfollows⟩ := number_round s hm
    rw [heq, hw]
    exact ⟨hnumber hnan, hfollows.stands s⟩
  rcases lt_trichotomy i 0 with hi | rfl | hi
  · obtain ⟨m, rfl⟩ : ∃ m : Nat, i = Sign.negative.apply m := ⟨i.natAbs, by change i = -_; omega⟩
    refine hround .negative (by rintro rfl; exact absurd hi (by decide)) ?_
    rw [UnpackedFloat.normalize, compare_lt_iff_lt.mpr hi]
    change UnpackedFloat.round _ _ (- -(m : Int)).toNat 0 = _
    rw [Int.neg_neg, Int.toNat_natCast]
  · refine ⟨rfl, fun y _ => ?_⟩
    have hzero : toRat (Decimal.ofInt 0) = 0 := rfl
    rw [hzero]
    exact ⟨fun h => by exact_mod_cast h, fun h => by exact_mod_cast h⟩
  · obtain ⟨m, rfl⟩ : ∃ m : Nat, i = Sign.positive.apply m := ⟨i.natAbs, by change i = (i.natAbs : Int); omega⟩
    refine hround .positive (by rintro rfl; exact absurd hi (by decide)) ?_
    rw [UnpackedFloat.normalize, compare_gt_iff_gt.mpr hi]
    rfl

theorem fits_of_natAbs_le {y : Int} (h : y.natAbs ≤ 2 ^ 53) : Fits y := by
  constructor
  · rcases Nat.lt_or_eq_of_le h with hlt | heq
    · exact ⟨y.natAbs, 0, hlt, by rw [pow_zero, Nat.mul_one]⟩
    · exact ⟨1, 53, by decide, by rw [heq, Nat.one_mul]⟩
  · have hbound : (y.natAbs : ℚ) ≤ 2 ^ 53 := by exact_mod_cast h
    refine hbound.trans ?_
    rw [tooLarge]
    exact pow_le_pow_right₀ one_le_two (by decide)

/-- A double can hold the least and the greatest integer next to it. -/
theorem fits_floor (h : Finite.ofFloat? x = some f) :
    Fits f.floor ∧ (¬f.isIntegral → Fits (f.floor + 1)) := by
  obtain ⟨hmantissa, -, hexponent⟩ := Finite.isDouble_of_ofFloat? h
  have hmantissa : f.mantissa < 2 ^ 53 := hmantissa
  rcases le_or_gt 0 f.exponent with he | he
  · -- a whole number of units
    have hden : f.den = 1 := by
      rw [Finite.den, Int.toNat_of_nonpos (by omega)]
    have hfloor : f.floor.natAbs = f.mantissa * 2 ^ f.exponent.toNat := by
      have hnum : f.floor.natAbs = f.num := by
        rw [Finite.floor, hden, Nat.cast_one, Int.ediv_one]
        split <;> omega
      exact hnum
    refine ⟨⟨⟨_, _, hmantissa, hfloor⟩, ?_⟩, fun hwhole => ?_⟩
    · rw [hfloor]
      have hm : (f.mantissa : ℚ) ≤ 2 ^ 53 := by exact_mod_cast hmantissa.le
      have hpow : (2 : ℚ) ^ f.exponent.toNat ≤ 2 ^ 971 := pow_le_pow_right₀ one_le_two (by omega)
      calc ((f.mantissa * 2 ^ f.exponent.toNat : Nat) : ℚ) = f.mantissa * 2 ^ f.exponent.toNat := by
            push_cast; rfl
        _ ≤ 2 ^ 53 * 2 ^ 971 := by gcongr
        _ = tooLarge := by rw [tooLarge, ← pow_add]
    · exact absurd (by rw [Finite.isIntegral, hden, Nat.mod_one]; rfl) hwhole
  · -- less than the greatest mantissa
    have hvalue : f.value ≤ 2 ^ 52 := by
      have hm : (f.mantissa : ℚ) ≤ 2 ^ 53 := by exact_mod_cast hmantissa.le
      have hulp : f.ulp ≤ 2 ^ (-1 : Int) := zpow_le_zpow_right₀ one_le_two (by omega)
      calc f.value ≤ 2 ^ 53 * 2 ^ (-1 : Int) := by
            unfold Finite.value
            have := f.ulp_pos
            gcongr
        _ = 2 ^ 52 := by norm_num
    have hnonneg : 0 ≤ f.value := by
      have := f.ulp_pos
      unfold Finite.value
      positivity
    have hrat : -2 ^ 52 ≤ f.toRat ∧ f.toRat ≤ 2 ^ 52 := by
      unfold Finite.toRat
      split <;> constructor <;> linarith
    have hlow : -2 ^ 52 ≤ f.floor := by
      rw [Finite.floor_eq, Int.le_floor]
      exact_mod_cast hrat.1
    have hhigh : f.floor ≤ 2 ^ 52 := by
      have := (Finite.floor_eq f ▸ Int.floor_le f.toRat).trans hrat.2
      exact_mod_cast this
    exact ⟨fits_of_natAbs_le (by omega), fun _ => fits_of_natAbs_le (by omega)⟩

end Garnet.Doubles
