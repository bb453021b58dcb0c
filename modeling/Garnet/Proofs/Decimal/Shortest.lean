import Garnet.Decimal.Numeral
import Garnet.Decimal.Digits
import Garnet.Tree.Printer
import Mathlib.Algebra.Order.Field.Power
import Mathlib.Data.List.TakeWhile
import Mathlib.Data.Rat.Cast.Order
import Mathlib.Tactic.FieldSimp
import Mathlib.Tactic.Linarith
import Mathlib.Tactic.Positivity
import Mathlib.Tactic.Ring

/-!
# The shortest decimal of a double

A double is written with the fewest digits that read back as it. Whether a decimal does is a
comparison of rationals, and that there is one shapes what is written.
-/

/-!
## Finite doubles as rational numbers

The tests that the printer makes with whole numbers, read as comparisons of rationals: whether a
magnitude reaches a power of ten, which decimals round to it, and whether it is whole.
-/

namespace Garnet.Decimal.Finite

variable {x : Finite} {c : Nat} {k : Int}

/-- The weight of the last bit. -/
def ulp (x : Finite) : ℚ := 2 ^ x.exponent

/-- The magnitude. -/
def value (x : Finite) : ℚ := x.mantissa * x.ulp

/-- What the mantissa and the exponent of a double can be. -/
structure IsDouble (x : Finite) : Prop where
  mantissa_lt : x.mantissa < 2 * hiddenBit
  le_exponent : -1074 ≤ x.exponent
  exponent_le : x.exponent ≤ 971

theorem isDouble_of_ofFloat? {v : Float} (h : ofFloat? v = some x) : x.IsDouble := by
  have hfraction : v.toBits.toNat % hiddenBit < hiddenBit := Nat.mod_lt _ (by decide)
  have hbiased : v.toBits.toNat / hiddenBit % 0x800 < 0x800 := Nat.mod_lt _ (by decide)
  simp only [ofFloat?, beq_iff_eq] at h
  split at h
  · cases h
  · split at h <;> cases h <;> constructor <;> dsimp only <;> omega

theorem ulp_pos (x : Finite) : 0 < x.ulp := zpow_pos (by norm_num) _

theorem den_pos (x : Finite) : 0 < x.den := by
  rw [den, Nat.pow_eq]
  exact Nat.two_pow_pos _

theorem zpow_eq_div {a : ℚ} (ha : a ≠ 0) (e : Int) : a ^ e = a ^ e.toNat / a ^ (-e).toNat := by
  rw [← zpow_natCast, ← zpow_natCast, ← zpow_sub₀ ha]
  congr 1
  omega

theorem num_div_den (x : Finite) : (x.num : ℚ) / x.den = x.value := by
  rw [value, ulp, zpow_eq_div two_ne_zero]
  simp only [num, den, Nat.pow_eq]
  push_cast
  ring

theorem atLeastPow_iff : x.atLeastPow k ↔ (10 : ℚ) ^ k ≤ x.value := by
  have hden : (0 : ℚ) < x.den := by exact_mod_cast x.den_pos
  rw [← num_div_den, zpow_eq_div (by norm_num) k, div_le_div_iff₀ (by positivity) hden]
  simp only [atLeastPow, Nat.pow_eq, decide_eq_true_eq]
  exact_mod_cast Iff.rfl

/-! ### The decimals that round to a double -/

/-- A bound on the left and a decimal on the right of a comparison that `rounds` makes, each brought
to its value by the same factor. -/
theorem scaled (x : Finite) (a c : Nat) (k : Int) :
    ((a * (Nat.pow 2 x.exponent.toNat * Nat.pow 10 (-k).toNat) : Nat) : ℚ) =
        (a * x.ulp) * (10 ^ (-k).toNat * x.den) ∧
      ((4 * c * Nat.pow 10 k.toNat * x.den : Nat) : ℚ) =
        (4 * (c * 10 ^ k)) * (10 ^ (-k).toNat * x.den) := by
  simp only [ulp, den, Nat.pow_eq]
  rw [zpow_eq_div two_ne_zero x.exponent, zpow_eq_div (by norm_num : (10 : ℚ) ≠ 0) k]
  push_cast
  constructor <;> field_simp

/-- How far below the double the decimals that round to it begin. The doubles below a power of two
are twice as close as those above it. -/
def reachBelow (x : Finite) : ℚ :=
  if x.mantissa = hiddenBit ∧ -1074 < x.exponent then x.ulp / 4 else x.ulp / 2

theorem reachBelow_le (x : Finite) : x.reachBelow ≤ x.ulp / 2 := by
  have hu := x.ulp_pos
  unfold reachBelow
  split <;> linarith

/-- The test of `rounds` is membership in an interval around the double, closed for an even
mantissa. -/
theorem rounds_iff (hm : x.mantissa ≠ 0) :
    x.rounds c k ↔
      if x.mantissa % 2 = 0 then
        x.value - x.reachBelow ≤ c * 10 ^ k ∧ c * 10 ^ k ≤ x.value + x.ulp / 2
      else
        x.value - x.reachBelow < c * 10 ^ k ∧ c * 10 ^ k < x.value + x.ulp / 2 := by
  have hfactor : (0 : ℚ) < 10 ^ (-k).toNat * x.den := by
    have : (0 : ℚ) < x.den := by exact_mod_cast x.den_pos
    positivity
  have hfour : (0 : ℚ) < 4 := by norm_num
  have hlow : ((4 * x.mantissa -
      (if x.mantissa = hiddenBit ∧ -1074 < x.exponent then 1 else 2) : Nat) : ℚ) * x.ulp =
      4 * (x.value - x.reachBelow) := by
    unfold value reachBelow
    split <;> rw [Nat.cast_sub (by omega)] <;> push_cast <;> ring
  have hhigh : ((4 * x.mantissa + 2 : Nat) : ℚ) * x.ulp = 4 * (x.value + x.ulp / 2) := by
    unfold value
    push_cast
    ring
  simp only [rounds, Bool.and_eq_true, beq_iff_eq, decide_eq_true_eq, gt_iff_lt,
    ← @Nat.cast_le ℚ, ← @Nat.cast_lt ℚ, (scaled x _ c k).1, (scaled x 0 c k).2,
    mul_le_mul_iff_of_pos_right hfactor, mul_lt_mul_iff_of_pos_right hfactor, hlow, hhigh,
    mul_le_mul_iff_of_pos_left hfour, mul_lt_mul_iff_of_pos_left hfour]
  split <;> simp

theorem abs_sub_le_of_rounds (hm : x.mantissa ≠ 0) (h : x.rounds c k) :
    |c * 10 ^ k - x.value| ≤ x.ulp / 2 := by
  have hreach := x.reachBelow_le
  rw [rounds_iff hm] at h
  rw [abs_le]
  split at h <;> constructor <;> linarith [h.1, h.2]

theorem rounds_of_abs_sub_lt (hm : x.mantissa ≠ 0) (h : |c * 10 ^ k - x.value| < x.reachBelow) :
    x.rounds c k := by
  have hreach := x.reachBelow_le
  obtain ⟨hlow, hhigh⟩ := abs_lt.mp h
  rw [rounds_iff hm]
  split <;> constructor <;> linarith

/-! ### Whole doubles -/

theorem isIntegral_iff : x.isIntegral ↔ ∃ n : Nat, x.value = n := by
  have hden : (x.den : ℚ) ≠ 0 := by exact_mod_cast x.den_pos.ne'
  rw [← num_div_den, isIntegral, beq_iff_eq, ← Nat.dvd_iff_mod_eq_zero]
  constructor
  · rintro ⟨n, hn⟩
    exact ⟨n, by rw [hn]; push_cast; field_simp⟩
  · rintro ⟨n, hn⟩
    rw [div_eq_iff hden] at hn
    exact ⟨n, by rw [mul_comm]; exact_mod_cast hn⟩

/-- Only a whole double is what a whole number rounds to: the doubles with a fraction are less than
one apart. -/
theorem isIntegral_of_rounds (hm : x.mantissa ≠ 0) (h : x.rounds c k) {n : Nat}
    (hn : (c : ℚ) * 10 ^ k = n) : x.isIntegral := by
  rw [isIntegral_iff]
  by_cases he : 0 ≤ x.exponent
  · obtain ⟨e, he⟩ := Int.eq_ofNat_of_zero_le he
    exact ⟨x.mantissa * 2 ^ e, by simp [value, ulp, he]⟩
  · -- both numbers are multiples of the last bit, so being less than one bit apart they agree
    refine ⟨n, ?_⟩
    have hu := x.ulp_pos
    have hclose := abs_sub_le_of_rounds hm h
    have hwhole : (n : ℚ) = (n * 2 ^ (-x.exponent).toNat : Nat) * x.ulp := by
      rw [ulp, zpow_eq_div two_ne_zero, Int.toNat_of_nonpos (Int.le_of_not_le he)]
      push_cast
      field_simp
    rw [hn, hwhole, value, ← sub_mul, abs_mul, abs_of_pos hu, div_eq_inv_mul,
      mul_le_mul_iff_of_pos_right hu] at hclose
    have hsame : ((n * 2 ^ (-x.exponent).toNat : Nat) : Int) - x.mantissa = 0 := by
      rw [← Int.abs_lt_one_iff]
      have : |((n * 2 ^ (-x.exponent).toNat : Nat) : ℚ) - x.mantissa| < 1 := by
        linarith
      exact_mod_cast this
    rw [value, hwhole]
    congr 1
    have : ((n * 2 ^ (-x.exponent).toNat : Nat) : Int) = x.mantissa := by omega
    exact_mod_cast this.symm

end Garnet.Decimal.Finite

/-!
## The search for the fewest digits

For a double the search always ends at a decimal that rounds to it: with seventeen digits the grid
is finer than the interval of decimals that round to the double. The number that the search would
fall back on is never needed.
-/

namespace Garnet.Decimal.Finite

variable {x : Finite} {tie : Tie} {s : Scaled} {k : Int}

/-! ### The estimate of the magnitude -/

/-- The decimal logarithm of two is below `30103 / 100000`. -/
theorem two_pow_le_ten_pow {p e : Nat} (h : p * 30103 ≤ e * 100000) : 2 ^ p ≤ 10 ^ e := by
  have hlog : 2 ^ 100000 ≤ 10 ^ 30103 := by decide +kernel
  rw [← Nat.pow_le_pow_iff_left (n := 100000) (by decide)]
  calc (2 ^ p) ^ 100000 = (2 ^ 100000) ^ p := by rw [← pow_mul, ← pow_mul, mul_comm]
    _ ≤ (10 ^ 30103) ^ p := Nat.pow_le_pow_left hlog p
    _ = 10 ^ (p * 30103) := by rw [← pow_mul, mul_comm]
    _ ≤ 10 ^ (e * 100000) := Nat.pow_le_pow_right (by decide) h
    _ = (10 ^ e) ^ 100000 := pow_mul 10 e 100000

/-- The fraction is close enough to the logarithm for the powers of two among the doubles. -/
theorem ten_pow_le_two_pow : ∀ p < 1024, 10 ^ (p * 30103 / 100000) ≤ 2 ^ p := by
  -- the left side grows at one power of two in three, so fewer have to be looked at
  have hleast : ∀ e < 309, 10 ^ e ≤ 2 ^ ((e * 100000 + 30102) / 30103) := by decide +kernel
  intro p hp
  calc 10 ^ (p * 30103 / 100000)
      ≤ 2 ^ ((p * 30103 / 100000 * 100000 + 30102) / 30103) := hleast _ (by omega)
    _ ≤ 2 ^ p := Nat.pow_le_pow_right (by decide) (by omega)

theorem ten_zpow_estimate_le {p : Int} (hp : p < 1024) :
    (10 : ℚ) ^ Int.fdiv (p * 30103) 100000 ≤ 2 ^ p := by
  rw [Int.fdiv_eq_ediv_of_nonneg _ (by decide)]
  obtain ⟨q, rfl | rfl⟩ := p.eq_nat_or_neg
  · have hq := ten_pow_le_two_pow q (by omega)
    rw [show (q * 30103 / 100000 : Int) = (q * 30103 / 100000 : Nat) by omega, zpow_natCast,
      zpow_natCast]
    exact_mod_cast hq
  · obtain ⟨e, he⟩ : ∃ e : Nat, (-q * 30103 / 100000 : Int) = -e :=
      ⟨(-(-q * 30103 / 100000 : Int)).toNat, by omega⟩
    have hq : 2 ^ q ≤ 10 ^ e := two_pow_le_ten_pow (by omega)
    rw [he, zpow_neg, zpow_neg, zpow_natCast, zpow_natCast]
    exact inv_anti₀ (by positivity) (by exact_mod_cast hq)

theorem two_zpow_log2_le (hm : x.mantissa ≠ 0) :
    (2 : ℚ) ^ (x.mantissa.log2 + x.exponent) ≤ x.value := by
  rw [zpow_add₀ two_ne_zero, zpow_natCast]
  refine mul_le_mul_of_nonneg_right ?_ x.ulp_pos.le
  exact_mod_cast Nat.log2_self_le hm

theorem IsDouble.ten_zpow_le_value (hx : x.IsDouble) (hm : x.mantissa ≠ 0) :
    (10 : ℚ) ^ (x.magnitude - 1) ≤ x.value := by
  have hlog : x.mantissa.log2 < 53 := (Nat.log2_lt hm).mpr hx.mantissa_lt
  have hp : x.mantissa.log2 + x.exponent < 1024 := by
    have := hx.exponent_le
    omega
  unfold magnitude
  dsimp only
  split
  case isTrue h =>
    rw [add_sub_assoc]
    exact atLeastPow_iff.mp h
  case isFalse =>
    rw [add_sub_cancel_right]
    exact (ten_zpow_estimate_le hp).trans (two_zpow_log2_le hm)

/-! ### The neighbours on a grid -/

/-- On a grid as fine as seventeen digits make it, a point no further away than half a step is close
enough. -/
theorem IsDouble.rounds_of_near (hx : x.IsDouble) (hm : x.mantissa ≠ 0)
    (hk : (10 : ℚ) ^ k * 10 ^ 16 ≤ x.value) {c : Nat}
    (hc : |(c : ℚ) * 10 ^ k - x.value| ≤ 10 ^ k / 2) : x.rounds c k := by
  refine rounds_of_abs_sub_lt hm (hc.trans_lt ?_)
  have hu := x.ulp_pos
  unfold value at hk
  unfold reachBelow
  split
  case isTrue h =>
    rw [h.1, hiddenBit] at hk
    norm_num at hk
    linarith
  case isFalse =>
    have hlt : (x.mantissa : ℚ) * x.ulp ≤ 2 ^ 53 * x.ulp := by
      refine mul_le_mul_of_nonneg_right ?_ hu.le
      exact_mod_cast hx.mantissa_lt.le
    norm_num at hk hlt
    linarith

/-- The lower neighbour on the grid of multiples of `10 ^ k`. -/
def lower (x : Finite) (k : Int) : Nat :=
  x.num * Nat.pow 10 (-k).toNat / (x.den * Nat.pow 10 k.toNat)

theorem lower_mul_le (x : Finite) (k : Int) : (x.lower k : ℚ) * 10 ^ k ≤ x.value := by
  have hden : (0 : ℚ) < x.den := by exact_mod_cast x.den_pos
  have hdiv := Nat.div_mul_le_self (x.num * Nat.pow 10 (-k).toNat) (x.den * Nat.pow 10 k.toNat)
  rw [← lower] at hdiv
  rw [← num_div_den, zpow_eq_div (by norm_num : (10 : ℚ) ≠ 0), ← mul_div_assoc,
    div_le_div_iff₀ (by positivity) hden]
  simp only [Nat.pow_eq] at hdiv
  calc (x.lower k : ℚ) * 10 ^ k.toNat * x.den = (x.lower k * (x.den * 10 ^ k.toNat) : Nat) := by
        push_cast; ring
    _ ≤ (x.num * 10 ^ (-k).toNat : Nat) := by exact_mod_cast hdiv
    _ = x.num * 10 ^ (-k).toNat := by push_cast; ring

theorem value_le_succ_lower_mul (x : Finite) (k : Int) :
    x.value ≤ ((x.lower k + 1 : Nat) : ℚ) * 10 ^ k := by
  have hden : (0 : ℚ) < x.den := by exact_mod_cast x.den_pos
  have hbottom : 0 < x.den * Nat.pow 10 k.toNat :=
    Nat.mul_pos x.den_pos (by rw [Nat.pow_eq]; positivity)
  have hdiv := Nat.lt_div_mul_add (a := x.num * Nat.pow 10 (-k).toNat) hbottom
  rw [← lower] at hdiv
  rw [← num_div_den, zpow_eq_div (by norm_num : (10 : ℚ) ≠ 0), ← mul_div_assoc,
    div_le_div_iff₀ hden (by positivity)]
  simp only [Nat.pow_eq] at hdiv
  calc (x.num : ℚ) * 10 ^ (-k).toNat = (x.num * 10 ^ (-k).toNat : Nat) := by push_cast; ring
    _ ≤ (x.lower k * (x.den * 10 ^ k.toNat) + x.den * 10 ^ k.toNat : Nat) := by
        exact_mod_cast hdiv.le
    _ = ((x.lower k + 1 : Nat) : ℚ) * 10 ^ k.toNat * x.den := by push_cast; ring

theorem rounds_of_onGrid? (h : x.onGrid? tie k = some s) : x.rounds s.digits s.exponent := by
  simp only [onGrid?] at h
  split at h
  case h_1 hlow hhigh =>
    split at h
    · cases h; exact hlow
    · split at h
      · cases h; exact hhigh
      · cases tie
        · cases h
          dsimp only
          split <;> assumption
        · cases h; exact hhigh
  case h_2 hlow _ => cases h; exact hlow
  case h_3 hhigh => cases h; exact hhigh
  case h_4 => cases h

theorem onGrid?_isSome (h : x.rounds (x.lower k) k ∨ x.rounds (x.lower k + 1) k) :
    (x.onGrid? tie k).isSome := by
  simp only [onGrid?]
  split
  case h_1 =>
    split
    · rfl
    · split
      · rfl
      · cases tie <;> rfl
  case h_2 => rfl
  case h_3 => rfl
  case h_4 hlow hhigh =>
    rcases h with h | h
    · exact absurd h (ne_true_of_eq_false hlow)
    · exact absurd h (ne_true_of_eq_false hhigh)

theorem IsDouble.onGrid?_isSome (hx : x.IsDouble) (hm : x.mantissa ≠ 0)
    (hk : (10 : ℚ) ^ k * 10 ^ 16 ≤ x.value) : (x.onGrid? tie k).isSome := by
  have hlow := x.lower_mul_le k
  have hhigh := x.value_le_succ_lower_mul k
  have hstep : ((x.lower k + 1 : Nat) : ℚ) * 10 ^ k = x.lower k * 10 ^ k + 10 ^ k := by
    push_cast
    ring
  apply Finite.onGrid?_isSome
  -- the double lies between the neighbours, so one of them is within half a step
  rcases le_total (x.value - x.lower k * 10 ^ k) (10 ^ k / 2) with h | h
  · exact .inl (hx.rounds_of_near hm hk (abs_le.mpr ⟨by linarith, by linarith⟩))
  · exact .inr (hx.rounds_of_near hm hk (abs_le.mpr ⟨by linarith, by linarith⟩))

/-! ### The search -/

/-- What the search gives rounds to the double. -/
theorem IsDouble.rounds_shortest (hx : x.IsDouble) (hm : x.mantissa ≠ 0) (tie : Tie) :
    x.rounds (x.shortest tie).digits (x.shortest tie).exponent := by
  have hfine : (10 : ℚ) ^ (x.magnitude - ((16 : Nat) + 1)) * 10 ^ 16 ≤ x.value := by
    have h := hx.ten_zpow_le_value hm
    rw [← zpow_natCast 10 16, ← zpow_add₀ (by norm_num)]
    convert h using 2
    push_cast
    ring
  have hsome : ((List.range 17).findSome? fun n : Nat =>
      x.onGrid? tie (x.magnitude - (n + 1))).isSome :=
    List.findSome?_isSome_iff.mpr ⟨16, by decide, hx.onGrid?_isSome hm hfine⟩
  obtain ⟨s, hs⟩ := Option.isSome_iff_exists.mp hsome
  obtain ⟨n, -, hn⟩ := List.exists_of_findSome?_eq_some hs
  have hshortest : x.shortest tie = s := by simp only [shortest, hs, Option.getD_some]
  rw [hshortest]
  exact rounds_of_onGrid? hn

end Garnet.Decimal.Finite

/-!
## The written form of a double

A finite double in a tree is an optional minus and digits with a point among them. For a double with
a fraction this rests on the search for the fewest digits: a decimal that rounds to it has a digit
after the point.
-/

namespace Garnet.Decimal

/-- Digits with a point among them, a digit first. -/
structure Pointed (w : List Char) : Prop where
  head : ∃ d ds, w = d :: ds ∧ d.isDigit
  point : '.' ∈ w
  chars : ∀ c ∈ w, c.isDigit ∨ c = '.'

theorem digitsValue_toDigits (n : Nat) : digitsValue (Nat.toDigits 10 n) = n :=
  Nat.ofDigitChars_toDigits (by decide) (by decide)

theorem exists_toDigits_eq_cons (n : Nat) :
    ∃ d ds, Nat.toDigits 10 n = d :: ds ∧ ∀ c ∈ d :: ds, c.isDigit := by
  obtain ⟨d, ds, hds⟩ := List.exists_cons_of_ne_nil (Nat.toDigits_ne_nil (n := n) (b := 10))
  refine ⟨d, ds, hds, fun c hc => ?_⟩
  exact Nat.isDigit_of_mem_toDigits (b := 10) (n := n) (by decide) (by decide) (hds ▸ hc)

/-- What is written for a double reads back as an equal double. -/
def ReadsBack (x : Float) : Prop := ∃ y, float? (plainWithPoint x) = some y ∧ (y == x) = true

/-! ### Where the point stands -/

theorem Written.pointed_positional {w : Written} (hd : ∀ c ∈ w.digits, c.isDigit)
    (hp : w.point < w.digits.length) : Pointed w.positional := by
  unfold positional
  split
  case isTrue =>
    refine ⟨⟨'0', _, rfl, rfl⟩, by simp, ?_⟩
    intro c hc
    simp only [List.mem_append, List.mem_replicate] at hc
    rcases hc with (hc | ⟨-, rfl⟩) | hc
    · rcases List.mem_pair.mp hc with rfl | rfl
      · exact .inl rfl
      · exact .inr rfl
    · exact .inl rfl
    · exact .inl (hd c hc)
  case isFalse h =>
    rw [if_neg (by omega)]
    obtain ⟨d, ds, hds⟩ : ∃ d ds, w.digits = d :: ds :=
      List.exists_cons_of_length_pos (by omega)
    obtain ⟨n, hn⟩ : ∃ n, w.point.toNat = n + 1 := ⟨w.point.toNat - 1, by omega⟩
    refine ⟨⟨d, ds.take n ++ '.' :: ds.drop n, ?_, hd d (by simp [hds])⟩, by simp, ?_⟩
    · simp [hds, hn]
    · intro c hc
      rcases List.mem_append.mp hc with hc | hc
      · exact .inl (hd c (List.mem_of_mem_take hc))
      · rcases List.mem_cons.mp hc with rfl | hc
        · exact .inr rfl
        · exact .inl (hd c (List.mem_of_mem_drop hc))

/-- The digits of a scaled decimal are those that are kept and zeros. -/
theorem Scaled.exists_toDigits_eq (s : Scaled) :
    ∃ z, Nat.toDigits 10 s.digits = s.written.digits ++ List.replicate z '0' := by
  let zeros := (Nat.toDigits 10 s.digits).reverse.takeWhile (· == '0')
  have hzeros : zeros = List.replicate zeros.length '0' :=
    List.eq_replicate_iff.mpr ⟨rfl, fun c hc => by simpa using List.mem_takeWhile_imp hc⟩
  refine ⟨zeros.length, ?_⟩
  calc Nat.toDigits 10 s.digits
      = (zeros ++ (Nat.toDigits 10 s.digits).reverse.dropWhile (· == '0')).reverse := by
        rw [List.takeWhile_append_dropWhile, List.reverse_reverse]
    _ = s.written.digits ++ zeros.reverse := List.reverse_append
    _ = s.written.digits ++ List.replicate zeros.length '0' := by
        conv_lhs => rw [hzeros, List.reverse_replicate]

theorem Scaled.isDigit_of_mem_written {s : Scaled} {c : Char} (hc : c ∈ s.written.digits) :
    c.isDigit := by
  obtain ⟨z, hz⟩ := s.exists_toDigits_eq
  refine Nat.isDigit_of_mem_toDigits (b := 10) (n := s.digits) (by decide) (by decide) ?_
  rw [hz]
  exact List.mem_append_left _ hc

/-- A decimal that is not whole has a digit after the point. -/
theorem Scaled.point_lt {s : Scaled} (h : ∀ n : Nat, (s.digits : ℚ) * 10 ^ s.exponent ≠ n) :
    s.written.point < s.written.digits.length := by
  obtain ⟨z, hz⟩ := s.exists_toDigits_eq
  have hpoint : s.written.point = (Nat.toDigits 10 s.digits).length + s.exponent := rfl
  have hvalue : s.digits = 10 ^ z * digitsValue s.written.digits := by
    rw [← digitsValue_toDigits s.digits, hz]
    exact (Nat.ofDigitChars_append 0).trans Nat.ofDigitChars_replicate_zero
  by_contra hle
  -- otherwise the dropped zeros make up for the exponent
  obtain ⟨e, he⟩ : ∃ e : Nat, z + s.exponent = e := by
    refine Int.eq_ofNat_of_zero_le ?_
    rw [hpoint, hz, List.length_append, List.length_replicate] at hle
    omega
  apply h (digitsValue s.written.digits * 10 ^ e)
  rw [hvalue]
  push_cast
  rw [mul_comm ((10 : ℚ) ^ z), mul_assoc, ← zpow_natCast, ← zpow_add₀ (by norm_num), he,
    zpow_natCast]

/-! ### Doubles -/

theorem pointed_positional_shortest {x : Finite} (hx : x.IsDouble) (hm : x.mantissa ≠ 0)
    (hi : x.isIntegral = false) (tie : Tie) : Pointed (x.shortest tie).written.positional := by
  refine Written.pointed_positional (fun c => Scaled.isDigit_of_mem_written) (Scaled.point_lt ?_)
  intro n hn
  have := Finite.isIntegral_of_rounds hm (hx.rounds_shortest hm tie) hn
  exact absurd this (ne_true_of_eq_false hi)

/-- How a finite double is written in a tree. -/
theorem pointed_plainWithPoint {v : Float} {x : Finite} (hx : Finite.ofFloat? v = some x) :
    ∃ w, Pointed w ∧ plainWithPoint v = (if x.negative then ['-'] else []) ++ w := by
  unfold plainWithPoint
  simp only [hx]
  split
  case isTrue =>
    refine ⟨Nat.toDigits 10 x.whole ++ ['.', '0'], ⟨?_, by simp, ?_⟩, by simp⟩
    · obtain ⟨d, ds, hds, hdigit⟩ := exists_toDigits_eq_cons x.whole
      exact ⟨d, ds ++ ['.', '0'], by simp [hds], hdigit d List.mem_cons_self⟩
    · intro c hc
      rcases List.mem_append.mp hc with hc | hc
      · exact .inl (Nat.isDigit_of_mem_toDigits (by decide) (by decide) hc)
      · rcases List.mem_pair.mp hc with rfl | rfl
        · exact .inr rfl
        · exact .inl rfl
  case isFalse hi =>
    have hm : x.mantissa ≠ 0 := by
      intro hm
      simp [Finite.isIntegral, Finite.num, hm] at hi
    refine ⟨(x.shortest .up).written.positional, ?_, ?_⟩
    · exact pointed_positional_shortest (Finite.isDouble_of_ofFloat? hx) hm (by simpa using hi) .up
    · simp [plain, hx, hm]

/-- What is written for a double that is not finite. -/
theorem plainWithPoint_of_none {v : Float} (hv : Finite.ofFloat? v = none) :
    plainWithPoint v ∈ ["NaN".toList, "-inf".toList, "inf".toList] := by
  simp only [plainWithPoint, plain, hv]
  split
  · simp
  · split <;> simp

end Garnet.Decimal
