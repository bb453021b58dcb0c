import Garnet.Proofs.Adding
import Garnet.Proofs.Comparisons
import Mathlib.Algebra.Ring.Parity
import Mathlib.Data.Rat.Floor

/-!
# Division and powers of integers

What division rounded down and the loop of Euclid come to, and the operations of integers that are
built on them.

A power is exact as long as its exponent has 32 bits, and there the exponents of a product add up.
Beyond that it is an infinity, whatever the base.
-/

namespace Garnet

namespace Number

variable {i j q r : Int}

/-! ## Division rounded down -/

/-- `q` and `r` are the quotient of `i` by `j` rounded down and the remainder to it. -/
structure FloorDivision (i j q r : Int) : Prop where
  sum : i = q * j + r
  sign : r = 0 ∨ r.sign = j.sign
  less : |r| < |j|

namespace FloorDivision

/-- A remainder that is negative just when the divisor is. -/
theorem of_sign (hsum : i = q * j + r) (hless : |r| < |j|) (hsign : r < 0 ↔ j < 0) :
    FloorDivision i j q r := by
  refine ⟨hsum, ?_, hless⟩
  rcases lt_trichotomy r 0 with hr | hr | hr
  · exact .inr (by rw [Int.sign_eq_neg_one_of_neg hr, Int.sign_eq_neg_one_of_neg (hsign.mp hr)])
  · exact .inl hr
  · have hj : 0 < j := by
      rcases lt_trichotomy j 0 with hj | rfl | hj
      · exact absurd (hsign.mpr hj) (not_lt_of_gt hr)
      · exact absurd hless (by simp)
      · exact hj
    exact .inr (by rw [Int.sign_eq_one_of_pos hr, Int.sign_eq_one_of_pos hj])

/-- One step down from a quotient whose remainder has the other sign. -/
theorem of_other_sign (hsum : i = q * j + r) (hless : |r| < |j|) (hr : r ≠ 0)
    (hsign : ¬(r < 0 ↔ j < 0)) : FloorDivision i j (q - 1) (r + j) := by
  have hsum' : i = (q - 1) * j + (r + j) := by rw [hsum]; ring
  rcases lt_or_ge j 0 with hj | hj
  · have hpos : 0 < r := by omega
    rw [abs_of_pos hpos, abs_of_neg hj] at hless
    refine of_sign hsum' ?_ (by omega)
    rw [abs_of_neg hj, abs_of_neg (by omega)]
    omega
  · have hneg : r < 0 := by omega
    rw [abs_of_neg hneg, abs_of_nonneg hj] at hless
    refine of_sign hsum' ?_ (by omega)
    rw [abs_of_nonneg hj, abs_of_nonneg (by omega)]
    omega

theorem ne_zero (h : FloorDivision i j q r) : j ≠ 0 := by
  rintro rfl
  exact absurd h.less (by simp)

/-- The remainder is a part of the divisor. -/
theorem part (h : FloorDivision i j q r) : 0 ≤ (r / j : ℚ) ∧ (r / j : ℚ) < 1 := by
  constructor
  · rcases h.sign with rfl | hsign
    · simp
    · rcases lt_or_gt_of_ne h.ne_zero with hj | hj
      · have hr : r < 0 := by
          rw [← Int.sign_eq_neg_one_iff_neg, hsign, Int.sign_eq_neg_one_of_neg hj]
        exact div_nonneg_of_nonpos (by exact_mod_cast hr.le) (by exact_mod_cast hj.le)
      · have hr : 0 < r := by
          rw [← Int.sign_eq_one_iff_pos, hsign, Int.sign_eq_one_of_pos hj]
        exact div_nonneg (by exact_mod_cast hr.le) (by exact_mod_cast hj.le)
  · have hless : |(r : ℚ)| < |(j : ℚ)| := by exact_mod_cast h.less
    calc (r / j : ℚ) ≤ |(r / j : ℚ)| := le_abs_self _
      _ = |(r : ℚ)| / |(j : ℚ)| := abs_div _ _
      _ < 1 := (div_lt_one (lt_of_le_of_lt (abs_nonneg _) hless)).mpr hless

/-- The quotient is the greatest integer that is not above that of the rational numbers. -/
theorem eq_floor (h : FloorDivision i j q r) : q = ⌊(i / j : ℚ)⌋ := by
  have hquotient : (i / j : ℚ) = q + r / j := by
    have hj : (j : ℚ) ≠ 0 := by exact_mod_cast h.ne_zero
    rw [h.sum]
    push_cast
    field_simp
  rw [hquotient, Int.floor_intCast_add, Int.floor_eq_zero_iff.mpr h.part, Int.add_zero]

end FloorDivision

/-- The division toward zero leaves the sign of the dividend to the remainder; the step down is for
a divisor of the other sign. -/
theorem floorDivmod_spec (i : Int) (hj : j ≠ 0) :
    FloorDivision i j (floorDivmod i j).1 (floorDivmod i j).2 := by
  have hsum : i = i.tdiv j * j + i.tmod j := by rw [Int.mul_comm, Int.mul_tdiv_add_tmod]
  have hless : |i.tmod j| < |j| := by
    rw [Int.abs_eq_natAbs, Int.abs_eq_natAbs, Int.natAbs_tmod]
    exact Int.ofNat_lt.mpr (Nat.mod_lt _ (Int.natAbs_pos.mpr hj))
  unfold floorDivmod
  generalize i.tdiv j = q, i.tmod j = r at hsum hless
  by_cases hr : r = 0
  · have hzero : FloorDivision i j q r := ⟨hsum, .inl hr, hless⟩
    simpa [hr] using hzero
  · by_cases hsign : r < 0 ↔ j < 0
    · simpa [hr, hsign] using FloorDivision.of_sign hsum hless hsign
    · simpa [hr, hsign] using FloorDivision.of_other_sign hsum hless hr hsign

/-! ## Common divisors -/

theorem euclidLoop_eq (m n : Nat) : euclidLoop m n = Nat.gcd m n := by
  fun_induction euclidLoop m n with
  | case1 m => rw [Nat.gcd_zero_right]
  | case2 m n _ ih => rw [ih, Nat.gcd_comm, ← Nat.gcd_rec, Nat.gcd_comm]

theorem gcd_eq (i j : Int) : gcd i j = Int.gcd i j := euclidLoop_eq i.natAbs j.natAbs

theorem lcm_eq (i j : Int) : lcm i j = Int.lcm i j := by
  rw [lcm, gcd_eq, Int.natAbs_mul]
  split
  · rename_i hzero
    rcases Bool.or_eq_true_iff.mp hzero with h | h
    · rw [beq_iff_eq.mp h, Int.lcm_zero_left]
    · rw [beq_iff_eq.mp h, Int.lcm_zero_right]
  · rfl

end Number

/-! ## The operations -/

namespace Library.Integers

open Eval Number

variable {e : Engine} {s : Store} {a b : Value} {i j : Int}

section Runs

variable {f : Int → Int → Op Value} {g : Float → Float → Op Value} {h : Int → Int → Int}

theorem division_run (ha : s.payload a = .integer i) (hb : s.payload b = .integer j) :
    (division f g a [b] none).run e s = (if j = 0 then dividedByZero else f i j).run e s := by
  simp only [division, binary_run ha hb, beq_iff_eq]

theorem bitwise_run (ha : s.payload a = .integer i) (hb : s.payload b = .integer j) :
    (bitwise h a [b] none).run e s = (newInt (h i j)).run e s := by
  have hneed : (needInt b).run e s = .ok j s := by
    simp only [needInt, payload, view, bind, pure, Act.run, hb]
  simp only [bitwise, oneArg, Act.run_bind, Act.run_pure, hneed, intOf_run ha, Ending.andThen_ok]

/-- A pair of integers in a new array. -/
theorem pair_adds (hs : s.IntegersCached) (q r : Int) :
    Adds (do newList [← newInt q, ← newInt r]) e s fun v t =>
      ∃ x y, t.payload v = .array #[x, y] ∧ t.payload x = .integer q ∧
        t.payload y = .integer r := by
  refine (newInt_adds hs q).bind fun x t hst hx => ?_
  refine (newInt_adds (hst.integersCached hs) r).bind fun y u htu hy => ?_
  exact (newList_adds [x, y]).mono fun v w huw hv =>
    ⟨x, y, hv, huw.integer (htu.integer hx), huw.integer hy⟩

end Runs

/-- The operation of `a` and `b` ends with the error of a division by zero. -/
def DividesByZero (op : Native) (a b : Value) (e : Engine) (s : Store) : Prop :=
  ∃ exc t, (op a [b] none).run e s = .error (.signal (.raise exc)) t ∧
    t.classOf exc = CoreClass.zeroDivisionError.value ∧ t.exceptionMessage exc = "divided by 0"

theorem division_dividesByZero {f : Int → Int → Op Value} {g : Float → Float → Op Value}
    (ha : s.payload a = .integer i) (hb : s.payload b = .integer 0) :
    DividesByZero (division f g) a b e s := by
  have hrun : (division f g a [b] none).run e s = (dividedByZero : Op Value).run e s := by
    rw [division_run ha hb, if_pos rfl]
  exact ⟨_, _, hrun, s.classOf_newException .., s.exceptionMessage_newException ..⟩

/-- An operation that ends with a value raises no error. -/
theorem not_dividesByZero {op : Native} {P : Value → Store → Prop}
    (h : Adds (op a [b] none) e s P) : ¬DividesByZero op a b e s := by
  rintro ⟨exc, t, hrun, -⟩
  obtain ⟨v, u, hrun', -⟩ := h
  rw [hrun] at hrun'
  cases hrun'

/-- Dividing integers gives the quotient rounded down and the remainder to it, one by one or as a
pair, and is refused for a divisor of zero and for no other one. Of two integers there is the
greatest common divisor, of which every common divisor is a divisor, and with the least common
multiple it makes up their product. -/
theorem integer_division (hs : s.IntegersCached) (ha : s.payload a = .integer i)
    (hb : s.payload b = .integer j) :
    (j ≠ 0 → ∃ q r, FloorDivision i j q r ∧ q = ⌊(i / j : ℚ)⌋ ∧
      Adds (divide a [b] none) e s (fun v t => t.payload v = .integer q) ∧
      Adds (modulo a [b] none) e s (fun v t => t.payload v = .integer r) ∧
      Adds (divmod a [b] none) e s fun v t => ∃ x y, t.payload v = .array #[x, y] ∧
        t.payload x = .integer q ∧ t.payload y = .integer r) ∧
    (∀ op ∈ [divide, modulo, divmod], DividesByZero op a b e s ↔ j = 0) ∧
    ∃ d m : Int,
      Adds (gcd a [b] none) e s (fun v t => t.payload v = .integer d) ∧
      Adds (lcm a [b] none) e s (fun v t => t.payload v = .integer m) ∧
      0 ≤ d ∧ (∀ c, c ∣ i ∧ c ∣ j ↔ c ∣ d) ∧ d * m = |i * j| := by
  have hdivide (hj : j ≠ 0) : Adds (divide a [b] none) e s fun v t =>
      t.payload v = .integer (floorDivmod i j).1 :=
    .congr (by rw [divide, division_run ha hb, if_neg hj]) (newInt_adds hs _)
  have hmodulo (hj : j ≠ 0) : Adds (modulo a [b] none) e s fun v t =>
      t.payload v = .integer (floorDivmod i j).2 :=
    .congr (by rw [modulo, division_run ha hb, if_neg hj]) (newInt_adds hs _)
  have hdivmod (hj : j ≠ 0) : Adds (divmod a [b] none) e s fun v t =>
      ∃ x y, t.payload v = .array #[x, y] ∧ t.payload x = .integer (floorDivmod i j).1 ∧
        t.payload y = .integer (floorDivmod i j).2 :=
    .congr (by rw [divmod, division_run ha hb, if_neg hj]) (pair_adds hs _ _)
  refine ⟨fun hj => ?_, fun op hop => ⟨fun hzero => ?_, ?_⟩, Int.gcd i j, Int.lcm i j, ?_, ?_,
    Int.natCast_nonneg _, fun c => ?_, ?_⟩
  · have hspec := floorDivmod_spec i hj
    exact ⟨_, _, hspec, hspec.eq_floor, hdivide hj, hmodulo hj, hdivmod hj⟩
  · by_contra hj
    simp only [List.mem_cons, List.not_mem_nil, or_false] at hop
    rcases hop with rfl | rfl | rfl
    · exact not_dividesByZero (hdivide hj) hzero
    · exact not_dividesByZero (hmodulo hj) hzero
    · exact not_dividesByZero (hdivmod hj) hzero
  · rintro rfl
    simp only [List.mem_cons, List.not_mem_nil, or_false] at hop
    rcases hop with rfl | rfl | rfl <;> exact division_dividesByZero ha hb
  · exact .congr (by rw [gcd, bitwise_run ha hb, gcd_eq]) (newInt_adds hs _)
  · exact .congr (by rw [lcm, bitwise_run ha hb, lcm_eq]) (newInt_adds hs _)
  · exact (Int.dvd_coe_gcd_iff).symm
  · rw [Int.abs_eq_natAbs, Int.natAbs_mul]
    exact_mod_cast Int.gcd_mul_lcm i j

/-- A negative dividend of more than 64 bits, and a divisor. -/
def negativeAndTwo : Store :=
  { config := { cacheMin := 1, cacheMax := 0 }
    objects := #[{ cls := CoreClass.integer.value, payload := .integer (-(2 ^ 70 + 1)) },
      { cls := CoreClass.integer.value, payload := .integer 2 }]
    scopes := #[], frames := [], scopeStack := [] }

theorem integer_division_negativeAndTwo :
    Adds (divide ⟨0⟩ [⟨1⟩] none) (.ofFuel 0) negativeAndTwo
      (fun v t => t.payload v = .integer (-(2 ^ 69 + 1))) ∧
    Adds (modulo ⟨0⟩ [⟨1⟩] none) (.ofFuel 0) negativeAndTwo
      (fun v t => t.payload v = .integer 1) ∧
    ¬DividesByZero divmod ⟨0⟩ ⟨1⟩ (.ofFuel 0) negativeAndTwo ∧
    ∃ d m : Int, Adds (gcd ⟨0⟩ [⟨1⟩] none) (.ofFuel 0) negativeAndTwo
      (fun v t => t.payload v = .integer d) ∧
      Adds (lcm ⟨0⟩ [⟨1⟩] none) (.ofFuel 0) negativeAndTwo
        (fun v t => t.payload v = .integer m) ∧ d * m = 2 ^ 71 + 2 := by
  have hcached : negativeAndTwo.IntegersCached := Store.integersCached_of_lt (by decide)
  obtain ⟨hdivides, hzero, d, m, hd, hm, -, -, hproduct⟩ :=
    integer_division (e := .ofFuel 0) (s := negativeAndTwo) (a := ⟨0⟩) (b := ⟨1⟩)
      (i := -(2 ^ 70 + 1)) (j := 2) hcached rfl rfl
  obtain ⟨q, r, hspec, -, hq, hr, -⟩ := hdivides (by decide)
  obtain ⟨rfl, rfl⟩ : q = -(2 ^ 69 + 1) ∧ r = 1 := by
    have hsum := hspec.sum
    have hless := abs_lt.mp hspec.less
    have hsign : r ≠ -1 := by
      rintro rfl
      exact absurd hspec.sign (by decide)
    norm_num at hless
    omega
  refine ⟨hq, hr, fun h => absurd ((hzero divmod (by simp)).mp h) (by decide), d, m, hd, hm, ?_⟩
  rw [hproduct]
  norm_num

end Library.Integers

/-! ## Powers -/

/-- The sign of a power is that of the base when the exponent is odd. -/
theorem Number.power_eq (i : Int) (n : Nat) : Number.power i n = i ^ n := by
  have hpow : ((Nat.pow i.natAbs n : Nat) : Int) = (i.natAbs : Int) ^ n := by
    rw [Nat.pow_eq, Nat.cast_pow]
  rw [Number.power, hpow]
  rcases lt_or_ge i 0 with hi | hi
  · have hbase : i = -(i.natAbs : Int) := by omega
    rcases Nat.even_or_odd n with hn | hn
    · have hsame : i ^ n = (i.natAbs : Int) ^ n := by
        conv_lhs => rw [hbase, hn.neg_pow]
      simp [hi, hsame, Nat.even_iff.mp hn]
    · have hsame : i ^ n = -(i.natAbs : Int) ^ n := by
        conv_lhs => rw [hbase, hn.neg_pow]
      simp [hi, hsame, Nat.odd_iff.mp hn]
  · have hbase : (i.natAbs : Int) = i := Int.natAbs_of_nonneg hi
    rw [hbase]
    simp [not_lt_of_ge hi]

namespace Library.Integers

open Eval

variable {e : Engine} {s : Store} {a b m n : Value} {i j : Int} {k l : Nat}

theorem arith_adds {f : Int → Int → Int} {g : Float → Float → Float} (hs : s.IntegersCached)
    (ha : s.payload a = .integer i) (hb : s.payload b = .integer j) :
    Adds (arith f g a [b] none) e s fun v t => t.payload v = .integer (f i j) :=
  .congr (binary_run ha hb) (newInt_adds hs _)

theorem power_exact (hs : s.IntegersCached) (ha : s.payload a = .integer i)
    (hb : s.payload b = .integer k) (hk : k < 2 ^ 32) :
    Adds (power a [b] none) e s fun v t => t.payload v = .integer (i ^ k) := by
  have hnonneg : ¬(k : Int) < 0 := by omega
  have hbits : (k : Int) < 0x100000000 := by omega
  refine .congr ?_ (newInt_adds hs _)
  rw [power, binary_run ha hb, if_neg hnonneg, if_pos hbits, Int.toNat_natCast, Number.power_eq]

theorem power_infinite (ha : s.payload a = .integer i) (hb : s.payload b = .integer k)
    (hk : 2 ^ 32 ≤ k) :
    Adds (power a [b] none) e s fun v t => t.payload v = .float (1.0 / 0.0) := by
  have hnonneg : ¬(k : Int) < 0 := by omega
  have hbits : ¬(k : Int) < 0x100000000 := by omega
  refine .congr ?_ (newFloat_adds _)
  rw [power, binary_run ha hb, if_neg hnonneg, if_neg hbits]

/-- `a ** (m + n)` and `(a ** m) * (a ** n)`, and whether they are equal. -/
def powerLaw (a m n : Value) : Op (Value × Value × Value) := do
  let whole ← power a [← arith (· + ·) (· + ·) m [n] none] none
  let left ← power a [m] none
  let right ← power a [n] none
  let product ← arith (· * ·) (· * ·) left [right] none
  let same ← equal whole [product] none
  pure (whole, product, same)

theorem powerLaw_adds (hs : s.IntegersCached) (ha : s.payload a = .integer i)
    (hm : s.payload m = .integer k) (hn : s.payload n = .integer l) (hsum : k + l < 2 ^ 32) :
    Adds (powerLaw a m n) e s fun r t => t.payload r.1 = .integer (i ^ (k + l)) ∧
      t.payload r.2.1 = .integer (i ^ k * i ^ l) ∧ r.2.2 = .true := by
  refine (arith_adds hs hm hn).bind fun sum t hst hsumv => ?_
  have hsumv : t.payload sum = .integer (k + l : Nat) := by rw [hsumv, Nat.cast_add]
  refine (power_exact (hst.integersCached hs) (hst.integer ha) hsumv hsum).bind
    fun whole u htu hwhole => ?_
  have hsu := hst.trans htu
  refine (power_exact (hsu.integersCached hs) (hsu.integer ha) (hsu.integer hm)
    (by omega)).bind fun left w huw hleft => ?_
  have hsw := hsu.trans huw
  refine (power_exact (hsw.integersCached hs) (hsw.integer ha) (hsw.integer hn)
    (by omega)).bind fun right x hwx hright => ?_
  have hsx := hsw.trans hwx
  refine (arith_adds (hsx.integersCached hs) (hwx.integer hleft) hright).bind
    fun product y hxy hproduct => ?_
  have hwhole : y.payload whole = .integer (i ^ (k + l)) :=
    ((huw.trans hwx).trans hxy).integer hwhole
  have hsame : (equal whole [product] none).run e y = .ok .true y := by
    rw [integer_equal_run hwhole (by rw [Store.number?, hproduct]; rfl), hproduct, numberOrder?,
      compare_beq, pow_add, beq_self_eq_true]
    rfl
  have htest : Adds (equal whole [product] none) e y fun same _ => same = .true := .of_run hsame rfl
  exact htest.bind fun same z hyz htrue =>
    .of_run rfl ⟨hyz.integer hwhole, hyz.integer hproduct, htrue⟩

/-- Every power with an exponent of 32 bits is the integer that it should be, and for exponents
whose sum has 32 bits the law of powers holds. With any larger exponent a power is the infinity of
the floats, also that of -1, 0 and 1. -/
theorem power_law (hs : s.IntegersCached) (ha : s.payload a = .integer i) :
    (∀ v k, s.payload v = .integer (k : Nat) →
      (k < 2 ^ 32 → Adds (power a [v] none) e s fun w t => t.payload w = .integer (i ^ k)) ∧
      (2 ^ 32 ≤ k → Adds (power a [v] none) e s fun w t => t.payload w = .float (1.0 / 0.0))) ∧
    ∀ m n k l, s.payload m = .integer (k : Nat) → s.payload n = .integer (l : Nat) →
      k + l < 2 ^ 32 →
      Adds (powerLaw a m n) e s fun (whole, product, same) t =>
        t.payload whole = .integer (i ^ (k + l)) ∧ t.payload product = .integer (i ^ k * i ^ l) ∧
          same = .true :=
  ⟨fun _ _ hv => ⟨power_exact hs ha hv, power_infinite ha hv⟩,
    fun _ _ _ _ hm hn hsum => powerLaw_adds hs ha hm hn hsum⟩

/-- A base, exponents that have 32 bits together, and one that has more. -/
def minusOne : Store :=
  { config := { cacheMin := 1, cacheMax := 0 }
    objects := #[{ cls := CoreClass.integer.value, payload := .integer (-1) },
      { cls := CoreClass.integer.value, payload := .integer (2 ^ 31) },
      { cls := CoreClass.integer.value, payload := .integer (2 ^ 31 - 1) },
      { cls := CoreClass.integer.value, payload := .integer (2 ^ 32) }]
    scopes := #[], frames := [], scopeStack := [] }

theorem power_law_minusOne :
    (Adds (powerLaw ⟨0⟩ ⟨1⟩ ⟨2⟩) (.ofFuel 0) minusOne fun (whole, product, same) t =>
      t.payload whole = .integer (-1) ∧ t.payload product = .integer (-1) ∧ same = .true) ∧
    Adds (power ⟨0⟩ [⟨3⟩] none) (.ofFuel 0) minusOne fun w t =>
      t.payload w = .float (1.0 / 0.0) := by
  have hcached : minusOne.IntegersCached := Store.integersCached_of_lt (by decide)
  obtain ⟨hpower, hlaw⟩ :=
    power_law (e := .ofFuel 0) (s := minusOne) (a := ⟨0⟩) (i := -1) hcached rfl
  have heven : Even (2 ^ 31 : Nat) := (Nat.even_pow.mpr ⟨even_two, by decide⟩)
  have hodd : Odd (2 ^ 31 - 1 : Nat) := Nat.odd_iff.mpr (by decide)
  refine ⟨?_, (hpower ⟨3⟩ (2 ^ 32) rfl).2 (Nat.le_refl _)⟩
  have hadds := hlaw ⟨1⟩ ⟨2⟩ (2 ^ 31) (2 ^ 31 - 1) rfl rfl (by decide)
  rw [(heven.add_odd hodd).neg_one_pow, heven.neg_one_pow, hodd.neg_one_pow, one_mul] at hadds
  exact hadds

end Library.Integers

end Garnet
