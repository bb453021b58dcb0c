import Garnet.Number.Arithmetic
import Garnet.Proofs.Decimal.Nearest
import Garnet.Proofs.Ranges.Walks

/-!
# Where a range of integers ends

Iteration goes up to an integer that is computed beforehand, from an integer by subtraction and from
a double by rounding down to 64 bits. Membership compares with the end itself. The two agree for
every integer at the end, and for a double that has a fraction. They do not where the end is left
out but is itself one of the integers, and where rounding makes a difference.
-/

namespace Garnet

open Decimal (Finite)
open Doubles (toRat)

/-- What a range of integers ends with. -/
inductive Limit where
  | int (high : Int)
  | float (x : Float)

namespace Limit

/-- The last integer that iteration comes to. -/
def last (exclusive : Bool) : Limit → Int
  | int high => if exclusive then high - 1 else high
  | float x => Number.floorWord x

/-- What an order to the end means for what stands in it. -/
def below (exclusive : Bool) : Ordering → Bool
  | .lt => true
  | .eq => !exclusive
  | .gt => false

/-- Whether an integer is found to be below the limit, or at it where that is not left out. -/
def admits (exclusive : Bool) (i : Int) : Limit → Bool
  | int high => if exclusive then i < high else i ≤ high
  | float x => (Eval.compareFloats (Decimal.ofInt i) x).any (below exclusive)

/-- Whether iteration from `low` on comes to exactly the integers that the limit admits. -/
def Faithful (low : Int) (exclusive : Bool) : Limit → Prop
  | int _ => True
  | float x =>
    match Finite.ofFloat? x with
    -- of what is infinite, 64 bits are too few for the one and enough to name the other
    | none => if x.isNaN then 0 < low else x < 0.0 ∧ low ≠ Number.minWord
    | some f =>
      if f.floor < Number.minWord then low ≠ Number.minWord
      else if Number.maxWord < f.floor then False
      else if !f.isIntegral then True
      else if exclusive then f.floor < low
      -- integers above the end must not be rounded to it
      else ∀ i, low ≤ i → f.floor < i → (Decimal.ofInt i == x) = false

variable {x : Float} {f : Finite} {i low : Int} {exclusive : Bool}

/-! ## Integers against a double -/

theorem admits_float (hx : x.isNaN = false) :
    (float x).admits exclusive i ↔
      toRat (Decimal.ofInt i) < toRat x ∨ exclusive = false ∧ toRat (Decimal.ofInt i) = toRat x := by
  have hi := (Doubles.ofInt_spec i).1
  rw [admits, Doubles.compareFloats_eq_toRat hi hx, Option.any_some]
  rcases lt_trichotomy (toRat (Decimal.ofInt i)) (toRat x) with h | h | h
  · simp [compare_lt_iff_lt.mpr h, h, below]
  · simp [h, below]
  · simp [compare_gt_iff_gt.mpr h, h.not_gt, h.ne', below]

theorem admits_nan (hx : x.isNaN = true) : (float x).admits exclusive i = false := by
  rw [admits, Doubles.compareFloats_nan hx, Option.any_none]

/-- An integer that is rounded to the end counts as the end. -/
theorem admits_of_beq (hi : (Decimal.ofInt i == x) = true) :
    (float x).admits exclusive i = !exclusive := by
  have heq := Eval.compareFloats_eq (Decimal.ofInt i) x
  rw [hi, beq_iff_eq] at heq
  rw [admits, heq]
  rfl

section Number

variable {y : Int} (hx : x.isNaN = false) (hy : Doubles.Fits y)

include hx hy

theorem admits_of_le (hi : i ≤ y) (hless : y < toRat x) : (float x).admits exclusive i :=
  (admits_float hx).mpr (.inl (((Doubles.ofInt_spec i).2 y hy).1 hi |>.trans_lt hless))

theorem not_admits_of_le (hi : y ≤ i) (hless : toRat x < y) :
    ¬(float x).admits exclusive i := by
  have hle := ((Doubles.ofInt_spec i).2 y hy).2 hi
  rw [admits_float hx]
  rintro (h | ⟨-, h⟩) <;> linarith

end Number

section Finite

variable (h : Finite.ofFloat? x = some f)

include h

theorem floor_le_toRat : (f.floor : ℚ) ≤ toRat x := by
  rw [Doubles.toRat_of_ofFloat? h, Finite.floor_eq]
  exact Int.floor_le _

theorem toRat_lt_floor : toRat x < f.floor + 1 := by
  rw [Doubles.toRat_of_ofFloat? h, Finite.floor_eq]
  exact Int.lt_floor_add_one _

theorem toRat_eq_floor_iff : toRat x = f.floor ↔ f.isIntegral := by
  rw [Doubles.toRat_of_ofFloat? h, Finite.toRat_eq_floor_iff]

/-- The integers below a double with a fraction are those up to its integer part. -/
theorem admits_iff_of_not_integral (hwhole : ¬f.isIntegral) :
    (float x).admits exclusive i ↔ i ≤ f.floor := by
  obtain ⟨hfloor, habove⟩ := Doubles.fits_floor h
  have hx := Doubles.isNaN_of_ofFloat? h
  constructor
  · intro hi
    by_contra hgt
    refine not_admits_of_le hx (habove hwhole) (by omega) ?_ hi
    push_cast
    exact toRat_lt_floor h
  · intro hi
    exact admits_of_le hx hfloor hi (lt_of_le_of_ne (floor_le_toRat h)
      fun heq => hwhole ((toRat_eq_floor_iff h).mp heq.symm))

section Integral

variable (hwhole : f.isIntegral)

include hwhole

theorem beq_iff_toRat : (Decimal.ofInt i == x) = true ↔ toRat (Decimal.ofInt i) = f.floor := by
  rw [← Eval.compareFloats_eq, Doubles.compareFloats_eq_toRat (Doubles.ofInt_spec i).1
    (Doubles.isNaN_of_ofFloat? h), beq_iff_eq, Option.some.injEq, compare_eq_iff_eq,
    (toRat_eq_floor_iff h).mpr hwhole]

theorem ofInt_floor_beq : (Decimal.ofInt f.floor == x) = true := by
  rw [beq_iff_toRat h hwhole]
  obtain ⟨hup, hdown⟩ := (Doubles.ofInt_spec f.floor).2 _ (Doubles.fits_floor h).1
  exact le_antisymm (hup le_rfl) (hdown le_rfl)

/-- Any other integer is on its side of the end. -/
theorem admits_iff_of_not_beq (hi : (Decimal.ofInt i == x) = false) :
    (float x).admits exclusive i ↔ i ≤ f.floor := by
  obtain ⟨hup, hdown⟩ := (Doubles.ofInt_spec i).2 _ (Doubles.fits_floor h).1
  have hne : toRat (Decimal.ofInt i) ≠ f.floor :=
    fun heq => Bool.false_ne_true (hi.symm.trans ((beq_iff_toRat h hwhole).mpr heq))
  rw [admits_float (Doubles.isNaN_of_ofFloat? h), (toRat_eq_floor_iff h).mpr hwhole]
  constructor
  · rintro (hless | ⟨-, heq⟩)
    · by_contra hgt
      exact absurd (hdown (by omega)) hless.not_ge
    · exact absurd heq hne
  · exact fun hle => .inl (lt_of_le_of_ne (hup hle) hne)

end Integral

end Finite

/-! ## Iteration and membership -/

/-- Iteration that stops at the last integer of 64 bits misses the next one, or should have stopped
before: both are rounded to the same double. -/
theorem not_faithful_maxWord (hlow : low ≤ Number.maxWord) :
    ¬∀ i, low ≤ i → (i ≤ Number.maxWord ↔ (float x).admits exclusive i) := by
  intro hall
  have hsame : (float x).admits exclusive Number.maxWord =
      (float x).admits exclusive (Number.maxWord + 1) := rfl
  have hlast := (hall _ hlow).mp le_rfl
  have hnext := (hall (Number.maxWord + 1) (by omega)).mpr (hsame ▸ hlast)
  omega

/-- No integer of 64 bits is admitted by what lies below them all, and iteration names the least. -/
theorem faithful_iff_of_toRat_lt (hx : x.isNaN = false) (hlow : Number.minWord ≤ low)
    (hless : toRat x < Number.minWord) :
    (∀ i, low ≤ i → (i ≤ Number.minWord ↔ (float x).admits exclusive i)) ↔
      low ≠ Number.minWord := by
  have hfits : Doubles.Fits Number.minWord := by
    refine ⟨⟨1, 63, by decide, by decide⟩, ?_⟩
    have hpow : ((Number.minWord.natAbs : Nat) : ℚ) = 2 ^ 63 := by
      rw [Number.minWord]
      norm_num
    rw [hpow, Doubles.tooLarge]
    exact pow_le_pow_right₀ one_le_two (by decide)
  have hnone {i : Int} (hi : low ≤ i) : ¬(float x).admits exclusive i :=
    not_admits_of_le hx hfits (hlow.trans hi) hless
  constructor
  · rintro hall rfl
    exact hnone le_rfl ((hall _ le_rfl).mp le_rfl)
  · intro hne i hi
    exact iff_of_false (by omega) (hnone hi)

/-- Up to a whole double iteration comes to the end itself, and rounding may admit more. -/
theorem faithful_iff_of_integral (h : Finite.ofFloat? x = some f) (hwhole : f.isIntegral) :
    (∀ i, low ≤ i → (i ≤ f.floor ↔ (float x).admits exclusive i)) ↔
      if exclusive then f.floor < low
      else ∀ i, low ≤ i → f.floor < i → (Decimal.ofInt i == x) = false := by
  have hend := ofInt_floor_beq h hwhole
  cases exclusive with
  | true =>
    rw [if_pos rfl]
    constructor
    · intro hall
      by_contra hle
      have := (hall f.floor (by omega)).mp le_rfl
      rw [admits_of_beq hend] at this
      cases this
    · intro hgt i hi
      refine iff_of_false (by omega) fun hadmits => ?_
      cases heq : Decimal.ofInt i == x with
      | true =>
        rw [admits_of_beq heq] at hadmits
        cases hadmits
      | false =>
        have := (admits_iff_of_not_beq h hwhole heq).mp hadmits
        omega
  | false =>
    rw [if_neg Bool.false_ne_true]
    constructor
    · intro hall i hi hgt
      rw [← Bool.not_eq_true]
      intro heq
      have := (hall i hi).mpr (admits_of_beq heq)
      omega
    · intro hall i hi
      cases heq : Decimal.ofInt i == x with
      | true =>
        refine iff_of_true ?_ (admits_of_beq heq)
        by_contra hgt
        exact Bool.false_ne_true ((hall i hi (by omega)).symm.trans heq)
      | false => exact (admits_iff_of_not_beq h hwhole heq).symm

/-- Iteration from an integer of 64 bits on comes to exactly the integers that the limit admits where
the limit is faithful. -/
theorem faithful_iff (l : Limit) (hlow : Number.isWord low) :
    (∀ i, i ∈ interval low (l.last exclusive) ↔ low ≤ i ∧ l.admits exclusive i) ↔
      l.Faithful low exclusive := by
  simp only [mem_interval, and_congr_right_iff]
  have hword : Number.minWord ≤ low ∧ low ≤ Number.maxWord := by simpa [Number.isWord] using hlow
  have hwords : Number.minWord ≤ Number.maxWord := by decide
  cases l with
  | int high =>
    refine iff_of_true (fun i _ => ?_) trivial
    cases exclusive with
    | false => simp [last, admits]
    | true => simp only [last, admits, if_true, decide_eq_true_eq]; omega
  | float x =>
    simp only [last, Number.floorWord, Faithful]
    cases h : Finite.ofFloat? x with
    | none =>
      dsimp only
      cases hx : x.isNaN with
      | true =>
        rw [if_pos rfl, if_pos rfl]
        simp only [admits_nan hx, Bool.false_eq_true, iff_false, not_le]
        exact ⟨fun hall => hall low le_rfl, fun hpos i hi => hpos.trans_le hi⟩
      | false =>
        have hnumber := Doubles.toRat_of_ofFloat?_none h hx
        rw [if_neg Bool.false_ne_true, if_neg Bool.false_ne_true]
        by_cases hsign : x < 0.0
        · rw [if_pos hsign] at hnumber ⊢
          have hless : toRat x < Number.minWord := by
            have hpow : (2 : ℚ) ^ 63 < Doubles.tooLarge := pow_lt_pow_right₀ one_lt_two (by decide)
            rw [hnumber, Number.minWord]
            push_cast
            linarith
          rw [faithful_iff_of_toRat_lt hx hword.1 hless]
          exact (and_iff_right hsign).symm
        · rw [if_neg hsign]
          exact iff_of_false (not_faithful_maxWord hword.2) fun h => hsign h.1
    | some f =>
      have hx := Doubles.isNaN_of_ofFloat? h
      dsimp only
      by_cases hmin : f.floor < Number.minWord
      · rw [if_pos hmin, max_eq_left (by omega)]
        refine faithful_iff_of_toRat_lt hx hword.1 ((toRat_lt_floor h).trans_le ?_)
        exact_mod_cast hmin
      rw [if_neg hmin]
      by_cases hmax : Number.maxWord < f.floor
      · rw [if_pos hmax, min_eq_right hmax.le, max_eq_right hwords]
        exact iff_of_false (not_faithful_maxWord hword.2) not_false
      rw [if_neg hmax, min_eq_left (by omega), max_eq_right (by omega)]
      by_cases hwhole : f.isIntegral
      · rw [if_neg (by simpa using hwhole)]
        exact faithful_iff_of_integral h hwhole
      · rw [if_pos (by simpa using hwhole)]
        exact iff_of_true (fun i _ => (admits_iff_of_not_integral h hwhole).symm) trivial

end Limit

end Garnet
