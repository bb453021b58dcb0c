import Garnet.Decimal.Finite

/-!
# Digits of doubles

A finite double is written with the fewest digits that read back, or with a given number of them.
-/

namespace Garnet.Decimal

/-! ## The fewest digits that read back

A double stands for every real number that rounds to it. Of the decimals in that interval the one
with the fewest digits is taken, and of two with equally many digits the nearer to the double
itself. For each number of digits only the two neighbours of the double on that decimal grid need
to be tried.
-/

/-- Which of two equally near neighbours is taken. -/
inductive Tie where
  | toEven
  | up
  deriving DecidableEq, Repr

/-- The number `digits · 10 ^ exponent`. -/
structure Scaled where
  digits : Nat
  exponent : Int
  deriving DecidableEq, Repr

namespace Finite

/-- Whether the magnitude is at least `10 ^ k`. -/
def atLeastPow (x : Finite) (k : Int) : Bool :=
  Nat.pow 10 k.toNat * x.den ≤ x.num * Nat.pow 10 (-k).toNat

/-- The number of digits before the point, `e` with `10 ^ (e - 1) ≤ |x| < 10 ^ e`. -/
def magnitude (x : Finite) : Int :=
  let estimate := Int.fdiv ((x.mantissa.log2 + x.exponent) * 30103) 100000
  if x.atLeastPow (estimate + 1) then estimate + 2 else estimate + 1

/-- Whether `c · 10 ^ k` rounds to the magnitude of `x`. -/
def rounds (x : Finite) (c : Nat) (k : Int) : Bool :=
  let below := if x.mantissa == hiddenBit && x.exponent > -1074 then 1 else 2
  let unit := Nat.pow 2 x.exponent.toNat * Nat.pow 10 (-k).toNat
  let point := 4 * c * Nat.pow 10 k.toNat * x.den
  let low := (4 * x.mantissa - below) * unit
  let high := (4 * x.mantissa + 2) * unit
  if x.mantissa % 2 == 0 then low ≤ point && point ≤ high else low < point && point < high

/-- The neighbour of `x` on the grid of multiples of `10 ^ k` that rounds to `x`, if one does. -/
def onGrid? (tie : Tie) (x : Finite) (k : Int) : Option Scaled :=
  let top := x.num * Nat.pow 10 (-k).toNat
  let bottom := x.den * Nat.pow 10 k.toNat
  let c := top / bottom
  let r := top % bottom
  match x.rounds c k, x.rounds (c + 1) k with
  | true, true =>
    if 2 * r < bottom then some ⟨c, k⟩
    else if 2 * r > bottom then some ⟨c + 1, k⟩
    else match tie with
      | .up => some ⟨c + 1, k⟩
      | .toEven => some ⟨if c % 2 == 0 then c else c + 1, k⟩
  | true, false => some ⟨c, k⟩
  | false, true => some ⟨c + 1, k⟩
  | false, false => none

/-- The shortest decimal that reads back as the non-zero `x`. -/
def shortest (tie : Tie) (x : Finite) : Scaled :=
  let e := x.magnitude
  ((List.range 17).findSome? fun n : Nat => x.onGrid? tie (e - (n + 1))).getD ⟨x.whole, 0⟩

end Finite

/-- Digits of a decimal with no zero at either end, and the place of the point among them. -/
structure Written where
  digits : List Char
  point : Int

/-- The digits of a scaled decimal, trailing zeros dropped. -/
def Scaled.written (x : Scaled) : Written :=
  let all := Nat.toDigits 10 x.digits
  let kept := (all.reverse.dropWhile (· == '0')).reverse
  ⟨kept, all.length + x.exponent⟩

/-- Positional text: every digit, padded with zeros up to the point. -/
def Written.positional (x : Written) : List Char :=
  if x.point ≤ 0 then
    "0.".toList ++ List.replicate (-x.point).toNat '0' ++ x.digits
  else if x.digits.length ≤ x.point.toNat then
    x.digits ++ List.replicate (x.point.toNat - x.digits.length) '0'
  else
    x.digits.take x.point.toNat ++ '.' :: x.digits.drop x.point.toNat

/-! ## A given number of digits

A finite double written with a fixed number of decimal places, or with a fixed number of significant
digits and an exponent. The exact value is rounded once, a half to the even neighbour.
-/

/-- The whole number nearest to a quotient; a half goes to the even one. -/
def roundDiv (num den : Nat) : Nat :=
  let q := num / den
  let r := num % den
  if 2 * r > den || (2 * r == den && q % 2 == 1) then q + 1 else q

namespace Finite

/-- The magnitude in units of `10 ^ -places`, rounded. -/
def inUnits (x : Finite) (places : Int) : Nat :=
  roundDiv (x.num * Nat.pow 10 places.toNat) (x.den * Nat.pow 10 (-places).toNat)

/-- The magnitude with `places` decimal places. -/
def fixed (x : Finite) (places : Nat) : List Char :=
  let ds := Nat.toDigits 10 (x.inUnits places)
  let ds := List.replicate (places + 1 - ds.length) '0' ++ ds
  let whole := ds.take (ds.length - places)
  if places == 0 then whole else whole ++ '.' :: ds.drop (ds.length - places)

/-- The magnitude as `places + 1` digits and the power of ten of the first one. -/
def significant (x : Finite) (places : Nat) : Nat × Int :=
  if x.mantissa == 0 then (0, 0)
  else
    let e := x.magnitude
    let n := x.inUnits (places + 1 - e)
    if n == Nat.pow 10 (places + 1) then (Nat.pow 10 places, e) else (n, e - 1)

/-- The digits of `significant` with a point after the first. -/
def significantText (n places : Nat) : List Char :=
  let ds := Nat.toDigits 10 n
  let ds := ds ++ List.replicate (places + 1 - ds.length) '0'
  if places == 0 then ds else ds.take 1 ++ '.' :: ds.drop 1

end Finite

end Garnet.Decimal
