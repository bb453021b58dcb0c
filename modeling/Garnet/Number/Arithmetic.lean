import Garnet.Decimal.Finite
import Garnet.Number.Digits

/-!
# Arithmetic of integers and doubles

Division of integers rounds down. It is put together from the quotient rounded toward zero and its
remainder, which has the sign of the dividend. Remainders and powers of doubles are here as well.
-/

/-! ## Quotients and common divisors of integers -/

namespace Garnet.Number

/-- The quotient rounded down, and the remainder to it. A remainder whose sign is not that of the
divisor shows that the quotient toward zero is one too high. -/
def floorDivmod (i j : Int) : Int × Int :=
  let q := i.tdiv j
  let r := i.tmod j
  if r ≠ 0 && decide (r < 0) != decide (j < 0) then (q - 1, r + j) else (q, r)

/-- Euclid's loop: the divisor and the remainder take the places of dividend and divisor until the
divisor is zero. -/
def euclidLoop (m n : Nat) : Nat :=
  if n = 0 then m else euclidLoop n (m % n)
termination_by n
decreasing_by exact Nat.mod_lt m (Nat.pos_of_ne_zero ‹n ≠ 0›)

def gcd (i j : Int) : Nat := euclidLoop i.natAbs j.natAbs

def lcm (i j : Int) : Nat :=
  if i == 0 || j == 0 then 0 else (i * j).natAbs / gcd i j

end Garnet.Number

/-! ## Remainders and powers of doubles -/

namespace Garnet.Decimal.Finite

/-- The exact remainder of two magnitudes: both are whole multiples of the smaller power of two. -/
def remainder (a b : Finite) : Finite :=
  let e := min a.exponent b.exponent
  let m := a.mantissa * Nat.pow 2 (a.exponent - e).toNat
  let n := b.mantissa * Nat.pow 2 (b.exponent - e).toNat
  ⟨a.negative, m % n, e⟩

/-- The double equal to a number that has at most 53 significant bits. -/
def toFloat (x : Finite) : Float :=
  let r := (Float.ofNat x.mantissa).scaleB x.exponent
  if x.negative then -r else r

end Garnet.Decimal.Finite

namespace Garnet.Number

open Decimal

def notANumber : Float := 0.0 / 0.0

/-- The remainder of the division rounded toward zero; it has the sign of the dividend. -/
def remainder (x y : Float) : Float :=
  match Finite.ofFloat? x, Finite.ofFloat? y with
  | some a, some b => if b.mantissa == 0 then notANumber else (a.remainder b).toFloat
  | some _, none => if y.isNaN then notANumber else x
  | none, _ => notANumber

/-- The remainder with the sign of the divisor. -/
def modulo (x y : Float) : Float :=
  let r := remainder x y
  if r != 0.0 && (r < 0.0) != (y < 0.0) then r + y else r

/-- A whole power by repeated squaring; `fuel` bounds the number of binary digits of `n`. -/
def powerLoop : Nat → Float → Nat → Float → Float
  | 0, _, _, r => r
  | fuel + 1, x, n, r =>
    let r := if n % 2 == 1 then r * x else r
    if n / 2 == 0 then r else powerLoop fuel (x * x) (n / 2) r

/-- Ten to a whole power, each product rounded. -/
def powerOfTen (n : Nat) : Float := powerLoop 64 10.0 n 1.0

/-- A double rounded toward zero; what is not finite counts as zero. -/
def toInt (x : Float) : Int := (truncate? x).getD 0

/-- A double rounded down to an integer of 64 bits: of what lies outside the nearest one, and zero of
what is not a number. -/
def floorWord (x : Float) : Int :=
  match Finite.ofFloat? x with
  | some a => max minWord (min a.floor maxWord)
  | none => if x.isNaN then 0 else if x < 0.0 then minWord else maxWord

end Garnet.Number
