/-!
# Finite doubles as exact numbers

A finite double is an integer times a power of two. Everything that reads or writes a double as
text works on that pair with whole-number arithmetic.
-/

namespace Garnet.Decimal

/-- The number `± mantissa · 2 ^ exponent`. -/
structure Finite where
  negative : Bool
  mantissa : Nat
  exponent : Int
  deriving Repr, DecidableEq

namespace Finite

/-- The leading bit of a mantissa, which a double does not store. -/
def hiddenBit : Nat := 0x10000000000000

/-- The exact value of a double; nothing for an infinity or a NaN. -/
def ofFloat? (x : Float) : Option Finite :=
  let bits := x.toBits.toNat
  let negative := bits / 0x8000000000000000 == 1
  let biased : Nat := bits / hiddenBit % 0x800
  let fraction : Nat := bits % hiddenBit
  if biased == 2047 then none
  else if biased == 0 then some ⟨negative, fraction, -1074⟩
  else some ⟨negative, fraction + hiddenBit, (biased : Int) - 1075⟩

/-- Numerator of the magnitude over `den`. -/
def num (x : Finite) : Nat := x.mantissa * Nat.pow 2 x.exponent.toNat

/-- A power of two. -/
def den (x : Finite) : Nat := Nat.pow 2 (-x.exponent).toNat

/-- The integer part of the magnitude. -/
def whole (x : Finite) : Nat := x.num / x.den

def isIntegral (x : Finite) : Bool := x.num % x.den == 0

/-- The number rounded toward zero. -/
def truncate (x : Finite) : Int := if x.negative then -(x.whole : Int) else x.whole

/-- The number rounded down. -/
def floor (x : Finite) : Int := (if x.negative then -(x.num : Int) else x.num) / (x.den : Int)

end Finite

/-- The integer part of a double, nothing for an infinity or a NaN. -/
def truncate? (x : Float) : Option Int := (Finite.ofFloat? x).map Finite.truncate

end Garnet.Decimal
