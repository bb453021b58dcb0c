import Garnet.Decimal.Finite

/-!
# Reading decimal numerals

Digits, an optional fraction and an optional exponent, read as the nearest double.
-/

namespace Garnet.Decimal

/-- The value of a run of decimal digits. -/
def digitsValue (ds : List Char) : Nat :=
  ds.foldl (fun n c => 10 * n + (c.toNat - '0'.toNat)) 0

/-- The double nearest to `m · 10 ^ e`. Exponents far outside the range of doubles are decided
without computing the power. -/
def toFloat (m : Nat) (e : Int) : Float :=
  if m == 0 then 0
  else
    let size : Int := (Nat.log2 m : Int) * 30103 / 100000 + e
    if size > 310 then Float.ofBits 0x7ff0000000000000
    else if size < -330 then 0
    else if e < 0 then Float.ofScientific m true (-e).toNat
    else Float.ofScientific m false e.toNat

/-- The double nearest to an integer; a half goes to the even mantissa. -/
def ofInt (i : Int) : Float := .ofModel (.ofInt i)

/-- An optional sign. -/
def splitSign : List Char → Bool × List Char
  | '-' :: cs => (true, cs)
  | '+' :: cs => (false, cs)
  | cs => (false, cs)

/-- The exponent part of a numeral: nothing at all, or a mark, an optional sign and digits. -/
def exponent? : List Char → Option Int
  | [] => some 0
  | c :: cs =>
    if c == 'e' || c == 'E' then
      let (negative, ds) := splitSign cs
      if ds.isEmpty || !ds.all Char.isDigit then none
      else
        -- beyond nine digits only the sign matters
        let ds := ds.dropWhile (· == '0')
        let n : Int := if ds.length > 9 then 999999999 else digitsValue ds
        some (if negative then -n else n)
    else none

/-- An unsigned numeral: digits with at most one point among them, at least one digit, and an
optional exponent. -/
def unsigned? (cs : List Char) : Option Float := do
  let whole := cs.takeWhile Char.isDigit
  let rest := cs.dropWhile Char.isDigit
  let (fraction, rest) := match rest with
    | '.' :: rs => (rs.takeWhile Char.isDigit, rs.dropWhile Char.isDigit)
    | rs => ([], rs)
  if whole.isEmpty && fraction.isEmpty then none
  let e ← exponent? rest
  some (toFloat (digitsValue (whole ++ fraction)) (e - fraction.length))

/-- A numeral with an optional sign. -/
def float? (cs : List Char) : Option Float :=
  let (negative, ds) := splitSign cs
  (unsigned? ds).map fun x => if negative then -x else x

/-- An infinity or a NaN by name, in any case of letters. -/
def named? (cs : List Char) : Option Float :=
  let word := String.ofList (cs.map Char.toLower)
  if word == "inf" || word == "infinity" then some (Float.ofBits 0x7ff0000000000000)
  else if word == "nan" then some (0.0 / 0.0)
  else none

/-- A numeral, an infinity or a NaN, with an optional sign. -/
def floatOrName? (cs : List Char) : Option Float :=
  let (negative, ds) := splitSign cs
  (unsigned? ds <|> named? ds).map fun x => if negative then -x else x

end Garnet.Decimal
