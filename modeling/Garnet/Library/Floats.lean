import Garnet.Library.Integers

/-!
# Operations of floats
-/

namespace Garnet.Library.Floats

open Eval

def floatOf (v : Value) : Op Float := do
  pure ((← view (·.float? v)).getD Number.notANumber)

def operand (v : Value) : Op Float := do
  match ← view (·.number? v) with
  | some x => pure x
  | none =>
    let label ← typeLabel v
    typeError s!"{label} can't be coerced into Float"

def binary (f : Float → Float → Float) : Native := fun recv args _ => do
  let y ← operand (← oneArg args)
  newFloat (f (← floatOf recv) y)

def divmod : Native := fun recv args _ => do
  let y ← operand (← oneArg args)
  let x ← floatOf recv
  if y == 0.0 then dividedByZero
  else
    let q ← newInt (Number.toInt (x / y).floor)
    let r ← newFloat (Number.modulo x y)
    newList [q, r]

def unary (f : Float → Float) : Native := fun recv _ _ => do newFloat (f (← floatOf recv))

def itself : Native := fun recv _ _ => pure recv

/-! ## Comparing -/

/-- The order of a float and another number. -/
def orderWith? (recv other : Value) : Op (Option Ordering) := do
  let x ← floatOf recv
  pure ((← view (·.number? other)).bind (compareFloats x))

def equal : Native := fun recv args _ => do
  newBool ((← orderWith? recv (← oneArg args)) == some .eq)

def eql : Native := fun recv args _ => do
  let other ← oneArg args
  let x ← floatOf recv
  newBool (((← view (·.float? other)).map (· == x)).getD false)

def compareOp : Native := fun recv args _ => do newOrder (← orderWith? recv (← oneArg args))

def relate (test : Ordering → Bool) : Native := fun recv args _ => do
  let other ← oneArg args
  if (← view (·.number? other)).isNone then
    let label ← typeLabel other
    argumentError s!"comparison of Float with {label} failed"
  else newBool (((← orderWith? recv other).map test).getD false)

def test (p : Float → Bool) : Native := fun recv _ _ => do newBool (p (← floatOf recv))

/-! ## Rounding -/

/-- Refuses what is not finite, by its name. -/
def checkFinite (x : Float) : Op Unit :=
  if x.isFinite then pure () else argumentError (Text.floatText x)

def toI : Native := fun recv _ _ => do
  let x ← floatOf recv
  checkFinite x
  newInt (Number.toInt x)

/-- Rounds to a number of decimal places, which keeps a float, or to a power of ten, which gives an
integer. -/
def rounded (round : Float → Float) : Native := fun recv args _ => do
  let places ← atMostOneArg args
  let x ← floatOf recv
  let places ← match places with
    | some d => needWord d
    | none => pure 0
  if places > 0 then
    let scale := Number.powerOfTen (min places 300).toNat
    newFloat (round (x * scale) / scale)
  else
    checkFinite x
    let scale := Number.powerOfTen (min (-places) 300).toNat
    newInt (Number.toInt (round (x / scale) * scale))

def infinite : Native := fun recv _ _ => do
  let x ← floatOf recv
  if x.isInf then newInt (if x > 0.0 then 1 else -1) else pure .nil

def toS : Native := fun recv _ _ => do newText (Text.floatText (← floatOf recv))

def hashCode : Native := fun recv _ _ => do newInt (← view (·.hashCode recv))

/-- The constants of the class. -/
def constants : List (String × Float) :=
  [("INFINITY", 1.0 / 0.0),
   ("NAN", Number.notANumber),
   ("EPSILON", Float.ofBits 0x3cb0000000000000),
   ("MAX", Float.ofBits 0x7fefffffffffffff),
   ("MIN", Float.ofBits 0x0010000000000000)]

def entries : List Entry :=
  let on := Entry.method .float
  let all := Entry.methods .float
  [on "+" (binary (· + ·)),
   on "-" (binary (· - ·)),
   on "*" (binary (· * ·)),
   on "/" (binary (· / ·)),
   all ["%", "modulo"] (binary Number.modulo),
   all ["**", "pow"] (binary (· ^ ·)),
   on "divmod" divmod,
   on "-@" (unary (- ·)),
   on "+@" itself,
   all ["==", "==="] equal,
   on "eql?" eql,
   on "<=>" compareOp,
   on "<" (relate (·.isLT)),
   on "<=" (relate (·.isLE)),
   on ">" (relate (·.isGT)),
   on ">=" (relate (·.isGE)),
   all ["to_i", "to_int", "truncate"] toI,
   on "to_f" itself,
   on "floor" (rounded (·.floor)),
   on "ceil" (rounded (·.ceil)),
   on "round" (rounded (·.round)),
   all ["abs", "magnitude"] (unary (·.abs)),
   on "nan?" (test (·.isNaN)),
   on "infinite?" infinite,
   on "finite?" (test (·.isFinite)),
   on "zero?" (test (· == 0.0)),
   on "positive?" (test (· > 0.0)),
   on "negative?" (test (· < 0.0)),
   all ["to_s", "inspect"] toS,
   on "hash" hashCode]

end Garnet.Library.Floats
