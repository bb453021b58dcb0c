import Garnet.Library.Basic
import Garnet.Number.Digits
import Garnet.Number.Arithmetic

/-!
# Operations of integers
-/

namespace Garnet

/-- The orders as the numbers -1, 0 and 1. -/
def orderNumber : Ordering → Int
  | .lt => -1
  | .eq => 0
  | .gt => 1

namespace Eval

def newOrder : Option Ordering → Op Value
  | some o => newInt (orderNumber o)
  | none => pure .nil

end Eval

namespace Library.Integers

open Eval

def intOf (v : Value) : Op Int := do pure ((← view (·.integer? v)).getD 0)

/-- The other number of an operation: an integer, or a float that makes the result a float. -/
inductive Operand where
  | integer (i : Int)
  | float (x : Float)

def operand (v : Value) : Op Operand := do
  match ← payload v with
  | .integer i => pure (.integer i)
  | .float x => pure (.float x)
  | _ =>
    let label ← typeLabel v
    typeError s!"{label} can't be coerced into Integer"

def binary (onInts : Int → Int → Op Value) (onFloats : Float → Float → Op Value) : Native :=
  fun recv args _ => do
    let other ← operand (← oneArg args)
    let i ← intOf recv
    match other with
    | .integer j => onInts i j
    | .float x => onFloats (Decimal.ofInt i) x

def arith (f : Int → Int → Int) (g : Float → Float → Float) : Native :=
  binary (fun i j => newInt (f i j)) fun x y => newFloat (g x y)

/-- An operation that a divisor of zero refuses. -/
def division (f : Int → Int → Op Value) (g : Float → Float → Op Value) : Native :=
  binary (fun i j => if j == 0 then dividedByZero else f i j) g

def divide : Native :=
  division (fun i j => newInt (Number.floorDivmod i j).1) fun x y => newFloat (x / y)

def modulo : Native :=
  division (fun i j => newInt (Number.floorDivmod i j).2) fun x y => newFloat (Number.modulo x y)

def divmod : Native :=
  division
    (fun i j => do
      let (q, r) := Number.floorDivmod i j
      let q ← newInt q
      let r ← newInt r
      newList [q, r])
    (fun x y => do
      let q ← newFloat (x / y).floor
      let r ← newFloat (Number.modulo x y)
      newList [q, r])

def floatDivide : Native :=
  binary (fun i j => newFloat (Decimal.ofInt i / Decimal.ofInt j)) fun x y => newFloat (x / y)

/-- A negative exponent gives a float, and one of more than 32 bits an infinity. -/
def power : Native :=
  binary
    (fun i j =>
      if j < 0 then newFloat (Decimal.ofInt i ^ Decimal.ofInt j)
      else if j < 0x100000000 then newInt (Number.power i j.toNat)
      else newFloat (1.0 / 0.0))
    (fun x y => newFloat (x ^ y))

def unary (f : Int → Int) : Native := fun recv _ _ => do newInt (f (← intOf recv))

def itself : Native := fun recv _ _ => pure recv

def bitwise (f : Int → Int → Int) : Native := fun recv args _ => do
  let j ← needInt (← oneArg args)
  newInt (f (← intOf recv) j)

def gcd : Native := bitwise fun i j => Number.gcd i j

def lcm : Native := bitwise fun i j => Number.lcm i j

def shift (sign : Int) : Native := fun recv args _ => do
  let n ← needWord (← oneArg args)
  newInt (Number.shiftLeft (← intOf recv) (sign * n))

/-! ## Comparing -/

/-- The order of an integer and another number. -/
def numberOrder? (i : Int) : Payload → Option Ordering
  | .integer j => some (compare i j)
  | .float y => compareFloats (Decimal.ofInt i) y
  | _ => none

def equal : Native := fun recv args _ => do
  let other ← oneArg args
  let p ← payload other
  match p with
  | .integer _ | .float _ => newBool (numberOrder? (← intOf recv) p == some .eq)
  | _ => newBool (← send other "==" [recv] none).truthy

def eql : Native := fun recv args _ => do
  let other ← oneArg args
  newBool ((← view (·.integer? other)) == some (← intOf recv))

def compareOp : Native := fun recv args _ => do
  let other ← oneArg args
  newOrder (numberOrder? (← intOf recv) (← payload other))

def relate (test : Ordering → Bool) : Native := fun recv args _ => do
  let other ← oneArg args
  let p ← payload other
  match numberOrder? (← intOf recv) p, p with
  | some o, _ => newBool (test o)
  | none, .float _ => newBool false
  | none, _ =>
    let shown ← if other.isNil then pure "nil" else className other
    argumentError s!"comparison of Integer with {shown} failed"

def test (p : Int → Bool) : Native := fun recv _ _ => do newBool (p (← intOf recv))

/-! ## Counting -/

/-- Hands a value to the block, or keeps it when there is none. -/
def emit (block : Option Value) (out : Array Value) (v : Value) : Op (Array Value) := do
  match block with
  | some b =>
    discard (callBlock b [v])
    pure out
  | none => pure (out.push v)

/-- Counts until the last number has been passed, or the next one has more than 64 bits. -/
def countThrough (block : Option Value) (first last step : Int) : Op (Array Value) :=
  repeatUntil (fun (i, out) => do
    if (0 < step && i ≤ last) || (step < 0 && last ≤ i) then
      let out ← emit block out (← newInt i)
      pure (if Number.isWord (i + step) then .inl (i + step, out) else .inr out)
    else pure (.inr out)) (first, #[])

/-- Counts with a block, or lists the numbers without one. -/
def count (recv : Value) (first last step : Int) (block : Option Value) : Op Value := do
  let out ← countThrough block first last step
  match block with
  | some _ => pure recv
  | none => newArray out

/-- There is no number below the least one of 64 bits. -/
def times : Native := fun recv _ block => do
  let n ← needWord recv
  count recv 0 (max (n - 1) Number.minWord) 1 block

def upto : Native := fun recv args block => do
  let last ← oneArg args
  let first ← needWord recv
  count recv first (← needWord last) 1 block

def downto : Native := fun recv args block => do
  let last ← oneArg args
  let first ← needWord recv
  count recv first (← needWord last) (-1) block

/-! ## Converting -/

def toF : Native := fun recv _ _ => do newFloat (Decimal.ofInt (← intOf recv))

def toS : Native := fun recv args _ => do
  let radix ← match ← atMostOneArg args with
    | some r => needWord r
    | none => pure 10
  if radix < 2 || radix > 36 then argumentError s!"invalid radix {radix}"
  else newChars (Number.inRadix radix.toNat (← intOf recv))

def chr : Native := fun recv _ _ => do
  let i ← intOf recv
  match Text.charOf? i with
  | some c => newChars [c]
  | none => argumentError s!"{i} out of char range"

def hashCode : Native := fun recv _ _ => do newInt (← view (·.hashCode recv))

/-- Decimal digits, the last one first. -/
def digits : Native := fun recv _ _ => do
  let i ← intOf recv
  if i < 0 then argumentError "out of domain"
  else
    let ds := (Number.digits 10 i.toNat).reverse
    newList (← ds.mapM fun c => newNat (c.toNat - '0'.toNat))

def entries : List Entry :=
  let on := Entry.method .integer
  let all := Entry.methods .integer
  [on "+" (arith (· + ·) (· + ·)),
   on "-" (arith (· - ·) (· - ·)),
   on "*" (arith (· * ·) (· * ·)),
   all ["/", "div"] divide,
   all ["%", "modulo"] modulo,
   all ["**", "pow"] power,
   on "divmod" divmod,
   on "fdiv" floatDivide,
   on "-@" (unary (- ·)),
   on "+@" itself,
   on "~" (unary Number.bitNot),
   on "&" (bitwise Number.bitAnd),
   on "|" (bitwise Number.bitOr),
   on "^" (bitwise Number.bitXor),
   on "<<" (shift 1),
   on ">>" (shift (-1)),
   all ["==", "==="] equal,
   on "eql?" eql,
   on "<=>" compareOp,
   on "<" (relate (·.isLT)),
   on "<=" (relate (·.isLE)),
   on ">" (relate (·.isGT)),
   on ">=" (relate (·.isGE)),
   on "times" times,
   on "upto" upto,
   on "downto" downto,
   all ["succ", "next"] (unary (· + 1)),
   on "pred" (unary (· - 1)),
   all ["abs", "magnitude"] (unary fun i => i.natAbs),
   on "zero?" (test (· == 0)),
   on "positive?" (test (· > 0)),
   on "negative?" (test (· < 0)),
   on "even?" (test (· % 2 == 0)),
   on "odd?" (test (· % 2 != 0)),
   on "integer?" (test fun _ => true),
   all ["to_i", "to_int", "floor", "ceil", "round", "truncate"] itself,
   on "to_f" toF,
   all ["to_s", "inspect"] toS,
   on "chr" chr,
   on "hash" hashCode,
   on "gcd" gcd,
   on "lcm" lcm,
   on "digits" digits,
   on "bit_length" (unary fun i => Number.bitLength i)]

end Library.Integers

end Garnet
