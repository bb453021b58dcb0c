/-!
# Digits and bits of integers

Digits in any radix up to 36, and the bitwise operations on integers seen as endless rows of bits:
the row of a negative number is the complement of the row of the number one below its magnitude.
-/

namespace Garnet.Number

/-! ## Integers of 64 bits -/

/-- The least integer of 64 bits. -/
def minWord : Int := -0x8000000000000000

/-- The largest integer of 64 bits. -/
def maxWord : Int := 0x7fffffffffffffff

/-- Whether an integer fits in 64 bits. -/
def isWord (i : Int) : Bool := minWord ≤ i && i ≤ maxWord

/-- What lies between two integers of 64 bits has 64 bits. -/
theorem isWord_of_between {low high i : Int} (hlow : isWord low) (hhigh : isWord high) (hl : low ≤ i)
    (hh : i ≤ high) : isWord i := by
  simp only [isWord, Bool.and_eq_true, decide_eq_true_eq] at *
  omega

/-! ## Radix -/

/-- A digit below 36 as a character. -/
def digitChar (d : Nat) : Char :=
  Char.ofNat (if d < 10 then '0'.toNat + d else 'a'.toNat + (d - 10))

/-- The value of a character as a digit in some radix up to 36. -/
def digitValue? (radix : Nat) (c : Char) : Option Nat :=
  let d :=
    if c.isDigit then c.toNat - '0'.toNat
    else if c.isLower then c.toNat - 'a'.toNat + 10
    else if c.isUpper then c.toNat - 'A'.toNat + 10
    else radix
  if d < radix then some d else none

/-- The digits of a number in front of `acc`; `fuel` bounds their number. -/
def digitsLoop (radix : Nat) : Nat → Nat → List Char → List Char
  | 0, _, acc => acc
  | fuel + 1, n, acc =>
    let acc := digitChar (n % radix) :: acc
    if n / radix == 0 then acc else digitsLoop radix fuel (n / radix) acc

def digits (radix n : Nat) : List Char := digitsLoop radix (n.log2 + 1) n []

/-- An integer in a radix, with a sign when it is negative. -/
def inRadix (radix : Nat) (i : Int) : List Char :=
  (if i < 0 then ['-'] else []) ++ digits radix i.natAbs

/-- The value of digits in a radix; what is no digit counts as zero. -/
def ofDigits (radix : Nat) (ds : List Char) : Nat :=
  ds.foldl (fun n c => radix * n + (digitValue? radix c).getD 0) 0

/-- Decimal digits with an optional sign. An underscore may follow a digit. -/
def integer? (cs : List Char) : Option Int :=
  let (negative, ds) := match cs with
    | '-' :: ds => (true, ds)
    | '+' :: ds => (false, ds)
    | ds => (false, ds)
  match ds with
  | [] | '_' :: _ => none
  | _ =>
    let ds := ds.filter (· != '_')
    if ds.all Char.isDigit then
      let n : Int := ofDigits 10 ds
      some (if negative then -n else n)
    else none

/-! ## Bits -/

/-- The bits of `m` that are not bits of `n`. -/
def without (m n : Nat) : Nat := m - (m &&& n)

def bitAnd : Int → Int → Int
  | .ofNat m, .ofNat n => .ofNat (m &&& n)
  | .ofNat m, .negSucc n => .ofNat (without m n)
  | .negSucc m, .ofNat n => .ofNat (without n m)
  | .negSucc m, .negSucc n => .negSucc (m ||| n)

def bitOr : Int → Int → Int
  | .ofNat m, .ofNat n => .ofNat (m ||| n)
  | .ofNat m, .negSucc n => .negSucc (without n m)
  | .negSucc m, .ofNat n => .negSucc (without m n)
  | .negSucc m, .negSucc n => .negSucc (m &&& n)

def bitXor : Int → Int → Int
  | .ofNat m, .ofNat n => .ofNat (m ^^^ n)
  | .ofNat m, .negSucc n => .negSucc (m ^^^ n)
  | .negSucc m, .ofNat n => .negSucc (m ^^^ n)
  | .negSucc m, .negSucc n => .ofNat (m ^^^ n)

def bitNot (i : Int) : Int := -i - 1

/-- The number of bits up to the highest one. -/
def bitCount (n : Nat) : Nat := if n == 0 then 0 else n.log2 + 1

/-- The number of bits up to the highest one that differs from the sign. -/
def bitLength : Int → Nat
  | .ofNat n => bitCount n
  | .negSucc n => bitCount n

/-- Multiplies by a power of two, or divides by one rounding down. -/
def shiftLeft (i count : Int) : Int :=
  if i == 0 then 0
  else if count ≥ 0 then i * Nat.pow 2 count.toNat
  else if count.natAbs > bitLength i then (if i < 0 then -1 else 0)
  else Int.fdiv i (Nat.pow 2 count.natAbs)

/-- A whole power. -/
def power (i : Int) (n : Nat) : Int :=
  let m : Int := Nat.pow i.natAbs n
  if i < 0 && n % 2 == 1 then -m else m

end Garnet.Number
