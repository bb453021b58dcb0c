import Garnet.Tree.Basic
import Garnet.Decimal.Digits
import Garnet.Text.Quoted

/-!
# Writing trees

A tree is written `(tag child child)`: integers in decimal, text in quotes, an absent child as
`nil`, and floats with the fewest digits that read back, always positionally. A float without a
fraction is written with every digit and `.0`.
-/

namespace Garnet

namespace Decimal

/-- A double written positionally, a tie between two shortest decimals going up. -/
def plain (x : Float) : List Char :=
  match Finite.ofFloat? x with
  | none => if x.isNaN then "NaN".toList else if x < 0 then "-inf".toList else "inf".toList
  | some f =>
    let sign := if f.negative then ['-'] else []
    if f.mantissa == 0 then sign ++ ['0']
    else sign ++ (f.shortest .up).written.positional

/-- A double as a tree child: an integral one is written with every digit and the fraction `.0`. -/
def plainWithPoint (x : Float) : List Char :=
  match Finite.ofFloat? x with
  | some f =>
    if f.isIntegral then
      (if f.negative then ['-'] else []) ++ Nat.toDigits 10 f.whole ++ ['.', '0']
    else plain x
  | none => plain x

end Decimal

/-- The decimal digits of an integer. -/
def intText (i : Int) : List Char :=
  if i < 0 then '-' :: Nat.toDigits 10 i.natAbs else Nat.toDigits 10 i.natAbs

namespace Child

mutual

def print : Child → List Char
  | .node tag children => '(' :: tag.toList ++ printAll children ++ [')']
  | .int v => intText v.toInt
  | .float v => Decimal.plainWithPoint v
  | .text s => Text.Quoted.encode s.toList
  | .absent => "nil".toList

/-- Each child after a blank. -/
def printAll : List Child → List Char
  | [] => []
  | c :: cs => ' ' :: print c ++ printAll cs

end

end Child

/-- The written form of a tree. -/
def Tree.print (t : Tree) : String := String.ofList t.toChild.print

end Garnet
