import Garnet.Text.CharClass

/-!
# Texts in pieces
-/

namespace Garnet.Text

/-- The words between blanks. -/
def words : List Char → List Char → List (List Char)
  | [], word => if word.isEmpty then [] else [word.reverse]
  | c :: cs, word =>
    if isBlank c then
      if word.isEmpty then words cs [] else word.reverse :: words cs []
    else words cs (c :: word)

/-- At most `n` pieces, split at single blanks; the last piece is what is left. -/
def splitBlanks : Nat → List Char → List Char → List (List Char)
  | 0, cs, piece => [piece.reverse ++ cs]
  | _ + 1, [], piece => [piece.reverse]
  | n + 1, c :: cs, piece =>
    if isBlank c then piece.reverse :: splitBlanks n cs [] else splitBlanks (n + 1) cs (c :: piece)

/-- Lines with the newlines at their ends. -/
def lines : List Char → List Char → List (List Char)
  | [], line => if line.isEmpty then [] else [line.reverse]
  | c :: cs, line =>
    if c == '\n' then (c :: line).reverse :: lines cs [] else lines cs (c :: line)

/-- The first `n` characters of a filling that is repeated. -/
def fillTo (filling : List Char) (n : Nat) : List Char :=
  (List.range n).map fun i => filling.getD (i % filling.length) ' '

/-- A text without the given end. -/
def dropSuffix? (tail cs : List Char) : Option (List Char) :=
  if tail.isSuffixOf cs then some (cs.take (cs.length - tail.length)) else none

/-- Where a text first occurs in another. -/
def find? (needle : List Char) : List Char → Option Nat
  | [] => if needle.isEmpty then some 0 else none
  | c :: cs => if needle.isPrefixOf (c :: cs) then some 0 else (find? needle cs).map (· + 1)

end Garnet.Text
