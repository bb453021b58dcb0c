import Garnet.Text.Case
import Garnet.Text.Letters

/-!
# Patterns

A pattern is built from sets of characters, positions that hold or fail, sequence, preference and
repetition. Of several ways to match, the one that the earlier alternatives and the greedier
repetitions prefer is taken.
-/

namespace Garnet.Regex

/-- A set of characters. -/
inductive Chars where
  | any
  | range (first last : Char)
  | digit
  | space
  | word
  | upper
  | lower
  | alphabetic
  | numeric
  | not (s : Chars)
  | both (s t : Chars)
  | either (s t : Chars)
  /-- Everything that differs from a member only in case. -/
  | folded (s : Chars)
  | none

namespace Chars

def single (c : Char) : Chars := .range c c

def contains : Chars → Char → Bool
  | .any, _ => true
  | .range first last, c => first ≤ c && c ≤ last
  | .digit, c => Text.isDecimalDigit c
  | .space, c => Text.isBlank c
  | .word, c => Text.isWordChar c
  | .upper, c => Text.isUppercase c
  | .lower, c => Text.isLowercase c
  | .alphabetic, c => Text.isAlphabetic c
  | .numeric, c => Text.isNumeric c
  | .not s, c => !s.contains c
  | .both s t, c => s.contains c && t.contains c
  | .either s t, c => s.contains c || t.contains c
  | .folded s, c => (Text.caseVariants c).any s.contains
  | .none, _ => false

end Chars

/-- A condition on the position in the text. -/
inductive Look where
  | textStart
  | textEnd
  | lineStart
  | lineEnd
  | wordBoundary
  | notWordBoundary
  | wordStart
  | wordEnd
  deriving DecidableEq

/-- A pattern. -/
inductive Node where
  | empty
  | chars (s : Chars)
  | look (l : Look)
  | cat (a b : Node)
  | alt (a b : Node)
  | repeated (a : Node) (min : Nat) (max : Option Nat) (greedy : Bool)
  | capture (index : Nat) (a : Node)

namespace Node

/-- The fewest characters a match takes. -/
def minLength : Node → Nat
  | .empty | .look _ => 0
  | .chars _ => 1
  | .cat a b => a.minLength + b.minLength
  | .alt a b => min a.minLength b.minLength
  | .repeated a n _ _ => n * a.minLength
  | .capture _ a => a.minLength

end Node

end Garnet.Regex
