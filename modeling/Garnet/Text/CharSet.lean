/-!
# Sets of characters

A set of code points is stored as the increasing list of the points where membership changes,
starting outside the set: a point is a member exactly when an odd number of boundaries lie at or
below it. A set that a program writes is a text, in which `a-z` stands for a range, and `^` in front
of something else for all other characters.
-/

namespace Garnet.Text

/-! ## Boundary lists -/

/-- Boundaries in increasing order. -/
structure CharSet where
  bounds : Array Nat

namespace CharSet

/-- How many of the boundaries between positions `lo` and `hi` lie at or below `c`, found by
halving; `fuel` bounds the number of halvings. -/
def search (bounds : Array Nat) (c : Nat) : Nat → Nat → Nat → Nat
  | 0, lo, _ => lo
  | fuel + 1, lo, hi =>
    if hi ≤ lo then lo
    else
      let mid := (lo + hi) / 2
      if bounds.getD mid 0 ≤ c then search bounds c fuel (mid + 1) hi
      else search bounds c fuel lo mid

/-- The number of boundaries at or below `c`. -/
def rank (s : CharSet) (c : Nat) : Nat := search s.bounds c 32 0 s.bounds.size

def contains (s : CharSet) (c : Char) : Bool := s.rank c.toNat % 2 == 1

end CharSet

/-! ## Sets written as text -/

/-- The characters from one to another. -/
def charsFrom (first last : Char) : List Char :=
  (List.range (last.toNat + 1 - first.toNat)).filterMap fun k =>
    let n := first.toNat + k
    if n.isValidChar then some (Char.ofNat n) else none

/-- The characters of a set in order, ranges spelled out. -/
def expandRanges : List Char → List Char
  | a :: '-' :: b :: rest =>
    if a ≤ b then charsFrom a b ++ expandRanges rest else a :: expandRanges ('-' :: b :: rest)
  | c :: rest => c :: expandRanges rest
  | [] => []

structure Letterset where
  chars : List Char
  negated : Bool

namespace Letterset

def ofText (cs : List Char) : Letterset :=
  match cs with
  | '^' :: c :: rest => ⟨expandRanges (c :: rest), true⟩
  | _ => ⟨expandRanges cs, false⟩

def contains (s : Letterset) (c : Char) : Bool := s.chars.contains c != s.negated

/-- Maps the characters of the set to those at the same place of `target`, or else to its last one;
with nothing to map to they are dropped. -/
def translate (s : Letterset) (target : List Char) (cs : List Char) : List Char :=
  cs.filterMap fun c =>
    if !s.contains c then some c
    else if s.negated then target.getLast?
    else target[s.chars.idxOf c]? <|> target.getLast?

end Letterset

/-- Drops a character that satisfies the test and equals the one kept before it. -/
def squeeze (p : Char → Bool) : Option Char → List Char → List Char
  | _, [] => []
  | previous, c :: rest =>
    if p c && previous == some c then squeeze p previous rest else c :: squeeze p (some c) rest

end Garnet.Text
