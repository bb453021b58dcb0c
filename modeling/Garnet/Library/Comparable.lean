import Garnet.Library.Basic

/-!
# Comparisons by `<=>`
-/

namespace Garnet.Library.Comparable

open Eval

/-- What `<=>` gives as an order; two values without one can not be compared. -/
def sentOrder (a b : Value) : Op Ordering := do
  let r ← send a "<=>" [b] none
  match ← view (·.word? r) with
  | some n => pure (compare n 0)
  | none =>
    let kind ← className a
    let label ← typeLabel b
    argumentError s!"comparison of {kind} with {label} failed"

def test (p : Ordering → Bool) : Native := fun recv args _ => do
  newBool (p (← sentOrder recv (← oneArg args)))

/-- Values that can not be compared are different. -/
def equal : Native := fun recv args _ => do
  let other ← oneArg args
  if recv == other then newBool true
  else
    let r ← send recv "<=>" [other] none
    newBool ((← view (·.word? r)) == some 0)

def between : Native := fun recv args _ => do
  let (low, high) ← twoArgs args
  let above := (← sentOrder recv low) != .lt
  let below := (← sentOrder recv high) != .gt
  newBool (above && below)

/-- The limits that the arguments give: two values, or the ends of a range. -/
def limits (args : List Value) : Op (Value × Value) := do
  match ← oneOrTwoArgs args with
  | (low, some high) => pure (low, high)
  | (r, none) =>
    match ← view (·.range? r) with
    | some (low, high, _) => pure (low, high)
    | none =>
      let label ← typeLabel r
      typeError s!"wrong argument type {label} (expected Range)"

/-- Whether two limits are given and compare as asked. -/
def exceeds (a b : Value) (want : Ordering) (given : Bool) : Op Bool := do
  if given then pure ((← sentOrder a b) == want) else pure false

def clamp : Native := fun recv args _ => do
  let (low, high) ← limits args
  if ← exceeds low high .gt (!low.isNil && !high.isNil) then
    argumentError "min argument must be less than or equal to max argument"
  else if ← exceeds recv low .lt (!low.isNil) then pure low
  else if ← exceeds recv high .gt (!high.isNil) then pure high
  else pure recv

def entries : List Entry :=
  let on := Entry.method .comparable
  [on "<" (test (·.isLT)),
   on "<=" (test (·.isLE)),
   on ">" (test (·.isGT)),
   on ">=" (test (·.isGE)),
   on "==" equal,
   on "between?" between,
   on "clamp" clamp]

end Garnet.Library.Comparable
