import Garnet.Eval.Send
import Garnet.Decimal.Numeral
import Garnet.Text.Inspect

/-!
# Conversions and comparisons

Texts of values, equality and order. Numbers and texts are compared directly; anything else is asked
by a message.
-/

namespace Garnet

/-- The text of an object that has no other. -/
def Store.defaultText (s : Store) (v : Value) : String := s!"#<{s.className v}>"

/-- The text of a number, text, symbol, truth value or nil. -/
def Store.scalarText? (s : Store) (v : Value) : Option String :=
  match s.payload v with
  | .nil => some ""
  | .true => some "true"
  | .false => some "false"
  | .integer i => some (toString i)
  | .float x => some (Text.floatText x)
  | .text t => some t
  | .symbol t => some t
  | _ => none

/-- An integer or float as a double. -/
def Store.number? (s : Store) (v : Value) : Option Float :=
  match s.payload v with
  | .integer i => some (Decimal.ofInt i)
  | .float x => some x
  | _ => none

/-- The message an exception carries: its own, or the name of its class. -/
def Store.exceptionMessage (s : Store) (exc : Value) : String :=
  match s.ivar? exc "@message" with
  | some m => (s.text? m).getD ""
  | none => s.className exc

namespace Eval

/-- The text that `to_s` gives. -/
def toText (v : Value) : Op String := do
  match ← payload v with
  | .text t => pure t
  | _ =>
    let out ← send v "to_s" [] none
    view fun s => (s.text? out).getD (s.defaultText v)

/-- The text that `inspect` gives. -/
def inspect (v : Value) : Op String := do
  let out ← send v "inspect" [] none
  view fun s => (s.text? out).getD (s.defaultText v)

/-- How two doubles compare; nothing when one is not a number. -/
def compareFloats (x y : Float) : Option Ordering :=
  if x < y then some .lt else if x > y then some .gt else if x == y then some .eq else none

/-- Whether an integer and a double are the same number after rounding the integer. -/
def equalsFloat (i : Int) (x : Float) : Bool := Decimal.ofInt i == x

/-- Equality of values, by the message `==` where it is not plain. -/
def equals (a b : Value) : Op Bool := do
  if a == b then pure true
  else
    match ← payload a, ← payload b with
    | .integer x, .integer y => pure (x == y)
    | .float x, .float y => pure (x == y)
    | .integer x, .float y => pure (equalsFloat x y)
    | .float x, .integer y => pure (equalsFloat y x)
    | .text x, .text y => pure (x == y)
    | .symbol x, .symbol y => pure (x == y)
    | .nil, _ | .true, _ | .false, _ => pure false
    | _, _ =>
      let r ← send a "==" [b] none
      pure r.truthy

/-- The order of two values when they are numbers or texts. -/
def plainOrder? (s : Store) (a b : Value) : Option Ordering :=
  match s.payload a, s.payload b with
  | .integer x, .integer y => some (compare x y)
  | .text x, .text y => some (compare x y)
  | _, _ =>
    match s.number? a, s.number? b with
    | some x, some y => compareFloats x y
    | _, _ => none

/-- The text of a number or nil, and the class of anything else. -/
def inspectOrClass (v : Value) : Op String := do
  match ← Act.inspected v id with
  | some out => view fun s => (s.text? out).getD (s.defaultText v)
  | none => className v

/-- The order of two values, by the message `<=>` where it is not plain. -/
def order (a b : Value) : Op Ordering := do
  match ← view (plainOrder? · a b) with
  | some o => pure o
  | none =>
    let r ← send a "<=>" [b] none
    match ← view (·.word? r) with
    | some n => pure (compare n 0)
    | none =>
      let shown ← inspectOrClass b
      let kind ← className a
      argumentError s!"comparison of {kind} with {shown} failed"

/-- Whether a pattern takes a value, by the message `===`. -/
def caseEquals (pattern v : Value) : Op Bool := do
  let r ← send pattern "===" [v] none
  pure r.truthy

/-- The elements of an array, or the value alone. -/
def toList (v : Value) : Op (List Value) :=
  view fun s => match s.array? v with
    | some xs => xs.toList
    | none => [v]

/-- A symbol or text as a name. -/
def nameOf (v : Value) : Op String := do
  match ← payload v with
  | .symbol t | .text t => pure t
  | _ =>
    let shown ← view fun s => (s.scalarText? v).getD (s.defaultText v)
    typeError s!"{shown} is not a symbol nor a string"

end Eval

/-! ## Hash codes -/

/-- Combines a code with what came before. -/
def mixCode (h x : UInt64) : UInt64 := mixHash h x

/-- A code made of what a value holds: numbers, texts and the elements of arrays in order. The code of
any other value tells which one it is, but that of a hash is made of its keys in any order: hashes that
are written one after the other as literals come to lie at one place, and then have one code. -/
def Store.codeWithin (s : Store) : Nat → UInt64 → Value → UInt64
  | 0, h, v => mixCode h (hash v.index)
  | n + 1, h, v =>
    match s.payload v with
    | .integer i => mixCode h (hash i)
    | .float x => mixCode h (hash x.toBits)
    | .text t => mixCode h (hash t)
    | .symbol t => mixCode (mixCode h 58) (hash t)
    | .nil => mixCode h 1000001
    | .true => mixCode h 1000002
    | .false => mixCode h 1000003
    | .array xs => xs.toList.foldl (fun h x => s.codeWithin n h x) h
    | .hash t => mixCode h ((t.table.keys.map (s.codeWithin n 11)).foldl (· + ·) 13)
    | _ => mixCode h (hash v.index)

def Store.hashCode (s : Store) (v : Value) : Int :=
  (s.codeWithin s.objects.size 7 v).toInt64.toInt / 4

end Garnet
