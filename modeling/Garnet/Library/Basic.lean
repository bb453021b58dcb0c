import Garnet.Eval.Bodies
import Garnet.Eval.Convert

/-!
# Builtin operations

A builtin operation takes a receiver, arguments and possibly a block. This module has what they
share: checks of the number and kind of arguments, and positions in sequences.
-/

namespace Garnet

/-- A builtin operation. -/
abbrev Native := Value → List Value → Option Value → Op Value

/-- Where an operation is installed, and under which names. -/
structure Entry where
  home : Holder
  names : List String
  run : Native
  visibility : Visibility := .pub

namespace Entry

/-- A public instance method under several names. -/
def methods (c : CoreClass) (names : List String) (run : Native) : Entry :=
  { home := .instances c.value, names, run }

def method (c : CoreClass) (name : String) (run : Native) : Entry := methods c [name] run

def hiddenMethod (c : CoreClass) (name : String) (run : Native) : Entry :=
  { home := .instances c.value, names := [name], run, visibility := .priv }

/-- A method of one object. -/
def singleton (v : Value) (name : String) (run : Native) : Entry :=
  { home := .own v, names := [name], run }

end Entry

namespace Eval

variable {α : Type}

/-! ## Counting arguments -/

def arityError (given : Nat) (expected : String) : Op α :=
  argumentError s!"wrong number of arguments (given {given}, expected {expected})"

/-- Checks that there are `min` to `max` arguments. -/
def checkArity (args : List Value) (min max : Nat) : Op Unit :=
  let n := args.length
  if min ≤ n && n ≤ max then pure ()
  else arityError n (if min == max then toString min else s!"{min}..{max}")

/-- Checks that there are at least `min` arguments. -/
def checkAtLeast (args : List Value) (min : Nat) : Op Unit :=
  if min ≤ args.length then pure () else arityError args.length s!"{min}+"

def oneArg (args : List Value) : Op Value :=
  match args with
  | [a] => pure a
  | _ => arityError args.length "1"

def twoArgs (args : List Value) : Op (Value × Value) :=
  match args with
  | [a, b] => pure (a, b)
  | _ => arityError args.length "2"

def atMostOneArg (args : List Value) : Op (Option Value) :=
  match args with
  | [] => pure none
  | [a] => pure (some a)
  | _ => arityError args.length "0..1"

def oneOrTwoArgs (args : List Value) : Op (Value × Option Value) :=
  match args with
  | [a] => pure (a, none)
  | [a, b] => pure (a, some b)
  | _ => arityError args.length "1..2"

def needBlock : Option Value → Op Value
  | some b => pure b
  | none => noBlockGiven

/-! ## Kinds of arguments -/

def noConversion (v : Value) (kind : String) : Op α := do
  let label ← typeLabel v
  typeError s!"no implicit conversion of {label} into {kind}"

def cantConvert (v : Value) (kind : String) : Op α := do
  let label ← typeLabel v
  typeError s!"can't convert {label} into {kind}"

def needInt (v : Value) : Op Int := do
  match ← payload v with
  | .integer i => pure i
  | _ => noConversion v "Integer"

/-- An integer of 64 bits; a float counts by its integer part. -/
def needWord (v : Value) : Op Int := do
  match ← payload v with
  | .integer i =>
    if Number.isWord i then pure i else argumentError "integer out of range"
  | .float x => pure x.toInt64.toInt
  | _ => noConversion v "Integer"

theorem needWord_run {e : Engine} {s : Store} {v : Value} {i : Int} (hv : s.payload v = .integer i)
    (hi : Number.isWord i) : (needWord v).run e s = .ok i s := by
  simp only [needWord, payload, view, bind, pure, Act.run, hv, hi, if_true]

def needText (v : Value) : Op String := do
  match ← payload v with
  | .text t => pure t
  | _ => noConversion v "String"

def needArray (v : Value) : Op (Array Value) := do
  match ← payload v with
  | .array xs => pure xs
  | _ => noConversion v "Array"

end Eval

/-! ## Positions -/

/-- A position that may count from the end. -/
def normIndex (i : Int) (len : Nat) : Option Nat :=
  let j := if i < 0 then i + len else i
  if 0 ≤ j && j < len then some j.toNat else none

/-- The bounds of `count` elements from `start` on, cut off at the end; nothing when the start lies
outside. The two are meant to have a sum of 64 bits. -/
def sliceBounds (start count : Int) (len : Nat) : Option (Nat × Nat) :=
  let s := if start < 0 then start + len else start
  if s < 0 || s > len || count < 0 then none
  else some (s.toNat, (min (s + count) len).toNat)

/-- The bounds that a range with the given ends selects; an end that is missing is that of the
sequence. -/
def rangeBounds (first last : Option Int) (exclusive : Bool) (len : Nat) : Option (Nat × Nat) :=
  let start := first.getD 0
  let start := if start < 0 then start + len else start
  let stop := last.getD (len - 1)
  let stop := if stop < 0 then stop + len else stop
  let stop := if exclusive && last.isSome then stop - 1 else stop
  if start < 0 || start > len then none
  else sliceBounds start (max (stop - start + 1) 0) len

namespace Eval

/-- An end of a range as a position; nil leaves it open. -/
def rangeEnd (v : Value) : Op (Option Int) := do
  if v.isNil then pure none else some <$> needWord v

/-- The bounds that a range selects out of `len` elements. -/
def boundsOf (first last : Value) (exclusive : Bool) (len : Nat) : Op (Option (Nat × Nat)) := do
  let a ← rangeEnd first
  let b ← rangeEnd last
  pure (rangeBounds a b exclusive len)

/-- The largest text or array that a repetition may build. -/
def maxBuilt : Nat := 0x40000000

/-- The length of `n` copies of a run, if it is not too large. -/
def repeatLength (unit : Nat) (n : Int) : Op Nat :=
  if n < 0 || unit * n.toNat > maxBuilt then argumentError "argument too big"
  else pure (unit * n.toNat)

/-- Inserts into a table under the equality of keys. -/
def tableInsert (t : Table) (key value : Value) : Op Table :=
  view fun s => t.insert s.keyEql key value

def tableGet? (t : Table) (key : Value) : Op (Option Value) :=
  view fun s => t.get? s.keyEql key

end Eval

end Garnet
