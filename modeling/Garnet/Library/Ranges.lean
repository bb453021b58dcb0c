import Garnet.Library.Integers
import Garnet.Text.Successor

/-!
# Operations of ranges
-/

namespace Garnet.Library.Ranges

open Eval

/-- The ends of a range. -/
structure Ends where
  first : Value
  last : Value
  exclusive : Bool

def endsOf (v : Value) : Op Ends := do
  match ← view (·.range? v) with
  | some (first, last, exclusive) => pure ⟨first, last, exclusive⟩
  | none =>
    let label ← typeLabel v
    typeError s!"{label} is not a Range"

def cantIterate {α : Type} (r : Ends) : Op α := do
  let kind ← className r.first
  typeError s!"can't iterate from {kind}"

/-- The first and last integer, when the range starts with one; there is no last one without an
end. -/
def intBounds? (r : Ends) : Op (Option (Int × Option Int)) := do
  match ← view (·.word? r.first) with
  | none => pure none
  | some low =>
    if r.last.isNil then pure (some (low, none))
    else
      match ← view (·.word? r.last), ← view (·.float? r.last) with
      | some high, _ => pure (some (low, some (if r.exclusive then high - 1 else high)))
      | none, some x => pure (some (low, some (Number.floorWord x)))
      | none, none => cantIterate r

variable {σ : Type}

/-- Visits integers `step` apart until the visit says stop. -/
def walkInts (visit : σ → Value → Op (σ × Bool)) (high : Option Int) (step low : Int) (st : σ) :
    Op σ :=
  repeatUntil (fun (i, st) => do
    if high.all (i ≤ ·) then
      let (st, more) ← visit st (← newInt i)
      pure (if more && i + step ≤ Number.maxWord then .inl (i + step, st) else .inr st)
    else pure (.inr st)) (low, st)

/-- Visits the texts from one to another, as long as they are not longer than the last one. -/
def walkTexts (visit : σ → Value → Op (σ × Bool)) (last : List Char) (exclusive : Bool)
    (first : List Char) (st : σ) : Op σ :=
  repeatUntil (fun (cs, st) => do
    let isLast := cs == last
    if cs.length > last.length || (isLast && exclusive) then pure (.inr st)
    else
      let (st, more) ← visit st (← newChars cs)
      pure (if more && !isLast then .inl (Text.succ cs, st) else .inr st)) (first, st)

/-- Visits the elements of a range in order. -/
def walkRange (visit : σ → Value → Op (σ × Bool)) (r : Ends) (st : σ) : Op σ := do
  match ← intBounds? r with
  | some (low, high) => walkInts visit high 1 low st
  | none =>
    match ← view fun s => (s.text? r.first, s.text? r.last) with
    | (some a, some b) => walkTexts visit b.toList r.exclusive a.toList st
    | _ => cantIterate r

/-- The elements of a range, at most `n` of them if there is a limit. -/
def takeElements (r : Ends) (limit : Option Nat) : Op (Array Value) :=
  walkRange (fun out v =>
    let out := out.push v
    pure (out, limit.all (out.size < ·))) r #[]

def elements (r : Ends) : Op (Array Value) := do
  if r.last.isNil then runtimeError "cannot convert endless range to an array"
  else takeElements r none

def first : Native := fun recv args _ => do
  let n ← atMostOneArg args
  let r ← endsOf recv
  match n with
  | none => pure r.first
  | some n =>
    let n ← needWord n
    if n < 0 then argumentError "negative array size (or size too big)"
    else if n == 0 then newList []
    else newArray (← takeElements r (some n.toNat))

def last : Native := fun recv args _ => do
  let n ← atMostOneArg args
  let r ← endsOf recv
  match n with
  | none => pure r.last
  | some n =>
    let n ← needWord n
    let all ← elements r
    newArray (all.extract (all.size - n.toNat) all.size)

/-- An end of a range that is not empty. -/
def extreme (ofInts : Int → Int → Int) (ofEnds : Ends → Value) : Native := fun recv _ _ => do
  let r ← endsOf recv
  match ← intBounds? r with
  | some (low, some high) => if high < low then pure .nil else newInt (ofInts low high)
  | _ => if (← order r.first r.last) == .gt then pure .nil else pure (ofEnds r)

def excludesEnd : Native := fun recv _ _ => do newBool (← endsOf recv).exclusive

def toA : Native := fun recv _ _ => do newArray (← elements (← endsOf recv))

def each : Native := fun recv args block => do
  match block with
  | none => toA recv args none
  | some b =>
    walkRange (fun () v => do
      discard (callBlock b [v])
      pure ((), true)) (← endsOf recv) ()
    pure recv

/-- The number of integers; nil when the range does not start with one. -/
def size : Native := fun recv _ _ => do
  match ← intBounds? (← endsOf recv) with
  | some (low, some high) => newInt (max 0 (min (high - low + 1) Number.maxWord))
  | some (_, none) => newFloat (1.0 / 0.0)
  | none => pure .nil

/-- Whether a value lies between the ends. -/
def isInside (r : Ends) (v : Value) : Op Bool := do
  let tooLow ← if r.first.isNil then pure false else do pure ((← order r.first v) == .gt)
  if tooLow then pure false
  else if r.last.isNil then pure true
  else
    match ← order v r.last with
    | .lt => pure true
    | .eq => pure (!r.exclusive)
    | .gt => pure false

/-- What can not be compared with the ends is not inside. -/
def includes : Native := fun recv args _ => do
  let v ← oneArg args
  let r ← endsOf recv
  match ← rescue (isInside r v) with
  | .ok b => newBool b
  | .error e =>
    if ← view (·.isA e CoreClass.argumentError.value) then newBool false else signal (.raise e)

/-- Floats `step` apart. The number of steps is rounded down a little generously. -/
def stepFloats (block : Option Value) (r : Ends) (low high step : Float) : Op (Array Value) :=
  let count := ((high - low) / step + 1e-9).floor.toInt64.toInt
  repeatUntil (fun (k, out) => do
    let x := low + Decimal.ofInt k * step
    if k > count || (r.exclusive && x ≥ high) then pure (.inr out)
    else
      let out ← Integers.emit block out (← newFloat x)
      pure (.inl (k + 1, out))) ((0 : Int), #[])

def step : Native := fun recv args block => do
  let stride ← oneArg args
  let r ← endsOf recv
  let out ← match ← view fun s => (s.word? r.first, s.word? stride) with
    | (some low, some n) =>
      if n ≤ 0 then argumentError "step can't be negative or zero"
      else
        let high := (← intBounds? r).bind (·.2)
        walkInts (fun out v => do pure (← Integers.emit block out v, true)) high n low #[]
    | _ =>
      match ← view fun s => (s.number? r.first, s.number? r.last, s.number? stride) with
      | (some low, some high, some n) =>
        if n ≤ 0.0 then argumentError "step can't be negative or zero"
        else stepFloats block r low high n
      | _ => cantIterate r
  match block with
  | some _ => pure recv
  | none => newArray out

/-- Integers are summed without visiting them. -/
def sum : Native := fun recv args block => do
  let r ← endsOf recv
  let bounds ← if block.isNone && args.isEmpty then intBounds? r else pure none
  match bounds with
  | some (low, some high) => newInt (if high < low then 0 else (low + high) * (high - low + 1) / 2)
  | _ =>
    let list ← newArray (← elements r)
    send list "sum" args block

def equal : Native := fun recv args _ => do
  let other ← oneArg args
  let a ← endsOf recv
  match ← view (·.range? other) with
  | none => newBool false
  | some (first, last, exclusive) =>
    if a.exclusive != exclusive then newBool false
    else if !(← equals a.first first) then newBool false
    else newBool (← equals a.last last)

/-- The bits of a word, turned to the left by seven places. -/
def turned (x : UInt64) : UInt64 := (x <<< 7) ||| (x >>> 57)

def hashCode : Native := fun recv _ _ => do
  let r ← endsOf recv
  let word := fun v => do pure (Int64.ofInt (← view (·.hashCode v))).toUInt64
  let first ← word r.first
  let last ← word r.last
  newInt (first ^^^ turned last ^^^ r.exclusive.toUInt64).toInt64.toInt

/-- Both ends with two or three dots between them; an end that is nil is left out. -/
def rendered (write : Value → Op String) : Native := fun recv _ _ => do
  let r ← endsOf recv
  let part := fun v : Value => if v.isNil then pure "" else write v
  let first ← part r.first
  let last ← part r.last
  newText (first ++ (if r.exclusive then "..." else "..") ++ last)

def entries : List Entry :=
  let on := Entry.method .range
  let all := Entry.methods .range
  [all ["first", "begin"] first,
   all ["last", "end"] last,
   on "min" (extreme (fun low _ => low) Ends.first),
   on "max" (extreme (fun _ high => high) Ends.last),
   on "exclude_end?" excludesEnd,
   on "each" each,
   all ["to_a", "entries"] toA,
   all ["size", "count"] size,
   all ["include?", "member?", "cover?", "==="] includes,
   on "step" step,
   on "sum" sum,
   on "==" equal,
   on "hash" hashCode,
   on "to_s" (rendered toText),
   on "inspect" (rendered inspect)]

end Garnet.Library.Ranges
