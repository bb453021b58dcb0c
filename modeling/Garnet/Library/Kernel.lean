import Garnet.Library.Format
import Garnet.Library.Output

/-!
# Operations that need no receiver
-/

namespace Garnet.Library.Kernel

open Eval

def puts : Native := fun _ args _ => do
  writeLines args
  pure .nil

def print : Native := fun _ args _ => do
  write (← concatText args)
  pure .nil

/-- Writes what `inspect` gives and answers what it was given. -/
def inspectLines : Native := fun _ args _ => do
  let text ← args.foldlM (fun out v => do
    let shown ← inspect v
    pure ((out ++ shown).push '\n')) ""
  write text
  match args with
  | [] => pure .nil
  | [v] => pure v
  | _ => newList args

def formatted (args : List Value) : Op String := do
  match args with
  | [] => arityError 0 "1+"
  | f :: rest =>
    let f ← needText f
    formatText f rest

def format : Native := fun _ args _ => do newText (← formatted args)

def printf : Native := fun _ args _ => do
  write (← formatted args)
  pure .nil

def gets : Native := fun _ _ _ => do
  match ← view (·.input) with
  | [] => pure .nil
  | line :: _ =>
    update .readLine
    newText (line.push '\n')

/-- The exception that the arguments of `raise` describe. -/
def exceptionFor (args : List Value) : Op Value := do
  match args with
  | [] =>
    let current ← getGlobal "$!"
    if current.isNil then newException .runtimeError "unhandled exception"
    else pure current
  | first :: rest =>
    match ← view (·.text? first) with
    | some t => newException .runtimeError t
    | none =>
      if ← view (·.isClass first) then send first "new" rest none
      else if ← view (·.isA first CoreClass.exception.value) then
        match rest with
        | m :: _ => update (.setIvar first "@message" m)
        | [] => pure ()
        pure first
      else typeError "exception class/object expected"

def raiseException : Native := fun _ args _ => do
  checkArity args 0 2
  let exc ← exceptionFor args
  signal (.raise exc)

/-- Calls the block until it breaks; the end of an iteration ends the loop too. -/
def loop : Native := fun _ _ block => do
  let b ← needBlock block
  repeatUntil (fun (_ : Unit) => do
    match ← rescue (callBlock b []) with
    | .ok _ => pure (.inl ())
    | .error exc =>
      if ← view (·.isA exc CoreClass.stopIteration.value) then
        .inr <$> view fun s => (s.ivar? exc "@result").getD .nil
      else signal (.raise exc)) ()

def blockGiven : Native := fun _ _ _ => do newBool (← view (·.frame.block)).isSome

def proc : Native := fun _ _ block => needBlock block

/-- A lambda with the text and the surroundings of a block. -/
def lambda : Native := fun _ _ block => do
  let b ← needBlock block
  match ← view (·.proc? b) with
  | some { body := .closure _, lambda := false } => make (.allocLambda b)
  | _ => pure b

def require : Native := fun _ _ _ => newBool false

/-- A text without blanks around it and without underscores. -/
def numeralChars (t : String) : List Char := (Text.trim t.toList).filter (· != '_')

def toInteger : Native := fun _ args _ => do
  let (v, _) ← oneOrTwoArgs args
  match ← payload v with
  | .integer _ => pure v
  | .float x =>
    match Decimal.truncate? x with
    | some i => newInt i
    | none => cantConvert v "Integer"
  | .text t =>
    match Number.integer? (numeralChars t) with
    | some i => newInt i
    | none =>
      let shown := Text.inspectText t
      argumentError s!"invalid value for Integer(): {shown}"
  | _ => cantConvert v "Integer"

def toFloat : Native := fun _ args _ => do
  let v ← oneArg args
  match ← view (·.number? v) with
  | some x => newFloat x
  | none =>
    match ← view (·.text? v) with
    | some t =>
      match Decimal.floatOrName? (numeralChars t) with
      | some x => newFloat x
      | none =>
        let shown := Text.inspectText t
        argumentError s!"invalid value for Float(): {shown}"
    | none => cantConvert v "Float"

def toString : Native := fun _ args _ => do newText (← toText (← oneArg args))

def toArray : Native := fun _ args _ => do
  let v ← oneArg args
  if (← view (·.array? v)).isSome then pure v
  else if v.isNil then newList []
  else if ← respondsTo v "to_a" false then send v "to_a" [] none
  else newList [v]

def entries : List Entry :=
  let on := Entry.hiddenMethod .kernel
  [on "puts" puts,
   on "print" print,
   on "p" inspectLines,
   on "gets" gets,
   on "raise" raiseException,
   on "fail" raiseException,
   on "loop" loop,
   on "block_given?" blockGiven,
   on "proc" proc,
   on "lambda" lambda,
   on "require" require,
   on "require_relative" require,
   on "Integer" toInteger,
   on "Float" toFloat,
   on "String" toString,
   on "Array" toArray,
   on "format" format,
   on "sprintf" format,
   on "printf" printf]

end Garnet.Library.Kernel
