import Garnet.Eval.Matching
import Garnet.Library.Basic

/-!
# Operations of regular expressions
-/

namespace Garnet.Library.Regexps

open Eval

/-- The text that is searched; there is none in nil. -/
def subject (v : Value) : Op (Option String) := do
  match ← payload v with
  | .nil => pure none
  | .symbol t => pure (some t)
  | _ => some <$> needText v

def isMatch : Native := fun recv args _ => do
  let text ← subject (← oneArg args)
  match ← view (·.regexp? recv), text with
  | some r, some t => newBool (r.regex.findFrom t.toList.toArray 0).isSome
  | _, _ => newBool false

/-- The position of the first match. -/
def matchAt (recv v : Value) : Op Value := do
  match ← subject v with
  | none =>
    recordMatch none
    pure .nil
  | some t =>
    match ← view (·.regexp? recv) with
    | some r => positionOrNil (← matchPosition r.regex t)
    | none => pure .nil

def matchOp : Native := fun recv args _ => do matchAt recv (← oneArg args)

def caseEqual : Native := fun recv args _ => do
  let v ← oneArg args
  match ← payload v with
  | .text _ | .symbol _ => newBool (!(← matchAt recv v).isNil)
  | _ => newBool false

/-- The groups of the first match as an array. -/
def matchGroups : Native := fun recv args _ => do
  discard (matchAt recv (← oneArg args))
  getGlobal "$~"

def source : Native := fun recv _ _ => do
  newText (← view fun s => ((s.regexp? recv).map (·.source)).getD "")

/-- The source with the options that are on and off. -/
def toS : Native := fun recv _ _ => do
  match ← view (·.regexp? recv) with
  | none => newText ""
  | some r =>
    let flags := r.flags.toList
    let on := "mix".toList.filter flags.contains
    let off := "mix".toList.filter (!flags.contains ·)
    let options := if off.isEmpty then on else on ++ '-' :: off
    let options := String.ofList options
    let source := r.source
    newText s!"(?{options}:{source})"

def inspectRegexp : Native := fun recv _ _ => do
  match ← view (·.regexp? recv) with
  | none => newText ""
  | some r =>
    let source := String.ofList
      (r.source.toList.flatMap fun c => if c == '/' then ['\\', '/'] else [c])
    let flags := r.flags
    newText s!"/{source}/{flags}"

def equal : Native := fun recv args _ => do
  let other ← oneArg args
  newBool (← view fun s => match s.regexp? recv, s.regexp? other with
    | some a, some b => a.source == b.source && a.flags == b.flags
    | _, _ => false)

def new : Native := fun _ args _ => do
  let (v, flags) ← oneOrTwoArgs args
  match ← view (·.regexp? v) with
  | some r => newRegexp r.source r.flags
  | none =>
    let source ← needText v
    let flags ← match flags with
      | none => pure ""
      | some f => view fun s => (s.text? f).getD (if f.truthy then "i" else "")
    newRegexp source flags

def escape : Native := fun _ args _ => do
  newText (Regex.quote (← needText (← oneArg args)))

def entries : List Entry :=
  let on := Entry.method .regexp
  let own := Entry.singleton CoreClass.regexp.value
  [on "match?" isMatch,
   on "=~" matchOp,
   on "===" caseEqual,
   on "match" matchGroups,
   on "source" source,
   on "to_s" toS,
   on "inspect" inspectRegexp,
   on "==" equal,
   own "new" new,
   own "escape" escape]

end Garnet.Library.Regexps
