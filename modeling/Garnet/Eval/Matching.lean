import Garnet.Eval.Basic
import Garnet.Regex.Parser

/-!
# Patterns and matches
-/

namespace Garnet

/-- The part of a text that a span covers. -/
def spanText (text : Array Char) (s : Regex.Span) : String :=
  String.ofList (text.extract s.first s.last).toList

/-- The texts of the groups of a match. -/
def groupTexts (text : Array Char) (m : Regex.Match) : List (Option String) :=
  m.groups.map (·.map (spanText text))

namespace Eval

/-- The options that letters after a pattern turn on. -/
def regexOptions (flags : String) : Regex.Options :=
  let fs := flags.toList
  { ignoreCase := fs.contains 'i', dotAll := fs.contains 'm', extended := fs.contains 'x' }

/-- A pattern from its source: `\h` is a hexadecimal digit, and `\Z` the end of the text. -/
def newRegexp (source flags : String) : Op Value := do
  let expanded := (source.replace "\\h" "[0-9a-fA-F]").replace "\\Z" "\\z"
  match Regex.Compiled.parse? (regexOptions flags) expanded with
  | some regex => newObject .regexp (.regexp { regex, source, flags })
  | none => runtimeError "invalid pattern"

/-- A regular expression, or a text that stands for itself. -/
def pattern (v : Value) : Op Regex.Compiled := do
  match ← payload v with
  | .regexp r => pure r.regex
  | .text t => pure (Regex.Compiled.literal t)
  | _ =>
    let label ← typeLabel v
    typeError s!"wrong argument type {label} (expected Regexp)"

/-- Remembers the groups of a match. -/
def recordMatch (groups : Option (List (Option String))) : Op Unit :=
  update (.recordMatch groups)

/-- The position of the first match, which is remembered. -/
def matchPosition (re : Regex.Compiled) (text : String) : Op (Option Nat) := do
  let chars := text.toList.toArray
  let found := re.findFrom chars 0
  recordMatch (found.map (groupTexts chars))
  pure (found.map (·.whole.first))

def positionOrNil : Option Nat → Op Value
  | some i => newNat i
  | none => pure .nil

end Eval

end Garnet
