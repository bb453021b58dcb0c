import Garnet.Library.Integers
import Garnet.Text.Case
import Garnet.Text.Successor

/-!
# Operations of symbols
-/

namespace Garnet.Library.Symbols

open Eval

def symbolName (v : Value) : Op String := do pure ((← view (·.symbol? v)).getD "")

def toS : Native := fun recv _ _ => do newText (← symbolName recv)

def itself : Native := fun recv _ _ => pure recv

def inspectSymbol : Native := fun recv _ _ => do newText (Text.inspectSymbol (← symbolName recv))

/-- A proc that sends the symbol to its first argument. -/
def toProc : Native := fun recv _ _ => do
  newObject .proc (.proc ⟨.native (.message (← symbolName recv)), false⟩)

def length : Native := fun recv _ _ => do newNat (← symbolName recv).length

def compareOp : Native := fun recv args _ => do
  let other ← oneArg args
  let n ← symbolName recv
  newOrder ((← view (·.symbol? other)).map (compare n))

def equal : Native := fun recv args _ => do
  let other ← oneArg args
  newBool ((← view (·.symbol? other)) == some (← symbolName recv))

def mapped (f : List Char → List Char) : Native := fun recv _ _ => do
  newSymbol (String.ofList (f (← symbolName recv).toList))

/-- Does what a text of the same name does. -/
def asText (name : String) : Native := fun recv args block => do
  let t ← newText (← symbolName recv)
  send t name args block

def isEmpty : Native := fun recv _ _ => do newBool (← symbolName recv).isEmpty

def hashCode : Native := fun recv _ _ => do newInt (← view (·.hashCode recv))

def entries : List Entry :=
  let on := Entry.method .symbol
  let all := Entry.methods .symbol
  [all ["to_s", "id2name", "name"] toS,
   on "to_sym" itself,
   on "inspect" inspectSymbol,
   on "to_proc" toProc,
   all ["length", "size"] length,
   on "<=>" compareOp,
   all ["==", "==="] equal,
   on "upcase" (mapped Text.uppercase),
   on "downcase" (mapped Text.lowercase),
   on "succ" (mapped Text.succ),
   on "[]" (asText "[]"),
   on "empty?" isEmpty,
   on "start_with?" (asText "start_with?"),
   on "end_with?" (asText "end_with?"),
   on "hash" hashCode]

end Garnet.Library.Symbols
