import Garnet.Library.Basic
import Garnet.Number.Digits

/-!
# Operations of procs
-/

namespace Garnet.Library.Procs

open Eval

def call : Native := fun recv args block => callBlockWith recv args block

def itself : Native := fun recv _ _ => pure recv

def isLambda : Native := fun recv _ _ => do
  newBool (← view fun s => ((s.proc? recv).map (·.lambda)).getD false)

def arity : Native := fun recv _ _ => do
  newInt (← view fun s => ((s.proc? recv).map (·.arity)).getD (-1))

def inspectProc : Native := fun recv _ _ => do
  let lambda ← view fun s => ((s.proc? recv).map (·.lambda)).getD false
  let place := String.ofList (Number.digits 16 (8 * recv.index + 8))
  let mark := if lambda then " (lambda)" else ""
  newText s!"#<Proc:0x{place}{mark}>"

def fromBlock : Native := fun _ _ block => needBlock block

def entries : List Entry :=
  let on := Entry.method .proc
  [.methods .proc ["call", "()", "yield", "[]", "==="] call,
   on "to_proc" itself,
   on "lambda?" isLambda,
   on "arity" arity,
   .methods .proc ["inspect", "to_s"] inspectProc,
   .singleton CoreClass.proc.value "new" fromBlock]

end Garnet.Library.Procs
