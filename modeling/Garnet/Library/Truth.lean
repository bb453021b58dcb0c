import Garnet.Library.Basic

/-!
# Operations of nil and the truth values
-/

namespace Garnet.Library.Truth

open Eval

def binary (f : Bool → Bool → Bool) : Native := fun recv args _ => do
  let other ← oneArg args
  newBool (f recv.truthy other.truthy)

def yes : Native := fun _ _ _ => newBool true

def text (t : String) : Native := fun _ _ _ => newText t

def truthText : Native := fun recv _ _ => newText (if recv.truthy then "true" else "false")

def not : Native := fun recv _ _ => newBool (!recv.truthy)

def same : Native := fun recv args _ => do newBool (recv == (← oneArg args))

def hashCode : Native := fun recv _ _ => do newInt (← view (·.hashCode recv))

def onTruth (c : CoreClass) : List Entry :=
  let on := Entry.method c
  [.methods c ["to_s", "inspect"] truthText,
   on "&" (binary and),
   on "|" (binary or),
   on "^" (binary xor),
   on "!" not,
   on "===" same,
   on "hash" hashCode]

def entries : List Entry :=
  let on := Entry.method .nilClass
  [on "nil?" yes,
   on "to_s" (text ""),
   on "to_a" fun _ _ _ => newList [],
   on "to_h" fun _ _ _ => newHash,
   on "to_i" fun _ _ _ => newInt 0,
   on "to_f" fun _ _ _ => newFloat 0.0,
   on "inspect" (text "nil"),
   on "&" (binary and),
   on "|" (binary or),
   on "^" (binary or)] ++ onTruth .trueClass ++ onTruth .falseClass

end Garnet.Library.Truth
