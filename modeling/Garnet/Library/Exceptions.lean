import Garnet.Library.Basic

/-!
# Operations of exceptions
-/

namespace Garnet.Library.Exceptions

open Eval

/-- Without a message, or with nil, the name of the class takes its place. -/
def construct : Native := fun recv args _ => do
  match ← atMostOneArg args with
  | some m =>
    if !m.isNil then
      let text ← newText (← toText m)
      update (.setIvar recv "@message" text)
  | none => pure ()
  pure .nil

def message : Native := fun recv _ _ => send recv "to_s" [] none

def toS : Native := fun recv _ _ => do newText (← view (·.exceptionMessage recv))

/-- The class with the message; an empty message leaves the name of the class alone. -/
def inspectException : Native := fun recv _ _ => do
  let text ← toText recv
  let kind ← className recv
  newText (if text.isEmpty then kind else s!"#<{kind}: {text}>")

def fullMessage : Native := fun recv _ _ => do
  let text ← toText recv
  let kind ← className recv
  newText s!"{text} ({kind})"

def nothing : Native := fun _ _ _ => pure .nil

/-- The exception itself, or a copy with another message. -/
def withMessage : Native := fun recv args _ => do
  match ← atMostOneArg args with
  | none => pure recv
  | some m =>
    let copy ← send recv "dup" [] none
    let text ← newText (← toText m)
    update (.setIvar copy "@message" text)
    pure copy

def equal : Native := fun recv args _ => do
  let other ← oneArg args
  newBool (← view fun s => recv == other ||
    (s.classOf recv == s.classOf other && s.exceptionMessage recv == s.exceptionMessage other))

def fromClass : Native := fun recv args _ => send recv "new" args none

def result : Native := fun recv _ _ => view fun s => (s.ivar? recv "@result").getD .nil

def entries : List Entry :=
  let on := Entry.method .exception
  [.hiddenMethod .exception "initialize" construct,
   on "message" message,
   on "to_s" toS,
   on "inspect" inspectException,
   on "full_message" fullMessage,
   on "backtrace" nothing,
   on "cause" nothing,
   on "exception" withMessage,
   on "==" equal,
   .singleton CoreClass.exception.value "exception" fromClass,
   .method .stopIteration "result" result]

end Garnet.Library.Exceptions
