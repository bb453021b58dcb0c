import Garnet.Decimal.Digits
import Garnet.Session.Engine
import Garnet.Session.Start
import Garnet.Text.Quoted
import Garnet.Tree.Printer

/-!
# Running programs

A program is an expression that runs on a store. It ends with a value or with an exception that it
did not rescue; a jump that nothing caught becomes an exception here.
-/

namespace Garnet

/-- How a program ends. -/
inductive Outcome where
  | value (v : Value)
  | uncaught (exc : Value)
  | exhausted

/-- More fuel than any run that ends uses. -/
def defaultFuel : Nat := 0x1000000000000000

namespace Store

variable {α : Type}

/-- Runs an evaluation on a store. -/
def evaluate (s : Store) (x : Eval α) : Except Stop α × Store :=
  match x.run (Engine.ofFuel defaultFuel) s with
  | .ok a s => (.ok a, s)
  | .error e s => (.error e, s)

/-- The exception that a jump becomes when nothing caught it. -/
def strayJump (s : Store) (message : String) : Outcome × Store :=
  let (exc, s) := s.newException CoreClass.localJumpError.value message
  (.uncaught exc, s)

/-- Runs a program; a `return` outside of methods ends it with a value. -/
def runProgram (s : Store) (program : Expr) : Outcome × Store :=
  match s.evaluate (Eval.perform (.eval program)) with
  | (.ok v, s) => (.value v, s)
  | (.error .exhausted, s) => (.exhausted, s)
  | (.error (.signal signal), s) =>
    match signal with
    | .raise exc => (.uncaught exc, s)
    | .returnTo none v => (.value v, s)
    | .returnTo (some _) _ => s.strayJump "unexpected return"
    | .next _ => s.strayJump "next used outside of block"
    | .breakTo _ _ => s.strayJump "break from proc-closure"

/-- What was written so far, taken out of the store. -/
def takeOutput (s : Store) : String × Store := (s.output, { s with output := "" })

/-- The heights of the stacks of frames and scopes. -/
def stackDepths (s : Store) : Nat × Nat := (s.frames.length, s.scopeStack.length)

/-- A plain rendering of a value that runs no code; `fuel` bounds the nesting of arrays. -/
def debugText (s : Store) : Nat → Value → String
  | 0, _ => "..."
  | n + 1, v =>
    match s.payload v with
    | .nil => "nil"
    | .true => "true"
    | .false => "false"
    | .integer i => toString i
    | .float x => String.ofList (Decimal.plain x)
    | .text t => String.ofList (Text.Quoted.encode t.toList)
    | .symbol t => ":" ++ t
    | .module m => m.name
    | .array items => "[" ++ ", ".intercalate (items.toList.map (s.debugText n)) ++ "]"
    | _ => s!"#<{s.className v}:0x{place v}>"
where
  place (v : Value) : String := String.ofList (Number.digits 16 (8 * v.index + 8))

end Store

end Garnet
