import Garnet.Library.Basic

/-!
# Writing values, and the operations of the output
-/

namespace Garnet.Eval

/-- A text with a newline at its end. -/
def withNewline (t : String) : String := if t.endsWith "\n" then t else t.push '\n'

/-- Each value on a line of its own. An array stands for its elements, the empty one for an empty
line. -/
def linesText (vs : List Value) : Op String :=
  repeatUntil (fun (todo, out) => do
    match todo with
    | [] => pure (.inr out)
    | v :: rest =>
      match ← view (·.array? v) with
      | some items =>
        let out := if items.isEmpty then out.push '\n' else out
        pure (.inl (items.toList ++ rest, out))
      | none =>
        let t ← toText v
        pure (.inl (rest, out ++ withNewline t))) (vs, "")

/-- Writes values line by line; nothing at all is an empty line. -/
def writeLines (vs : List Value) : Op Unit := do
  let text ← if vs.isEmpty then pure "\n" else linesText vs
  write text

/-- The texts of the values one after the other. -/
def concatText (vs : List Value) : Op String :=
  vs.foldlM (fun out v => do pure (out ++ (← toText v))) ""

end Garnet.Eval

namespace Garnet.Library.Output

open Eval

def puts : Native := fun _ args _ => do
  writeLines args
  pure .nil

/-- Writes the text of each value as soon as it is there, and counts bytes. -/
def writeEach (args : List Value) : Op Nat :=
  args.foldlM (fun n v => do
    let t ← toText v
    write t
    pure (n + t.utf8ByteSize)) 0

def print : Native := fun _ args _ => do
  discard (writeEach args)
  pure .nil

def writeText : Native := fun _ args _ => do newNat (← writeEach args)

def append : Native := fun recv args _ => do
  write (← toText (← oneArg args))
  pure recv

def itself : Native := fun recv _ _ => pure recv

def setSync : Native := fun _ args _ => pure (args.headD .nil)

def entries : List Entry :=
  let on := Entry.method .io
  [on "puts" puts,
   on "print" print,
   on "write" writeText,
   on "<<" append,
   on "flush" itself,
   on "sync" fun _ _ _ => newBool true,
   on "sync=" setSync,
   on "tty?" fun _ _ _ => newBool false,
   .methods .io ["to_s", "inspect"] fun _ _ _ => newText "#<IO:<STDOUT>>"]

end Garnet.Library.Output
