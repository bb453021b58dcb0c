import Garnet.Tree.Basic
import Garnet.Number.Digits
import Garnet.Text.Json

/-!
# Trees in JSON

A tree is an object with a `type` and a list of `children`, or the two in a list. A child is tried
as a tree, an integer of 64 bits, a float, text, and `null` for an absent one.
-/

namespace Garnet

open Text (Json)

namespace Child

mutual

/-- The child a value stands for. -/
def ofJson? : Json → Option Child
  | .object members => do
    let (tag, children) ← fields? members
    some (.node tag children)
  | .list [.text tag] => some (.node tag [])
  | .list [.text tag, .list children] => do
    let children ← ofJsonAll? children
    some (.node tag children)
  | .list _ => none
  | .int i =>
    if Number.isWord i then some (.int (Int64.ofInt i))
    else some (.float (Decimal.ofInt i))
  | .float x => some (.float x)
  | .text s => some (.text s)
  | .null => some .absent
  | .bool _ => none

def ofJsonAll? : List Json → Option (List Child)
  | [] => some []
  | x :: xs => do
    let c ← ofJson? x
    let cs ← ofJsonAll? xs
    some (c :: cs)

/-- The `type` and `children` among the members of an object: the first is required, neither may
be repeated, and members of other names do not count. -/
def fields? : List (String × Json) → Option (String × List Child)
  | members => do
    let tag ← typeOf? members
    let children ← childrenOf? members
    some (tag, children)

/-- The one member named `type`. -/
def typeOf? : List (String × Json) → Option String
  | [] => none
  | (name, x) :: rest =>
    if name == "type" then
      match x with
      | .text s => if rest.any (·.1 == "type") then none else some s
      | _ => none
    else typeOf? rest

/-- The children of the one member named `children`, no children when there is none. -/
def childrenOf? : List (String × Json) → Option (List Child)
  | [] => some []
  | (name, x) :: rest =>
    if name == "children" then
      match x with
      | .list xs => if rest.any (·.1 == "children") then none else ofJsonAll? xs
      | _ => none
    else childrenOf? rest

end

end Child

/-- The tree a JSON text holds. -/
def Tree.ofJson? (text : String) : Option Tree := do
  let value ← Json.parse? ["type", "children"] text
  let child ← Child.ofJson? value
  child.tree?

end Garnet
