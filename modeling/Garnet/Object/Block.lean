import Garnet.Object.Method

/-!
# Frames and blocks

A frame is a self with the method activation it belongs to. A block closes over a frame and a scope.
Some blocks are made by operations and not by program text: the step of a `for` loop, the visit of
an iteration, and the block that sends a fixed message.
-/

namespace Garnet

/-- One invocation of a method. -/
structure Activation where
  id : Nat
  /-- The name of the method and where it was found; a `super` call goes on from there. -/
  method : Option (String × Holder)
  args : List Value
  block : Option Value

/-- The current self. -/
structure Frame where
  self : Value
  activation : Option Activation
  /-- The scope that was opened together with the frame; it keeps the default visibility of
  definitions. -/
  home : ScopeId
  /-- The activation of the lambda whose body runs; a `return` leaves it first. -/
  lambda : Option Nat

namespace Frame

/-- The frame of what runs outside of methods and bodies. -/
def outermost : Frame := ⟨.main, none, ⟨0⟩, none⟩

def block (f : Frame) : Option Value := f.activation.bind (·.block)

/-- The activation that a `return` in this frame ends. -/
def returnTarget (f : Frame) : Option Nat := f.lambda <|> f.activation.map (·.id)

end Frame

/-- The contents of a hash: its keys in order of insertion, and their values at the same places of a
second list. -/
structure Table where
  keys : List Value
  values : List Value
  aligned : keys.length = values.length

instance : EmptyCollection Table := ⟨⟨[], [], rfl⟩⟩

instance : Inhabited Table := ⟨{}⟩

/-- What an element is tested against. -/
inductive Test where
  | equals (target : Value)
  | block (b : Value)

/-- What an iteration does with each element. -/
inductive Visit where
  | gather
  | map (b : Value)
  | flatMap (b : Value)
  | filter (b : Value) (keep : Bool)
  | filterMap (b : Value)
  | find (b : Value)
  | findIndex (t : Test)
  | withIndex (b : Value)
  | withObject (b memo : Value)
  /-- Consecutive groups, overlapping or not; without a block they are kept. -/
  | chunks (b : Option Value) (size : Nat) (overlapping : Bool)
  | fold (op : Option String) (b : Option Value)
  | sum (b : Option Value)
  | count (t : Option Test)
  | includes (t : Test)
  | first
  | take (n : Nat)
  | keyed (b : Value)
  /-- Stops at the first element whose test gives `stopOn`. -/
  | until (pattern b : Option Value) (stopOn : Bool)
  | partition (b : Value)
  /-- Counts equal elements in a hash. -/
  | tally (counts : Value)
  /-- Takes the elements, or what the block makes of them, for the entries of a hash. -/
  | toHash (b : Option Value) (into : Value)
  | each (b : Value)

/-- What an iteration has found so far. -/
structure Progress where
  items : Array Value := #[]
  others : Array Value := #[]
  held : Option Value := none
  count : Nat := 0
  hit : Bool := false

/-- A block that an operation hands to another method. -/
inductive NativeBlock where
  /-- Feeds its argument to the iteration kept in a cell; `site` is how it stops its source. -/
  | visit (cell : Nat) (v : Visit) (site : Nat)
  | forStep (target : Target Expr) (body : Expr) (frame : Frame) (scope : ScopeId)
  /-- Sends a message to its first argument. -/
  | message (name : String)

/-- A block of program text with what it closes over. -/
structure Closure where
  params : Params Expr
  body : Expr
  scope : ScopeId
  frame : Frame
  site : Nat

inductive ProcBody where
  | closure (c : Closure)
  | native (b : NativeBlock)

structure ProcData where
  body : ProcBody
  lambda : Bool

def ProcData.arity (p : ProcData) : Int :=
  match p.body with
  | .closure c => c.params.arity
  | .native _ => -1

end Garnet
