/-!
# Programs

The expression language that trees are built into. Every form evaluates to a value, so a
conditional, a loop or a class body may stand wherever a value is wanted.

The parts of a form that hold expressions of their own are parametrised by the type of expressions,
so that one definition serves both the forms and the routines that build them.
-/

namespace Garnet

/-- One item of an argument list or an array literal. -/
inductive Item (ε : Type) where
  | plain (e : ε)
  | splat (e : ε)

/-- One piece of an interpolated text. -/
inductive Piece (ε : Type) where
  | literal (s : String)
  | hole (e : ε)

/-- Where a constant is looked up. -/
inductive ConstPath (ε : Type) where
  /-- The enclosing bodies, innermost first. -/
  | lexical
  /-- The outermost class. -/
  | top
  | inside (e : ε)

/-- A positional parameter: a name, or a pattern that an array is taken apart by. -/
inductive Pattern where
  | name (n : String)
  | nested (parts : List Pattern)

/-- The parameters of a method, a block or a lambda. -/
structure Params (ε : Type) where
  required : List Pattern := []
  /-- Names with their default expressions. -/
  optional : List (String × ε) := []
  rest : Option String := none
  /-- A star without a name still takes arguments. -/
  anonymousRest : Bool := false
  /-- Required parameters that follow an optional or rest one. -/
  post : List Pattern := []
  block : Option String := none
  /-- A block with one plain parameter never takes an array apart. -/
  single : Bool := false

namespace Params

variable {ε : Type}

def requiredCount (p : Params ε) : Nat := p.required.length + p.post.length

def hasRest (p : Params ε) : Bool := p.rest.isSome || p.anonymousRest

/-- The number of arguments wanted, or `-(n + 1)` when `n` are wanted and more are taken. -/
def arity (p : Params ε) : Int :=
  if p.hasRest || !p.optional.isEmpty then -((p.requiredCount : Int) + 1) else p.requiredCount

/-- Whether a strict call with `n` arguments is allowed. -/
def accepts (p : Params ε) (n : Nat) : Bool :=
  p.requiredCount ≤ n && (p.hasRest || n ≤ p.requiredCount + p.optional.length)

end Params

/-- A block written at a call; `site` is what a `break` inside it names. -/
structure BlockLiteral (ε : Type) where
  params : Params ε
  body : ε
  site : Nat

/-- The block handed to a call. -/
inductive BlockArg (ε : Type) where
  | none
  | literal (b : BlockLiteral ε)
  | pass (e : ε)
  /-- The block of the running method. -/
  | forward

/-- One place in a multiple assignment. -/
inductive Slot (τ : Type) where
  | one (t : τ)
  /-- What the other places leave over, possibly discarded. -/
  | rest (t : Option τ)

/-- Where a value computed elsewhere is stored. -/
inductive Target (ε : Type) where
  | localVar (n : String)
  | ivar (n : String)
  | gvar (n : String)
  | cvar (n : String)
  | const (path : ConstPath ε) (n : String)
  | attribute (recv : Option ε) (setter : String) (args : List (Item ε)) (safe : Bool)
  | index (recv : ε) (args : List (Item ε))
  | many (slots : List (Slot (Target ε)))

/-- What can be read and then written by the assignments that update a value. -/
inductive Place (ε : Type) where
  | localVar (n : String)
  | ivar (n : String)
  | gvar (n : String)
  | cvar (n : String)
  | const (path : ConstPath ε) (n : String)
  | attribute (recv : Option ε) (reader setter : String) (safe : Bool)
  | index (recv : ε) (args : List (Item ε))

/-- One clause of an exception handler. -/
structure Clause (ε : Type) where
  /-- Without a list the clause takes every standard error. -/
  classes : Option (List (Item ε))
  bind : Option (Target ε)
  body : ε

/-- A program. -/
inductive Expr where
  | nil
  | true
  | false
  | self
  /-- The outermost class. -/
  | root
  | int (i : Int)
  | float (x : Float)
  | text (s : String)
  | symbol (s : String)
  | interpolated (pieces : List (Piece Expr))
  | interpolatedSymbol (pieces : List (Piece Expr))
  | regexp (pieces : List (Piece Expr)) (flags : String)
  | array (items : List (Item Expr))
  | hash (pairs : List (Expr × Expr))
  | range (first last : Expr) (exclusive : Bool)
  | localVar (n : String)
  | ivar (n : String)
  | gvar (n : String)
  | cvar (n : String)
  | const (path : ConstPath Expr) (n : String)
  | group (n : Nat)
  | setLocal (n : String) (value : Expr)
  | setIvar (n : String) (value : Expr)
  | setGvar (n : String) (value : Expr)
  | setCvar (n : String) (value : Expr)
  | setConst (path : ConstPath Expr) (n : String) (value : Expr)
  | setMany (target : Target Expr) (value : Expr)
  /-- An assignment `place op= value`. -/
  | update (place : Place Expr) (op : String) (value : Expr)
  /-- An assignment `place &&= value` when `whenTrue`, else `place ||= value`. -/
  | updateIf (place : Place Expr) (whenTrue : Bool) (value : Expr)
  | sequence (parts : List Expr)
  | cond (test yes no : Expr)
  /-- Repeats while the test's truth differs from `negate`; `post` runs the body once first. -/
  | loop (test body : Expr) (negate post : Bool) (site : Nat)
  | forEach (target : Target Expr) (source body : Expr) (site : Nat)
  /-- The right side is evaluated only when the left side's truth is `whenTrue`. -/
  | logic (whenTrue : Bool) (left right : Expr)
  | not (e : Expr)
  | select (subject : Option Expr) (arms : List (List (Item Expr) × Expr)) (otherwise : Expr)
  | next (value : Expr)
  | breakTo (site : Nat) (value : Expr)
  | returnWith (value : Expr)
  | rescue (body : Expr) (clauses : List (Clause Expr)) (otherwise : Option Expr)
  | ensure (body cleanup : Expr)
  /-- A message; `setter` marks one that yields its last argument, `safe` one that skips a nil
  receiver. -/
  | send (recv : Option Expr) (name : String) (args : List (Item Expr)) (block : BlockArg Expr)
      (safe setter : Bool)
  /-- Without an argument list the running method's arguments are handed on. -/
  | super (args : Option (List (Item Expr))) (block : BlockArg Expr)
  | yield (args : List (Item Expr))
  | index (recv : Expr) (args : List (Item Expr))
  | setIndex (recv : Expr) (args : List (Item Expr))
  | splat (e : Expr)
  | lambda (block : BlockLiteral Expr)
  | define (name : String) (params : Params Expr) (body : Expr)
  | defineOn (target : Expr) (name : String) (params : Params Expr) (body : Expr)
  | openClass (path : ConstPath Expr) (name : String) (base body : Option Expr)
  | openModule (path : ConstPath Expr) (name : String) (body : Option Expr)
  | openSingleton (target : Expr) (body : Option Expr)
  | aliasMethod (new old : Expr)

instance : Inhabited Expr := ⟨.nil⟩

end Garnet
