import Garnet.Object.Block
import Garnet.Number.Digits
import Garnet.Object.Dict
import Garnet.Regex.Machine

/-!
# The store

Everything a run reads and writes: the heap of objects, the scopes, the stacks of frames and scopes,
global variables, interned symbols, and what was written and is still to be read.
-/

namespace Garnet

/-- The part of a class or module that plain objects do not have. -/
structure ModuleInfo where
  name : String
  isModule : Bool
  base : Option Value
  alloc : AllocKind
  methods : MethodTable := {}
  /-- Included modules, the earliest first. -/
  included : List Value := []
  consts : Dict Value := {}
  cvars : Dict Value := {}

structure HashData where
  table : Table := {}
  fallback : Option Value := none
  /-- Called for a missing key. -/
  fallbackProc : Option Value := none

structure RegexpData where
  regex : Regex.Compiled
  source : String
  flags : String

/-- What an object holds beside its instance variables. -/
inductive Payload where
  | object
  | module (m : ModuleInfo)
  | nil
  | true
  | false
  | integer (i : Int)
  | float (x : Float)
  | text (s : String)
  | symbol (s : String)
  | array (items : Array Value)
  | hash (h : HashData)
  | range (first last : Value) (exclusive : Bool)
  | proc (p : ProcData)
  | regexp (r : RegexpData)

instance : Inhabited Payload := ⟨.object⟩

structure Object where
  cls : Value
  payload : Payload
  own : MethodTable := {}
  /-- Modules that the object itself was extended with, the earliest first. -/
  extended : List Value := []
  ivars : Dict Value := {}

instance : Inhabited Object := ⟨{ cls := CoreClass.object.value, payload := .object }⟩

inductive ScopeKind where
  | top
  | method
  | block
  | classBody
  deriving DecidableEq, Repr, Inhabited

/-- A method defined in a body that has not ended yet. -/
structure Pending where
  method : MethodDef
  visibility : Visibility

/-- One scope of local variables. Only block scopes see the scope around them. -/
structure Scope where
  kind : ScopeKind
  parent : Option ScopeId
  vars : Dict Value := {}
  pending : Dict Pending := {}
  /-- The visibility of definitions in the frame that was opened with this scope. -/
  visibility : Visibility := .pub

instance : Inhabited Scope := ⟨{ kind := .top, parent := none }⟩

structure Config where
  /-- The range of integers that are interned. -/
  cacheMin : Int := -1000
  cacheMax : Int := 1000
  maxDepth : Nat := 1000

namespace Config

def interns (c : Config) (i : Int) : Bool := c.cacheMin ≤ i && i ≤ c.cacheMax

/-- The place of an integer that is interned. -/
def place (c : Config) (i : Int) : Value := ⟨Value.firstFree + (i - c.cacheMin).toNat⟩

end Config

structure Store where
  config : Config
  objects : Array Object
  scopes : Array Scope
  /-- Innermost first. -/
  frames : List Frame
  /-- Innermost first. -/
  scopeStack : List ScopeId
  /-- Iterations in progress; empty while a visit runs. -/
  cells : Array (Option Progress) := #[]
  globals : Dict Value := {}
  symbols : Std.TreeMap String Value compare := {}
  /-- The groups of the last successful match. -/
  lastMatch : Option (List (Option String)) := none
  depth : Nat := 0
  lastActivation : Nat := 0
  /-- Sites of iterations count down from here, apart from those of programs. -/
  nextStop : Nat := 0xffffffff
  output : String := ""
  input : List String := []

namespace Store

def object (s : Store) (v : Value) : Object := s.objects.getD v.index default

def payload (s : Store) (v : Value) : Payload := (s.object v).payload

def classOf (s : Store) (v : Value) : Value := (s.object v).cls

def module? (s : Store) (v : Value) : Option ModuleInfo :=
  match s.payload v with
  | .module m => some m
  | _ => none

/-- Whether a value is a class or a module. -/
def isModuleLike (s : Store) (v : Value) : Bool := (s.module? v).isSome

def isClass (s : Store) (v : Value) : Bool :=
  match s.module? v with
  | some m => !m.isModule
  | none => false

def isModule (s : Store) (v : Value) : Bool :=
  match s.module? v with
  | some m => m.isModule
  | none => false

def moduleName? (s : Store) (v : Value) : Option String := (s.module? v).map (·.name)

/-- The name of the class of a value. -/
def className (s : Store) (v : Value) : String := (s.moduleName? (s.classOf v)).getD ""

def integer? (s : Store) (v : Value) : Option Int :=
  match s.payload v with
  | .integer i => some i
  | _ => none

/-- An integer of 64 bits. -/
def word? (s : Store) (v : Value) : Option Int :=
  match s.payload v with
  | .integer i => if Number.isWord i then some i else none
  | _ => none

def float? (s : Store) (v : Value) : Option Float :=
  match s.payload v with
  | .float x => some x
  | _ => none

def text? (s : Store) (v : Value) : Option String :=
  match s.payload v with
  | .text t => some t
  | _ => none

def symbol? (s : Store) (v : Value) : Option String :=
  match s.payload v with
  | .symbol t => some t
  | _ => none

def array? (s : Store) (v : Value) : Option (Array Value) :=
  match s.payload v with
  | .array xs => some xs
  | _ => none

def hash? (s : Store) (v : Value) : Option HashData :=
  match s.payload v with
  | .hash h => some h
  | _ => none

/-- The contents of a hash; anything else has none. -/
def entries (s : Store) (v : Value) : Table := ((s.hash? v).getD {}).table

def range? (s : Store) (v : Value) : Option (Value × Value × Bool) :=
  match s.payload v with
  | .range a b e => some (a, b, e)
  | _ => none

def proc? (s : Store) (v : Value) : Option ProcData :=
  match s.payload v with
  | .proc p => some p
  | _ => none

def regexp? (s : Store) (v : Value) : Option RegexpData :=
  match s.payload v with
  | .regexp r => some r
  | _ => none

def ivar? (s : Store) (v : Value) (name : String) : Option Value := (s.object v).ivars.get? name

/-! ## Changing objects -/

/-- Adds an object to the heap. -/
def alloc (s : Store) (o : Object) : Value × Store :=
  (⟨s.objects.size⟩, { s with objects := s.objects.push o })

def modifyObject (s : Store) (v : Value) (f : Object → Object) : Store :=
  { s with objects := s.objects.modify v.index f }

def setPayload (s : Store) (v : Value) (p : Payload) : Store :=
  s.modifyObject v fun o => { o with payload := p }

def setIvar (s : Store) (v : Value) (name : String) (x : Value) : Store :=
  s.modifyObject v fun o => { o with ivars := o.ivars.insert name x }

def modifyOwn (s : Store) (v : Value) (f : MethodTable → MethodTable) : Store :=
  s.modifyObject v fun o => { o with own := f o.own }

/-- Changes the class part of an object; nothing happens to one that has none. -/
def modifyModule (s : Store) (v : Value) (f : ModuleInfo → ModuleInfo) : Store :=
  s.modifyObject v fun o =>
    match o.payload with
    | .module m => { o with payload := .module (f m) }
    | _ => o

def modifyMethods (s : Store) (v : Value) (f : MethodTable → MethodTable) : Store :=
  s.modifyModule v fun m => { m with methods := f m.methods }

/-! ## Frames -/

/-- The innermost frame. -/
def frame (s : Store) : Frame := s.frames.headD .outermost

/-- The frame that a block closes over. -/
def captured (s : Store) (p : Value) : Frame :=
  match s.proc? p with
  | some ⟨.closure c, _⟩ => c.frame
  | some ⟨.native (.forStep _ _ frame _), _⟩ => frame
  | _ => .outermost

def self (s : Store) : Value := s.frame.self

/-- The innermost scope. -/
def scopeId (s : Store) : ScopeId := s.scopeStack.headD ⟨0⟩

/-! ## Equality of keys -/

/-- Equality of hash keys: by content for numbers, texts and arrays, by identity for all else.
`fuel` bounds the nesting of arrays. -/
def keyEqlWithin (s : Store) : Nat → Value → Value → Bool
  | 0, a, b => a == b
  | n + 1, a, b =>
    a == b ||
    match s.payload a, s.payload b with
    | .integer x, .integer y => x == y
    | .float x, .float y => x == y
    | .text x, .text y => x == y
    | .symbol x, .symbol y => x == y
    | .array xs, .array ys =>
      xs.size == ys.size && (xs.toList.zip ys.toList).all fun (x, y) => s.keyEqlWithin n x y
    | _, _ => false

def keyEql (s : Store) (a b : Value) : Bool := s.keyEqlWithin s.objects.size a b

end Store

/-! ## Tables -/

namespace Table

/-- The place of a key under the equality `eql`. -/
def position? (eql : Value → Value → Bool) (t : Table) (key : Value) : Option Nat :=
  t.keys.findIdx? fun k => eql k key

def get? (eql : Value → Value → Bool) (t : Table) (key : Value) : Option Value :=
  (t.position? eql key).bind fun i => t.values[i]?

/-- Replaces the value of a key, which keeps its place, or adds the key at the end. -/
def insert (eql : Value → Value → Bool) (t : Table) (key value : Value) : Table :=
  match t.position? eql key with
  | some i =>
    { t with
      values := t.values.set i value
      aligned := t.aligned.trans List.length_set.symm }
  | none =>
    { keys := t.keys ++ [key]
      values := t.values ++ [value]
      aligned := by rw [List.length_append, List.length_append, t.aligned]; rfl }

/-- Takes a key out, and its value with it; what comes behind moves up. -/
def erase (eql : Value → Value → Bool) (t : Table) (key : Value) : Table :=
  match t.position? eql key with
  | some i =>
    { keys := t.keys.eraseIdx i
      values := t.values.eraseIdx i
      aligned := by rw [List.length_eraseIdx, List.length_eraseIdx, t.aligned] }
  | none => t

def pairs (t : Table) : List (Value × Value) := t.keys.zip t.values

def size (t : Table) : Nat := t.keys.length

end Table

end Garnet
