import Garnet.Eval.Act

/-!
# The vocabulary of actions

What operations and expressions are written with: reading the store, making objects, raising errors
and repeating.
-/

namespace Garnet

/-- How a value is named in messages: `an instance of C`, `class C`, `nil`. -/
def Store.describe (s : Store) (v : Value) : String :=
  match s.payload v with
  | .nil => "nil"
  | .true => "true"
  | .false => "false"
  | .module m => if m.isModule then s!"module {m.name}" else s!"class {m.name}"
  | _ => if v == .main then "main:Object" else s!"an instance of {s.className v}"

namespace Eval

variable {ℓ : Layer} {α σ : Type}

def perform (r : Request) (h : r.allowed ℓ = true := by exact Eq.refl true) : Act ℓ Value :=
  .perform r id h

def signal (s : Signal) (h : s.allowed ℓ = true := by exact Eq.refl true) : Act ℓ α := .signal s h

/-- Reads something off the store. -/
def view (f : Store → α) : Act ℓ α := .view f

def update (c : Change) (h : c.allowed ℓ = true := by exact Eq.refl true) : Act ℓ Unit :=
  .change c (fun _ => ()) h

/-- The outcome of `x` as a value when it is a value or an exception. -/
def rescue (x : Act ℓ α) : Act ℓ (Except Value α) := .rescue x id

/-- Repeats `step` at most so many times until it gives a result. -/
def repeatFor (step : σ → Act ℓ (σ ⊕ α)) : Nat → σ → Act ℓ α
  | 0, _ => .exhausted
  | n + 1, st => .bind (step st) fun
    | .inl st => repeatFor step n st
    | .inr a => .pure a

/-- Repeats `step` until it gives a result. -/
def repeatUntil (step : σ → Act ℓ (σ ⊕ α)) (st : σ) : Act ℓ α :=
  .bind (.fuel id) fun n => repeatFor step n st

/-! ## Making objects -/

/-- Makes a change that adds one object, and gives the object. -/
def make (c : Change) (h : c.allowed ℓ = true := by exact Eq.refl true) : Act ℓ Value :=
  .change c (fun s => ⟨s.objects.size⟩) h

def alloc (c : CoreClass) (payload : Payload) (ivars : Dict Value)
    (h : payload.isNew = true := by exact Eq.refl true) : Op Value :=
  make (.alloc c payload ivars) h

def newObject (c : CoreClass) (p : Payload) (h : p.isNew = true := by exact Eq.refl true) :
    Op Value :=
  alloc c p {} h

def newText (s : String) : Op Value := newObject .string (.text s)

def newChars (cs : List Char) : Op Value := newText (String.ofList cs)

def newFloat (x : Float) : Op Value := newObject .float (.float x)

def newArray (items : Array Value) : Op Value := newObject .array (.array items)

def newList (items : List Value) : Op Value := newArray items.toArray

/-- A hash without entries. -/
def newHash : Op Value := newObject .hash (.hash {})

/-- Gives a key of a hash its value. -/
def insertEntry (h key value : Value) : Op Unit := update (.editHash h (.insert key value))

/-- The value of a key in a hash. -/
def lookupEntry (h key : Value) : Op (Option Value) :=
  view fun s => (s.entries h).get? s.keyEql key

def newRange (a b : Value) (exclusive : Bool) : Op Value :=
  newObject .range (.range a b exclusive)

/-- An integer; those in the interned range are always the same object. -/
def newInt (i : Int) : Op Value := do
  let c ← view (·.config)
  if c.interns i then pure (c.place i) else make (.allocInteger i)

def newNat (n : Nat) : Op Value := newInt n

/-- A symbol; two of the same name are the same object. -/
def newSymbol (name : String) : Op Value := do
  match ← view (·.symbols[name]?) with
  | some v => pure v
  | none => make (.allocSymbol name)

def newSymbols (names : List String) : Op Value := do
  newList (← names.mapM newSymbol)

def newBool (b : Bool) : Op Value := pure (.ofBool b)

/-! ## Raising exceptions -/

/-- An exception object that carries a message. -/
def newException (c : CoreClass) (message : String) : Op Value := do
  let text ← newText message
  alloc c .object (({} : Dict Value).insert "@message" text)

/-- Raises an error of the language itself. -/
def raise (c : CoreClass) (message : String)
    (h : c ≠ .systemStackError := by decide) : Act ℓ α :=
  .fail c message h

def typeError (message : String) : Act ℓ α := raise .typeError message
def argumentError (message : String) : Act ℓ α := raise .argumentError message
def nameError (message : String) : Act ℓ α := raise .nameError message
def noMethodError (message : String) : Act ℓ α := raise .noMethodError message
def runtimeError (message : String) : Act ℓ α := raise .runtimeError message
def indexError (message : String) : Act ℓ α := raise .indexError message
def keyError (message : String) : Act ℓ α := raise .keyError message
def localJumpError (message : String) : Act ℓ α := raise .localJumpError message

def dividedByZero : Act ℓ α := raise .zeroDivisionError "divided by 0"

def noBlockGiven : Act ℓ α := localJumpError "no block given (yield)"

/-- An operation on classes; its refusal is a type error. -/
def model (check : Store → Except ModelError α) (c : Change)
    (h : c.allowed .library = true := by exact Eq.refl true) : Op α := do
  match ← view check with
  | .ok a => .change c (fun _ => a) h
  | .error e => typeError e.message

/-! ## Reading objects -/

def payload (v : Value) : Op Payload := view (·.payload v)

def className (v : Value) : Op String := view (·.className v)

def classOf (v : Value) : Op Value := view (·.classOf v)

def self : Op Value := view (·.self)

def keyEql (a b : Value) : Op Bool := view (·.keyEql a b)

def describe (v : Value) : Op String := view (·.describe v)

/-- How errors call the kind of a value: `nil`, `true` and `false` by name, all else by class. -/
def typeLabel (v : Value) : Op String := do
  match ← payload v with
  | .nil => pure "nil"
  | .true => pure "true"
  | .false => pure "false"
  | _ => className v

/-! ## Stacks -/

def newScope (kind : ScopeKind) (parent : Option ScopeId) : Op ScopeId :=
  .change (.newScope kind parent) (fun s => ⟨s.scopes.size⟩) rfl

/-- The number of a new activation. -/
def newActivation : Op Nat := .change .newActivation (fun s => s.lastActivation + 1) rfl

def write (text : String) : Op Unit := update (.write text)

end Eval

end Garnet
