import Garnet.Eval.Change

/-!
# Actions

An action changes the store and ends with a value or a stop. A stop is a signal that some construct
catches, an exception or a jump, or the end of the run without an answer, when the fuel is exhausted or
the program is aborted, which nothing catches.

Actions are trees, and running one is a function of its own, so that it can be told what an action
does at every point of its run and not only what comes out of it. The parts of the language call
each other through requests. An engine performs a request with less fuel than it was given, so that
every run is a total function.

There are three layers. An operation of the library changes what is in the store, sends messages
and calls blocks. An expression of the language also evaluates program text, brings it into the
store, and jumps. A call runs the body of a method or a block, and writes to tables of constants.
-/

namespace Garnet

/-- How an action leaves what encloses it, other than with a value. -/
inductive Signal where
  | raise (exc : Value)
  /-- Ends the pass of a loop or the call of a block. -/
  | next (v : Value)
  /-- Ends the loop or the call whose block has this site. -/
  | breakTo (site : Nat) (v : Value)
  /-- Ends an activation, or the program when there is no target. -/
  | returnTo (target : Option Nat) (v : Value)

inductive Stop where
  | signal (s : Signal)
  /-- There is no answer: the fuel is exhausted, or the program is aborted. -/
  | exhausted

/-- Runs a proc as if it were a method of `self`. -/
structure Rebind where
  self : Value
  activation : Activation
  /-- Whether the proc is the body of a method, and not a block with another self. -/
  lambda : Bool

/-- What a name is defined as. -/
inductive Definition where
  | constant (v : Value)
  /-- A class, which may be there already, with its base where one is written. -/
  | cls (base : Option Value)
  /-- A module, which may be there already. -/
  | module

/-- What one part of the language asks of another. -/
inductive Request where
  | eval (e : Expr)
  /-- Stores a value in a target; the answer does not matter. -/
  | store (t : Target Expr) (v : Value)
  | send (access : Access) (recv : Value) (name : String) (args : List Value)
      (block : Option Value)
  /-- A message to self that a method bound in the scope may answer. -/
  | sendBound (recv : Value) (name : String) (args : List Value) (block : Option Value)
  | invoke (m : MethodDef) (holder : Holder) (recv : Value) (args : List Value)
      (block : Option Value)
  | callProc (p : Value) (args : List Value) (block : Option Value) (rebind : Option Rebind)
  /-- Gives a name in a class or module its meaning; the answer is what it means then. -/
  | define (holder : Value) (name : String) (d : Definition)
  /-- Runs the text of the block `p`. -/
  | enter (p : Value) (c : Closure) (lambda : Bool) (args : List Value) (block : Option Value)
      (rebind : Option Rebind)

inductive Layer where
  | library
  | language
  | call

/-- Whether what belongs to one layer can be used in another. -/
def Layer.below : Layer → Layer → Bool
  | .library, _ | .language, .language | _, .call => true
  | _, _ => false

/-- A `return` is no signal of its own making: where it goes depends on the frame. -/
def Signal.allowed : Signal → Layer → Bool
  | .raise _, _ | .breakTo .., _ => true
  | .next _, .library | .returnTo .., _ => false
  | .next _, _ => true

/-- Only a call writes to a table of constants, after a look at what the name means there. The
library assigns no global variable. -/
def Change.allowed : Change → Layer → Bool
  | .setConst .., .library | .setConst .., .language | .setGlobal .., .library => false
  | .alloc _ payload _, _ => payload.isNew
  | c, .library => c.isPlain
  | _, _ => true

namespace Request

def allowed : Request → Layer → Bool
  | _, .call | send .., _ | sendBound .., _ | define .., _ => true
  | callProc _ _ _ rebind, _ => rebind.all (!·.lambda)
  | enter .., _ | _, .library => false
  | _, .language => true

/-- Asks a value for the text that shows it. -/
def inspection (v : Value) : Request := send .all v "inspect" [] none

/-- Whether a request counts as a call: that of a method, or of a block of program text. -/
def isCall : Request → Bool
  | invoke .. | enter .. => true
  | _ => false

end Request

/-- What a body runs as. -/
inductive Setting where
  | method (self : Value) (activation : Activation)
  /-- A lambda; a `return` in it ends the activation `id`. -/
  | lambda (p : Value) (id : Nat)
  /-- A proc that is the body of a method. -/
  | methodProc (self : Value) (activation : Activation)
  | block (p : Value)
  /-- A block or a lambda with another self. -/
  | rebound (p : Value) (lambda : Bool) (self : Value) (activation : Activation)
  /-- A step of a `for` loop, which runs as the loop does. -/
  | step (p : Value)
  | classBody (target : Value)

/-- Only a call runs the body of a method or a block. -/
def Setting.allowed : Setting → Layer → Bool
  | _, .call | step _, .language | classBody _, .language => true
  | _, _ => false

/-- The frame of a body whose scope is `scope`. -/
def Setting.frame (s : Store) (scope : ScopeId) : Setting → Frame
  | method self a => ⟨self, some a, scope, none⟩
  | lambda p id => { s.captured p with lambda := some id }
  | methodProc self a => ⟨self, some a, scope, some a.id⟩
  | block p | step p => s.captured p
  -- a `return` still leaves the method that the block was written in
  | rebound p _ self a => ⟨self, some a, scope, (s.captured p).returnTarget⟩
  | classBody target => ⟨target, none, scope, none⟩

def Payload.isNumberOrNil : Payload → Bool
  | .integer _ | .float _ | .nil => Bool.true
  | _ => Bool.false

inductive Act : Layer → Type → Type 1 where
  | pure {ℓ : Layer} {α : Type} (a : α) : Act ℓ α
  | bind {ℓ : Layer} {α β : Type} (x : Act ℓ β) (f : β → Act ℓ α) : Act ℓ α
  | lift {ℓ k : Layer} {α : Type} (x : Act k α) (h : k.below ℓ = true) : Act ℓ α
  /-- How often a loop may repeat. -/
  | fuel {ℓ : Layer} {α : Type} (f : Nat → α) : Act ℓ α
  | exhausted {ℓ : Layer} {α : Type} : Act ℓ α
  /-- Reads something off the store. -/
  | view {ℓ : Layer} {α : Type} (f : Store → α) : Act ℓ α
  /-- Makes a change, and gives what `f` reads off the store before it. -/
  | change {ℓ : Layer} {α : Type} (c : Change) (f : Store → α) (h : c.allowed ℓ = true) : Act ℓ α
  /-- Raises an error of the language itself. -/
  | fail {ℓ : Layer} {α : Type} (c : CoreClass) (message : String)
      (h : c ≠ .systemStackError) : Act ℓ α
  | signal {ℓ : Layer} {α : Type} (s : Signal) (h : s.allowed ℓ = true) : Act ℓ α
  /-- Returns from what the current frame belongs to. -/
  | leave {α : Type} (v : Value) : Act .language α
  | perform {ℓ : Layer} {α : Type} (r : Request) (f : Value → α) (h : r.allowed ℓ = true) : Act ℓ α
  /-- The outcome of `x` as a value when it is a value or an exception. -/
  | rescue {ℓ : Layer} {α β : Type} (x : Act ℓ β) (f : Except Value β → α) : Act ℓ α
  /-- What a number or nil answers to `inspect`, or nothing whatever signal that ends with; nothing
  for any other value. -/
  | inspected {ℓ : Layer} {α : Type} (v : Value) (f : Option Value → α) : Act ℓ α
  /-- Runs `cleanup` however `x` ends; a failure of the cleanup comes first. -/
  | ensure {ℓ : Layer} {α : Type} (x : Act ℓ α) (cleanup : Act ℓ Unit) : Act ℓ α
  /-- Runs `x` with a frame and a scope on top of the stacks. -/
  | within {ℓ : Layer} {α : Type} (st : Setting) (scope : ScopeId) (x : Act ℓ α)
      (h : st.allowed ℓ = true) : Act ℓ α
  /-- Runs `x` as a new activation, which a `return` that names it ends. -/
  | activate {α : Type} (x : Nat → Act .call Value) (f : Value → α) : Act .call α
  /-- The pass of a loop or the call of a block, which `next` ends. -/
  | catchNext {ℓ : Layer} {α : Type} (x : Act ℓ α) (f : Value → α) : Act ℓ α
  | catchBreak {ℓ : Layer} {α : Type} (site : Nat) (x : Act ℓ α) (f : Value → α) : Act ℓ α
  /-- Runs the body of a rescue clause that took `exc`, with `$!` set to it meanwhile. -/
  | handling {α : Type} (exc : Value) (x : Act .language α) : Act .language α

/-- What an operation of the library does. -/
abbrev Op := Act .library

/-- What an expression of the language does. -/
abbrev Eval := Act .language

/-- How a method or a block runs. -/
abbrev Call := Act .call

instance (ℓ : Layer) : Monad (Act ℓ) where
  pure := .pure
  bind := .bind

instance (ℓ : Layer) : MonadLift Op (Act ℓ) := ⟨(.lift · (by cases ℓ <;> rfl))⟩

instance : MonadLift Eval Call := ⟨(.lift · rfl)⟩

/-- How a run ends, with the store that it leaves. -/
inductive Ending (α : Type) where
  | ok (a : α) (s : Store)
  | error (stop : Stop) (s : Store)

def Ending.store {α : Type} : Ending α → Store
  | ok _ s | error _ s => s

abbrev Run (α : Type) := Store → Ending α

/-- How requests are performed, and how often a loop may repeat. -/
structure Engine where
  fuel : Nat
  perform : Request → Run Value

namespace Store

def enter (s : Store) (st : Setting) (scope : ScopeId) : Store :=
  { s with frames := st.frame s scope :: s.frames, scopeStack := scope :: s.scopeStack }

def leave (s : Store) : Store :=
  { s with frames := s.frames.tail, scopeStack := s.scopeStack.tail }

/-- A store in which another activation has begun; its number is the last one. -/
def activate (s : Store) : Store := { s with lastActivation := s.lastActivation + 1 }

/-- The value of `$!`: the exception that a rescue clause handles, or nil. -/
def errorInfo (s : Store) : Value := (s.globals.get? "$!").getD .nil

def setErrorInfo (s : Store) (v : Value) : Store := { s with globals := s.globals.insert "$!" v }

end Store

namespace Act

def run {ℓ : Layer} {α : Type} : Act ℓ α → Engine → Run α
  | .pure a, _, s => .ok a s
  | .bind x f, e, s =>
    match x.run e s with
    | .ok a s => (f a).run e s
    | .error stop s => .error stop s
  | .lift x _, e, s => x.run e s
  | .fuel f, e, s => .ok (f e.fuel) s
  | .exhausted, _, s => .error .exhausted s
  | .view f, _, s => .ok (f s) s
  | .change c f _, _, s => .ok (f s) (c.apply s)
  | .fail c message _, _, s =>
    let (exc, s) := s.newException c.value message
    .error (.signal (.raise exc)) s
  | .signal sig _, _, s => .error (.signal sig) s
  | .leave v, _, s => .error (.signal (.returnTo s.frame.returnTarget v)) s
  | .perform r f _, e, s =>
    match e.perform r s with
    | .ok v s => .ok (f v) s
    | .error stop s => .error stop s
  | .rescue x f, e, s =>
    match x.run e s with
    | .ok a s => .ok (f (.ok a)) s
    | .error (.signal (.raise exc)) s => .ok (f (.error exc)) s
    | .error stop s => .error stop s
  | .inspected v f, e, s =>
    if (s.payload v).isNumberOrNil then
      match e.perform (.inspection v) s with
      | .ok out s => .ok (f (some out)) s
      | .error (.signal _) s => .ok (f none) s
      | .error .exhausted s => .error .exhausted s
    else .ok (f none) s
  | .ensure x cleanup, e, s =>
    match x.run e s with
    | .ok a s =>
      match cleanup.run e s with
      | .ok _ s => .ok a s
      | .error stop s => .error stop s
    | .error (.signal sig) s =>
      match cleanup.run e s with
      | .ok _ s => .error (.signal sig) s
      | .error stop s => .error stop s
    | .error .exhausted s => .error .exhausted s
  | .within st scope x _, e, s =>
    match x.run e (s.enter st scope) with
    | .ok a s => .ok a s.leave
    | .error stop s => .error stop s.leave
  | .activate x f, e, s =>
    let id := s.lastActivation + 1
    match (x id).run e s.activate with
    | .ok v s => .ok (f v) s
    | .error (.signal (.returnTo (some t) v)) s =>
      if t == id then .ok (f v) s else .error (.signal (.returnTo (some t) v)) s
    | .error stop s => .error stop s
  | .catchNext x f, e, s =>
    match x.run e s with
    | .error (.signal (.next v)) s => .ok (f v) s
    | out => out
  | .catchBreak site x f, e, s =>
    match x.run e s with
    | .error (.signal (.breakTo t v)) s =>
      if t == site then .ok (f v) s else .error (.signal (.breakTo t v)) s
    | out => out
  | .handling exc x, e, s =>
    match x.run e (s.setErrorInfo exc) with
    | .ok a t => .ok a (t.setErrorInfo s.errorInfo)
    | .error stop t => .error stop (t.setErrorInfo s.errorInfo)

variable {ℓ : Layer} {α β : Type} {x : Act ℓ β} {f : β → Act ℓ α} {e : Engine} {s t : Store}

/-- A run goes on from the value that its first part ends with. -/
theorem run_bind_of_ok {b : β} (h : x.run e s = .ok b t) :
    (x.bind f).run e s = (f b).run e t := by
  rw [run, h]

theorem run_bind_of_error {stop : Stop} (h : x.run e s = .error stop t) :
    (x.bind f).run e s = .error stop t := by
  rw [run, h]

end Act

end Garnet
