import Garnet.Eval.Names

/-!
# Class bodies and definitions

A method defined in a class body is bound in the scope of the body and moves to the class when the
body ends, however it ends.
-/

namespace Garnet.Eval

/-! ## Defining methods -/

/-- The visibility of definitions in the current frame. -/
def defaultVisibility : Op Visibility :=
  view fun s => (Scopes.scope s.scopes s.frame.home).visibility

/-- The visibility of an instance method that is defined now: the default one inside the body of
its class. -/
def visibilityFor (module : Value) : Op Visibility := do
  if (← self) == module then defaultVisibility else pure .pub

/-- Defines a method of one object; the library defines none that is program text. -/
def defineSingleton {ℓ : Layer} (target : Value) (name : String) (m : MethodDef)
    (h : (Change.define (.own target) name m .pub).allowed ℓ = true := by exact Eq.refl true) :
    Act ℓ Value := do
  update (.define (.own target) name m .pub) h
  newSymbol name

/-- Defines an instance method; the library defines none that is program text. -/
def defineInstanceMethod {ℓ : Layer} (module : Value) (name : String) (m : MethodDef)
    (h : ∀ v, (Change.define (.instances module) name m v).allowed ℓ = true := by
      exact fun _ => Eq.refl true) : Act ℓ Unit := do
  let visibility ← visibilityFor module
  update (.define (.instances module) name m visibility) (h visibility)

/-- The current scope when it is the body of `module`. -/
def bodyScope? (module : Value) : Op (Option ScopeId) :=
  view fun s =>
    if (Scopes.scope s.scopes s.scopeId).kind == .classBody && s.self == module then some s.scopeId
    else none

def undefinedMethod {α : Type} (module : Value) (name : String) : Op α := do
  let who ← describe module
  nameError s!"undefined method '{name}' for {who}"

/-- Gives a method of a class a second name; in the body of the class a method just defined comes
first. -/
def aliasIn (module : Value) (new old : String) : Op Unit := do
  let here ← bodyScope? module
  let pending ← view fun s => here.filter fun id => (Scopes.pending? s.scopes id old).isSome
  match pending with
  | some id => update (.aliasPending id new old)
  | none =>
    if (← view (·.findInstanceMethod? module old)).isSome then
      update (.aliasMethod module new old)
    else undefinedMethod module old

/-- Gives a method of the current class a second name; outside of classes, one of the scope. -/
def aliasHere (new old : String) : Op Unit := do
  let here ← self
  if ← view (·.isModuleLike here) then aliasIn here new old
  else
    let scope ← view (·.scopeId)
    if (← view fun s => Scopes.findMethod? s.scopes scope old).isSome then
      update (.aliasVisible scope new old (← defaultVisibility))
      discard (newSymbol new)
    else aliasIn (← classOf here) new old

/-- Changes the visibility of one method; an inherited one is first taken into the class. -/
def setVisibilityOf (module : Value) (body : Option ScopeId) (v : Visibility) (name : String) :
    Op Unit := do
  let pending ← view fun s => body.filter fun id => (Scopes.pending? s.scopes id name).isSome
  match pending with
  | some id => update (.setPendingVisibility id name v)
  | none =>
    match ← view (·.module? module) with
    | none => pure ()
    | some m =>
      if m.methods.contains name then update (.setVisibility (.instances module) name v)
      else if (← view (·.findInstanceMethod? module name)).isSome then
        update (.adopt (.instances module) module name v)
      else undefinedMethod module name

/-- Without names, changes the visibility of later definitions in the body. -/
def setVisibility (module : Value) (v : Visibility) (names : List String) : Op Unit := do
  if names.isEmpty then
    if (← self) == module then update (.setDefaultVisibility (← view (·.frame.home)) v)
  else
    let body ← bodyScope? module
    names.forM (setVisibilityOf module body v)

/-! ## Mixing in -/

def includeModule (target module : Value) : Op Unit := do
  model (fun s => (s.includeModule target module).map fun _ => ()) (.includeModule target module)
  if ← view (·.hasOwnMethod module "included") then
    discard (send module "included" [target] none)

def extendObject (v module : Value) : Op Unit := do
  model (fun s => (s.extendObject v module).map fun _ => ()) (.extendObject v module)
  if ← view (·.hasOwnMethod module "extended") then
    discard (send module "extended" [v] none)

/-! ## New classes and modules -/

def subclass (parent : Value) (name : String) : Op Value :=
  model (fun s => (s.subclass parent name).map (·.1)) (.subclass parent name)

def copyClass (c : Value) : Op Value :=
  model (fun s => (s.copyClass c).map (·.1)) (.copyClass c)

def newModule (name : String) : Op Value := make (.newModule name)

/-! ## Bodies -/

/-- Runs a body with `target` as self. The methods bound in its scope move to the class, or to the
object itself, however the body ends. -/
def runBody (target : Value) (singleton : Bool) (body : Option Expr) : Eval Value := do
  let scope ← newScope .classBody (some (← view (·.scopeId)))
  .ensure (.within (.classBody target) scope (match body with
    | some e => perform (.eval e)
    | none => pure .nil) rfl) (update (.promote target singleton scope))

/-- Where a class or module statement defines its name. -/
def containerOf (container : Option Value) : Op Value := do
  let c ← match container with
    | some c => pure c
    | none => view fun s => s.moduleFor s.self
  if ← view (·.isModuleLike c) then pure c else notAModule c

/-- A class that is open already; a base written again must be the same. -/
def reopenClass (name : String) (c : Value) (base : Option Value) : Op Value := do
  if !(← view (·.isClass c)) then typeError s!"{name} is not a class"
  else
    match base with
    | some b =>
      if (← view (·.base? c)) == some b then pure c
      else typeError s!"superclass mismatch for class {name}"
    | none => pure c

/-- Tells a class that there is a new one below it. -/
def announce (base c : Value) : Op Unit := do
  if ← view (·.hasOwnMethod base "inherited") then discard (send base "inherited" [c] none)

def createClass (container : Value) (name : String) (base : Value) : Call Value := do
  if !(← view (·.isClass base)) then typeError "superclass must be a Class"
  else
    let full ← view (·.qualifiedName container name)
    let c ← subclass base full
    update (.setConst container name c)
    announce base c
    pure c

/-- The class of a name, made when the name is new. -/
def namedClass (container : Value) (name : String) (base : Option Value) : Call Value := do
  match ← view (·.const? container name) with
  | some c => reopenClass name c base
  | none => createClass container name (base.getD CoreClass.object.value)

/-- The module of a name, made when the name is new. -/
def namedModule (container : Value) (name : String) : Call Value := do
  match ← view (·.const? container name) with
  | some m => if ← view (·.isModule m) then pure m else typeError s!"{name} is not a module"
  | none =>
    let full ← view (·.qualifiedName container name)
    let m ← newModule full
    update (.setConst container name m)
    pure m

/-- Gives a name in a class or module its meaning. -/
def define (holder : Value) (name : String) : Definition → Call Value
  | .constant v => newConst holder name v
  | .cls base => namedClass holder name base
  | .module => namedModule holder name

/-- Opens a class and runs the body. -/
def openClass (container : Option Value) (name : String) (base : Option Value)
    (body : Option Expr) : Eval Value := do
  let container ← containerOf container
  let c ← perform (.define container name (.cls base))
  runBody c false body

def openModule (container : Option Value) (name : String) (body : Option Expr) : Eval Value := do
  let container ← containerOf container
  let m ← perform (.define container name .module)
  runBody m false body

end Garnet.Eval
