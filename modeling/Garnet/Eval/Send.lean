import Garnet.Eval.Basic

/-!
# Sending messages
-/

namespace Garnet.Eval

/-- What the current self may see of `recv`: everything of itself, and protected methods of objects
of its own kind. -/
def callerAccess (recv : Value) : Op Access :=
  view fun s => if recv == s.self then .all else ⟨false, s.isA s.self (s.classOf recv)⟩

def sendWith (access : Access) (recv : Value) (name : String) (args : List Value)
    (block : Option Value) : Op Value :=
  perform (.send access recv name args block)

/-- A message from the system itself, which sees every method. -/
def send (recv : Value) (name : String) (args : List Value) (block : Option Value) :
    Op Value :=
  sendWith .all recv name args block

/-- A message with a receiver written in the program. -/
def callMethod (recv : Value) (name : String) (args : List Value) (block : Option Value) :
    Op Value := do
  sendWith (← callerAccess recv) recv name args block

def respondsTo (recv : Value) (name : String) (includeHidden : Bool) : Op Bool :=
  view (·.respondsTo recv name (if includeHidden then .all else .onlyPublic))

def missingMethodError {α : Type} (recv : Value) (name : String) (miss : Miss) : Op α := do
  let who ← describe recv
  match miss with
  | .hidden v => noMethodError s!"{v.text} method '{name}' called for {who}"
  | .undefined => noMethodError s!"undefined method '{name}' for {who}"

/-! ## Answering messages -/

def invoke (m : MethodDef) (holder : Holder) (recv : Value) (args : List Value)
    (block : Option Value) : Eval Value :=
  perform (.invoke m holder recv args block)

/-- A `method_missing` other than the one every object has. -/
def ownMethodMissing? (recv : Value) : Op (Option Resolved) :=
  view fun s =>
    match s.findMethod recv "method_missing" .all with
    | .ok r => if r.holder == .instances CoreClass.basicObject.value then none else some r
    | .error _ => none

def methodMissing (recv : Value) (name : String) (args : List Value) (block : Option Value)
    (miss : Miss) : Eval Value := do
  match ← ownMethodMissing? recv with
  | some r =>
    let symbol ← newSymbol name
    invoke r.method r.holder recv (symbol :: args) block
  | none => missingMethodError recv name miss

/-- Runs the method that a message denotes. -/
def answer (access : Access) (recv : Value) (name : String) (args : List Value)
    (block : Option Value) : Eval Value := do
  match ← view (·.findMethod recv name access) with
  | .ok r => invoke r.method r.holder recv args block
  | .error miss => methodMissing recv name args block miss

/-- The method bound in the current scope or around it. -/
def scopeMethod? (name : String) : Op (Option MethodDef) :=
  view fun s => Scopes.findMethod? s.scopes s.scopeId name

/-- Runs the method bound in the scope, or else the one that the message denotes. -/
def answerBound (recv : Value) (name : String) (args : List Value) (block : Option Value) :
    Eval Value := do
  match ← scopeMethod? name with
  | some m => invoke m (.own recv) recv args block
  | none => answer .all recv name args block

/-- A message without a receiver: a method bound in the scope, or one of self. -/
def sendSelf (name : String) (args : List Value) (block : Option Value) : Eval Value := do
  let recv ← self
  match ← scopeMethod? name with
  | some m => invoke m (.own recv) recv args block
  | none =>
    match ← view (·.findMethod recv name .all) with
    | .ok r => invoke r.method r.holder recv args block
    | .error miss =>
      if (← ownMethodMissing? recv).isSome then methodMissing recv name args block .undefined
      else if args.isEmpty && block.isNone then
        let who ← describe recv
        nameError s!"undefined local variable or method '{name}' for {who}"
      else missingMethodError recv name miss

/-- Calls the next method of the same name; without arguments of its own it hands on those of the
running method, and likewise the block. -/
def callSuper (args : Option (List Value)) (block : Option Value) : Eval Value := do
  let frame ← view (·.frame)
  match frame.activation with
  | none => runtimeError "super called outside of method"
  | some a =>
    match a.method with
    | none => runtimeError "super called outside of method"
    | some (name, holder) =>
      match ← view (·.findSuper? frame.self name holder) with
      | some r => invoke r.method r.holder frame.self (args.getD a.args) (block <|> a.block)
      | none =>
        let who ← describe frame.self
        noMethodError s!"super: no superclass method '{name}' for {who}"

/-! ## Blocks -/

def callBlock (block : Value) (args : List Value) : Op Value :=
  perform (.callProc block args none none)

def callBlockWith (block : Value) (args : List Value) (inner : Option Value) : Op Value :=
  perform (.callProc block args inner none)

/-- Runs a block with another self. -/
def callBlockAs (block recv : Value) (args : List Value) : Op Value := do
  let id ← newActivation
  perform (.callProc block args none (some ⟨recv, ⟨id, none, [], none⟩, false⟩))

/-- Calls the block of the running method. -/
def yieldBlock (args : List Value) : Op Value := do
  match ← view (·.frame.block) with
  | some b => callBlock b args
  | none => noBlockGiven

end Garnet.Eval
