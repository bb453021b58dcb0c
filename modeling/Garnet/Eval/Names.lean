import Garnet.Eval.Send

/-!
# Variables and constants
-/

namespace Garnet

namespace Store

/-- The class or module that a frame with this self defines into. -/
def moduleFor (s : Store) (self : Value) : Value :=
  if s.isModuleLike self then self else s.classOf self

def const? (s : Store) (m : Value) (name : String) : Option Value :=
  (s.module? m).bind (·.consts.get? name)

/-- The constant a bare name denotes: the bodies of the frames from the innermost outward, then what
is above the innermost one. -/
def lexicalConst? (s : Store) (name : String) : Option Value :=
  (s.frames.findSome? fun f => s.const? (s.moduleFor f.self) name) <|>
    (s.ancestors (s.moduleFor s.self)).findSome? (s.const? · name) <|>
    s.const? CoreClass.object.value name

/-- The full name `Outer::Inner`, or the bare name directly under the outermost class. -/
def qualifiedName (s : Store) (container : Value) (name : String) : String :=
  if container == CoreClass.object.value then name
  else match s.moduleName? container with
    | some outer => if outer.isEmpty then name else s!"{outer}::{name}"
    | none => name

/-- The class or module that keeps a class variable seen from `m`. -/
def cvarOwner? (s : Store) (m : Value) (name : String) : Option Value :=
  (s.ancestors m).find? fun c => ((s.module? c).map (·.cvars.contains name)).getD false

def cvar? (s : Store) (m : Value) (name : String) : Option Value :=
  (s.ancestors m).findSome? fun c => (s.module? c).bind (·.cvars.get? name)

end Store

namespace Eval

/-! ## Variables -/

/-- A local variable; one that is not set is nil. -/
def getLocal (name : String) : Op Value :=
  view fun s => (Scopes.get? s.scopes s.scopeId name).getD .nil

def setLocal (name : String) (v : Value) : Op Unit := do
  let scope ← view (·.scopeId)
  update (.setLocal scope name v)

def getIvar (name : String) : Op Value := view fun s => (s.ivar? s.self name).getD .nil

def setIvar (name : String) (v : Value) : Op Unit := do update (.setIvar (← self) name v)

/-- A group of the last match as a new text. -/
def groupText : Option String → Op Value
  | some t => newText t
  | none => pure .nil

/-- A global variable; `$~` is the list of groups of the last match. -/
def getGlobal (name : String) : Op Value := do
  if name == "$~" then
    match ← view (·.lastMatch) with
    | some groups => newList (← groups.mapM groupText)
    | none => pure .nil
  else view fun s => (s.globals.get? name).getD .nil

def setGlobal (name : String) (v : Value) : Eval Unit :=
  update (.setGlobal name v)

def getGroup (n : Nat) : Op Value := do
  groupText (← view fun s => (s.lastMatch.bind (·[n]?)).join)

def getCvar (name : String) : Op Value := do
  match ← view fun s => s.cvar? (s.moduleFor s.self) name with
  | some v => pure v
  | none =>
    let owner ← view fun s => (s.moduleName? (s.moduleFor s.self)).getD ""
    nameError s!"uninitialized class variable {name} in {owner}"

/-- Stores a class variable where it is kept already, or else here. -/
def setCvar (name : String) (v : Value) : Op Unit := do
  let owner ← view fun s =>
    let here := s.moduleFor s.self
    (s.cvarOwner? here name).getD here
  update (.setCvar owner name v)

/-! ## Constants -/

def getConst (name : String) : Op Value := do
  match ← view (·.lexicalConst? name) with
  | some v => pure v
  | none => nameError s!"uninitialized constant {name}"

def getTopConst (name : String) : Op Value := do
  match ← view (·.const? CoreClass.object.value name) with
  | some v => pure v
  | none => nameError s!"uninitialized constant {name}"

def notAModule {α : Type} (v : Value) : Op α := do
  let who ← describe v
  typeError s!"{who} is not a class/module"

/-- A constant of a class or module or of what is above it. -/
def getConstIn (scope : Value) (name : String) : Op Value := do
  match ← view (·.module? scope) with
  | none => notAModule scope
  | some m =>
    match ← view fun s => (s.ancestors scope).findSome? (s.const? · name) with
    | some v => pure v
    | none =>
      let outer := m.name
      nameError s!"uninitialized constant {outer}::{name}"

/-- A class without a name takes the name of the constant. -/
def takeName (holder : Value) (name : String) (v : Value) : Op Unit := do
  if (← view (·.moduleName? v)) == some "" then
    let full ← view (·.qualifiedName holder name)
    update (.nameModule v full)

/-- Defines a constant; a name can be defined only once in a class or module. -/
def newConst (holder : Value) (name : String) (v : Value) : Call Value := do
  match ← view (·.module? holder) with
  | none => notAModule holder
  | some m =>
    if m.consts.contains name then nameError s!"already initialized constant {name}"
    else
      takeName holder name v
      update (.setConst holder name v)
      pure v

def setConstIn (holder : Value) (name : String) (v : Value) : Op Value :=
  perform (.define holder name (.constant v))

def setConst (name : String) (v : Value) : Op Value := do
  setConstIn (← view fun s => s.moduleFor s.self) name v

end Eval

end Garnet
