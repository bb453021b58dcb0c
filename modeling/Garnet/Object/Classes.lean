import Garnet.Object.Lookup

/-!
# Making and mixing classes
-/

namespace Garnet

/-- Why an operation on classes was refused; each carries the name that was met. -/
inductive ModelError where
  | subclassOfModule (name : String)
  | notAModule (className : String)
  | notAClass (className : String)
  deriving DecidableEq, Repr

def ModelError.message : ModelError → String
  | subclassOfModule n => s!"can't make subclass of module {n}"
  | notAModule n => s!"wrong argument type {n} (expected Module)"
  | notAClass n => s!"wrong argument type {n} (expected Class)"

/-- What a new instance of a class of this kind holds, if there are any. -/
def AllocKind.blank? : AllocKind → Option Payload
  | .object => some .object
  | .array => some (.array #[])
  | .hash => some (.hash {})
  | .text => some (.text "")
  | .newClass | .newModule | .none => Option.none

namespace Store

/-- An instance of a class before anything is run on it. -/
def blankInstance? (s : Store) (cls : Value) : Option Object :=
  match s.module? cls with
  | some m => if m.isModule then none else m.alloc.blank?.map fun payload => { cls, payload }
  | none => none

/-- A copy of an object with the same instance variables. Classes are not copied in this way, and
what never changes needs no copy. -/
def copiedObject? (s : Store) (v : Value) : Option Object :=
  let o := s.object v
  match o.payload with
  | .object | .text _ | .array _ | .hash _ =>
    some { cls := o.cls, payload := o.payload, ivars := o.ivars }
  | _ => none

/-- A new class below `parent`, with no methods of its own. -/
def subclass (s : Store) (parent : Value) (name : String) : Except ModelError (Value × Store) :=
  match s.module? parent with
  | none => .error (.notAClass (s.className parent))
  | some m =>
    if m.isModule then .error (.subclassOfModule m.name)
    else
      let info := { name, isModule := false, base := some parent, alloc := m.alloc : ModuleInfo }
      .ok (s.alloc { cls := s.classOf parent, payload := .module info })

/-- A class with the same name, base, instance methods and included modules. -/
def copyClass (s : Store) (c : Value) : Except ModelError (Value × Store) :=
  match s.module? c with
  | none => .error (.notAClass (s.className c))
  | some m =>
    let info := { m with consts := {}, cvars := {} }
    .ok (s.alloc { cls := s.classOf c, payload := .module info })

def newModule (s : Store) (name : String) : Value × Store :=
  s.alloc { cls := CoreClass.moduleClass.value
            payload := .module { name, isModule := true, base := none, alloc := .none } }

/-- Puts a module between a class and what is above it; one that is there already stays where it
is. -/
def includeModule (s : Store) (target module : Value) : Except ModelError Store :=
  match s.module? target with
  | none => .error (.notAClass (s.className target))
  | some m =>
    if !s.isModule module then .error (.notAModule (s.className module))
    else if m.included.contains module then .ok s
    else .ok (s.modifyModule target fun m => { m with included := m.included ++ [module] })

/-- Adds a module to the lookup of one object. -/
def extendObject (s : Store) (v module : Value) : Except ModelError Store :=
  if !s.isModule module then .error (.notAModule (s.className module))
  else if (s.object v).extended.contains module then .ok s
  else .ok (s.modifyObject v fun o => { o with extended := o.extended ++ [module] })

end Store

end Garnet
