import Garnet.Library.All

/-!
# The store a session starts with
-/

namespace Garnet

namespace CoreClass

/-- A class before any method is installed. -/
def classObject (c : CoreClass) : Object :=
  { cls := if c.isModule then moduleClass.value else classClass.value
    payload := .module
      { name := c.name
        isModule := c.isModule
        base := c.base.map value
        alloc := c.alloc
        included := c.mixins.map value } }

end CoreClass

namespace Store

/-- Installs one operation of the library under all its names. -/
def install (s : Store) (index : Nat) (e : Entry) : Store :=
  e.names.foldl (fun s name =>
    let insert := fun t : MethodTable => t.insert name ⟨name, .builtin index, false⟩ e.visibility
    match e.home with
    | .own v => s.modifyOwn v insert
    | .instances c => s.modifyMethods c insert) s

def installAll (s : Store) : Store :=
  (Library.all.foldl (fun (s, i) e => (s.install i e, i + 1)) (s, 0)).1

def defineConst (s : Store) (holder : CoreClass) (name : String) (v : Value) : Store :=
  s.modifyModule holder.value fun m => { m with consts := m.consts.insert name v }

/-- Nil, the truth values, the outermost self and the output. -/
def singularObjects : List Object :=
  [{ cls := CoreClass.nilClass.value, payload := .nil },
   { cls := CoreClass.trueClass.value, payload := .true },
   { cls := CoreClass.falseClass.value, payload := .false },
   { cls := CoreClass.object.value, payload := .object },
   { cls := CoreClass.io.value, payload := .object }]

/-- The objects at fixed places. -/
def fixedObjects : Array Object :=
  (CoreClass.all.map CoreClass.classObject ++ singularObjects).toArray

/-- The integers that are interned. -/
def internedIntegers (c : Config) : Array Object :=
  (Array.range (c.cacheMax + 1 - c.cacheMin).toNat).map fun k : Nat =>
    { cls := CoreClass.integer.value, payload := .integer (c.cacheMin + k) }

/-- A store with the library installed and nothing interned. -/
def base : Store :=
  let s : Store :=
    { config := {}
      objects := fixedObjects
      scopes := #[{ kind := .top, parent := none }]
      frames := [.outermost]
      scopeStack := [⟨0⟩]
      globals := ({} : Dict Value).insert "$stdout" .stdout }
  let s := CoreClass.all.foldl (fun s c => s.defineConst .object c.name c.value) s
  (s.defineConst .object "STDOUT" .stdout).installAll

/-- The constants that are float values. -/
def defineFloats (s : Store) : Store :=
  Library.Floats.constants.foldl (fun s (name, x) =>
    let (v, s) := s.alloc { cls := CoreClass.float.value, payload := .float x }
    s.defineConst .float name v) s

/-- The store that a session starts with. -/
def start (config : Config) (input : List String) : Store :=
  let s := base
  let s := { s with config, input, objects := s.objects ++ internedIntegers config }
  s.defineFloats

end Store

end Garnet
