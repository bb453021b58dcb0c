import Garnet.Object.Value
import Garnet.Program.Expr
import Std.Data.TreeMap.Lemmas

/-!
# Methods and method tables

A method table maps names to definitions, each with one visibility: it keeps a map for each
visibility, and a name is in one of them at most. Names are listed in the order of their code
points.
-/

namespace Garnet

/-- Who may call a method: everyone, objects of the same kind, or the object itself. -/
inductive Visibility where
  | pub
  | prot
  | priv
  deriving DecidableEq, Repr, Inhabited

def Visibility.text : Visibility → String
  | pub => "public"
  | prot => "protected"
  | priv => "private"

/-- What a method does when it is called. -/
inductive Callable where
  /-- An entry of the table of builtin operations. -/
  | builtin (index : Nat)
  | reader (ivar : String)
  | writer (ivar : String)
  /-- Takes anything and answers a new string. -/
  | answer (text : String)
  /-- Program text; callables are also looked for in the scope it was defined in. -/
  | compiled (params : Params Expr) (body : Expr) (scope : Option ScopeId)
  /-- A proc that runs with the receiver as self. -/
  | proc (p : Value)

structure MethodDef where
  name : String
  body : Callable
  /-- Defined by program text rather than built in. -/
  fromSource : Bool

/-- The same method under another name. -/
def MethodDef.renamed (m : MethodDef) (name : String) : MethodDef := { m with name }

/-- Definitions by name, with a map for each visibility. -/
structure Partitions where
  pub : Std.TreeMap String MethodDef compare := {}
  prot : Std.TreeMap String MethodDef compare := {}
  priv : Std.TreeMap String MethodDef compare := {}

namespace Partitions

/-- The definitions of one visibility. -/
def part (p : Partitions) : Visibility → Std.TreeMap String MethodDef compare
  | .pub => p.pub
  | .prot => p.prot
  | .priv => p.priv

def get? (p : Partitions) (v : Visibility) (name : String) : Option MethodDef := (p.part v)[name]?

/-- The definition of a name and the visibility it is found under. -/
def lookup (p : Partitions) (name : String) : Option (MethodDef × Visibility) :=
  [Visibility.pub, .prot, .priv].findSome? fun v => (p.get? v name).map (·, v)

/-- Binds a name under one visibility and leaves the other ones as they are. -/
def put (p : Partitions) (v : Visibility) (name : String) (m : MethodDef) : Partitions :=
  match v with
  | .pub => { p with pub := p.pub.insert name m }
  | .prot => { p with prot := p.prot.insert name m }
  | .priv => { p with priv := p.priv.insert name m }

/-- Takes a name out of all maps and answers what it was bound to. -/
def remove (p : Partitions) (name : String) : Option MethodDef × Partitions :=
  (((p.get? .pub name).or (p.get? .prot name)).or (p.get? .priv name),
    ⟨p.pub.erase name, p.prot.erase name, p.priv.erase name⟩)

def insert (p : Partitions) (name : String) (m : MethodDef) (v : Visibility) : Partitions :=
  (p.remove name).2.put v name m

/-- Moves a name to another map and answers whether there was one to move. -/
def setVisibility (p : Partitions) (name : String) (v : Visibility) : Bool × Partitions :=
  match p.remove name with
  | (some m, rest) => (true, rest.put v name m)
  | (none, rest) => (false, rest)

/-- The names of one visibility, in order. -/
def names (p : Partitions) (v : Visibility) : List String := (p.part v).keys

/-- Every name has one visibility at most. -/
def Apart (p : Partitions) : Prop :=
  ∀ name v w, (p.get? v name).isSome → (p.get? w name).isSome → v = w

variable {p : Partitions} {name n : String} {m : MethodDef} {v w : Visibility}

@[simp] theorem get?_empty : ({} : Partitions).get? v name = none := by
  cases v <;> exact Std.TreeMap.getElem?_emptyc

@[simp] theorem get?_put :
    (p.put v name m).get? w n = if w = v ∧ n = name then some m else p.get? w n := by
  cases v <;> cases w <;>
    simp [put, get?, part, Std.TreeMap.getElem?_insert, eq_comm (a := name)]

@[simp] theorem get?_remove :
    (p.remove name).2.get? w n = if n = name then none else p.get? w n := by
  cases w <;> simp [remove, get?, part, Std.TreeMap.getElem?_erase, eq_comm (a := name)]

theorem get?_insert :
    (p.insert name m v).get? w n =
      if n = name then if w = v then some m else none else p.get? w n := by
  rw [insert, get?_put, get?_remove]
  by_cases hn : n = name <;> simp [hn]

theorem get?_setVisibility :
    (p.setVisibility name v).2.get? w n =
      if n = name then if w = v then (p.remove name).1 else none else p.get? w n := by
  have hrest : (p.remove name).2.get? w n = _ := get?_remove
  rw [setVisibility]
  cases hp : p.remove name with
  | mk found rest =>
    rw [hp] at hrest
    cases found with
    | none => simpa only [ite_self] using hrest
    | some m =>
      rw [get?_put, hrest]
      by_cases hn : n = name <;> simp [hn]

theorem apart_empty : Apart {} := fun name v w h => by
  rw [get?_empty] at h
  cases h

/-- What has one visibility under one name and is as before under all others. -/
theorem Apart.of_get? {q : Partitions} (h : p.Apart) (d : Option MethodDef)
    (hq : ∀ w n, q.get? w n = if n = name then if w = v then d else none else p.get? w n) :
    q.Apart := by
  intro n w w' hw hw'
  rw [hq] at hw hw'
  by_cases hn : n = name
  · grind
  · rw [if_neg hn] at hw hw'
    exact h n w w' hw hw'

theorem Apart.insert (h : p.Apart) : (p.insert name m v).Apart := h.of_get? _ fun _ _ => get?_insert

theorem Apart.setVisibility (h : p.Apart) : (p.setVisibility name v).2.Apart :=
  h.of_get? _ fun _ _ => get?_setVisibility

theorem Apart.remove (h : p.Apart) : (p.remove name).2.Apart :=
  h.of_get? (v := .pub) none fun _ _ => by rw [get?_remove, ite_self]

end Partitions

/-- Definitions by name, each with one visibility. -/
structure MethodTable where
  parts : Partitions
  apart : parts.Apart

namespace MethodTable

instance : EmptyCollection MethodTable := ⟨⟨{}, Partitions.apart_empty⟩⟩

instance : Inhabited MethodTable := ⟨{}⟩

def lookup (t : MethodTable) (name : String) : Option (MethodDef × Visibility) :=
  t.parts.lookup name

def contains (t : MethodTable) (name : String) : Bool := (t.lookup name).isSome

def insert (t : MethodTable) (name : String) (m : MethodDef) (v : Visibility) : MethodTable :=
  ⟨t.parts.insert name m v, t.apart.insert⟩

def erase (t : MethodTable) (name : String) : MethodTable :=
  ⟨(t.parts.remove name).2, t.apart.remove⟩

/-- Gives a method another visibility; a name that is absent stays absent. -/
def setVisibility (t : MethodTable) (name : String) (v : Visibility) : MethodTable :=
  ⟨(t.parts.setVisibility name v).2, t.apart.setVisibility⟩

/-- The names of one visibility, in order. -/
def names (t : MethodTable) (v : Visibility) : List String := t.parts.names v

end MethodTable

/-- A method table in the chain that a lookup follows. -/
inductive Holder where
  /-- The methods of the object itself. -/
  | own (v : Value)
  /-- The instance methods of a class or module. -/
  | instances (v : Value)
  deriving DecidableEq, Repr

def Holder.value : Holder → Value
  | own v | instances v => v

end Garnet
