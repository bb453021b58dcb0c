import Garnet.Object.Store

/-!
# Method lookup

For a receiver the tables are visited in this order: its own methods; each module it was extended
with, followed by the modules that one includes; when the receiver is a class, the same for the
classes above it; then the instance methods of its class, of the modules the class includes, the
most recent first, and so on for every class above.

A table that is reached through an extension shows only its public methods.
-/

namespace Garnet

/-- Which hidden methods a caller may see. -/
structure Access where
  priv : Bool
  prot : Bool
  deriving DecidableEq, Repr

namespace Access

def onlyPublic : Access := ⟨false, false⟩

def all : Access := ⟨true, true⟩

def allows (a : Access) : Visibility → Bool
  | .pub => true
  | .prot => a.prot
  | .priv => a.priv

end Access

/-- A table on the way; `extended` when it was reached through an extension. -/
structure Step where
  holder : Holder
  extended : Bool
  deriving DecidableEq, Repr

/-- A method that was found, and where. -/
structure Resolved where
  method : MethodDef
  holder : Holder
  visibility : Visibility

/-- Why no method was found. -/
inductive Miss where
  | undefined
  /-- There is one, but this caller may not see it. -/
  | hidden (v : Visibility)
  deriving DecidableEq, Repr

namespace Store

def included (s : Store) (m : Value) : List Value := ((s.module? m).map (·.included)).getD []

def base? (s : Store) (c : Value) : Option Value := (s.module? c).bind (·.base)

/-- The table of a holder. -/
def tableOf (s : Store) : Holder → MethodTable
  | .own v => (s.object v).own
  | .instances v => ((s.module? v).map (·.methods)).getD {}

variable {σ ρ : Type}

/-- Visits a module and then the modules it includes, the most recent first. A visit carries a state
on or ends the walk; `fuel` bounds the nesting of modules. -/
def walkModule (s : Store) (visit : σ → Step → Except ρ σ) (extended : Bool) :
    Nat → Value → σ → Except ρ σ
  | 0, _, st => .ok st
  | n + 1, m, st => do
    let st ← visit st ⟨.instances m, extended⟩
    (s.included m).reverse.foldlM (fun st m => walkModule s visit extended n m st) st

/-- Visits a class with its modules, and then the classes above it. -/
def walkInstances (s : Store) (visit : σ → Step → Except ρ σ) : Nat → Value → σ → Except ρ σ
  | 0, _, st => .ok st
  | n + 1, c, st => do
    let st ← walkModule s visit false s.objects.size c st
    match s.base? c with
    | some b => walkInstances s visit n b st
    | none => .ok st

/-- Visits the methods of an object itself and its extensions; for a class also those of the
classes above it. -/
def walkOwn (s : Store) (visit : σ → Step → Except ρ σ) : Nat → Value → σ → Except ρ σ
  | 0, _, st => .ok st
  | n + 1, v, st => do
    let st ← visit st ⟨.own v, false⟩
    let st ← (s.object v).extended.foldlM
      (fun st m => walkModule s visit true s.objects.size m st) st
    match if s.isClass v then s.base? v else none with
    | some b => walkOwn s visit n b st
    | none => .ok st

/-- Visits every table that a lookup on `recv` may use, in order. -/
def walk (s : Store) (visit : σ → Step → Except ρ σ) (recv : Value) (st : σ) : Except ρ σ := do
  let st ← walkOwn s visit s.objects.size recv st
  walkInstances s visit s.objects.size (s.classOf recv) st

/-- Looks for a name in one table. The state is the visibility of the first method of that name that
was passed over. -/
def probe (s : Store) (name : String) (access : Access) (hidden : Option Visibility) (step : Step) :
    Except Resolved (Option Visibility) :=
  match (s.tableOf step.holder).lookup name with
  | some (m, v) =>
    if access.allows v && !(step.extended && v != .pub) then .error ⟨m, step.holder, v⟩
    else .ok (hidden <|> some v)
  | none => .ok hidden

/-- The method that `name` denotes on `recv` for a caller with the given access. -/
def findMethod (s : Store) (recv : Value) (name : String) (access : Access) :
    Except Miss Resolved :=
  match s.walk (s.probe name access) recv none with
  | .error found => .ok found
  | .ok none => .error .undefined
  | .ok (some v) => .error (.hidden v)

/-- The next method of that name after `holder` in the chain, whatever its visibility. -/
def findSuper? (s : Store) (recv : Value) (name : String) (holder : Holder) : Option Resolved :=
  let visit : Bool → Step → Except Resolved Bool := fun passed step =>
    if !passed then .ok (step.holder == holder)
    else (s.probe name .all none step).map fun _ => true
  match s.walk visit recv false with
  | .error found => some found
  | .ok _ => none

/-- How many arguments a method takes, as procs count them; a builtin takes any number. -/
def methodArity (s : Store) (m : MethodDef) : Int :=
  match m.body with
  | .compiled params _ _ => params.arity
  | .proc p => ((s.proc? p).map ProcData.arity).getD (-1)
  | _ => -1

/-- Whether the object itself has a method of that name. -/
def hasOwnMethod (s : Store) (recv : Value) (name : String) : Bool :=
  (s.object recv).own.contains name

def respondsTo (s : Store) (recv : Value) (name : String) (access : Access) : Bool :=
  match s.findMethod recv name access with
  | .ok _ => true
  | .error _ => false

/-- Adds a value that is not in the list yet at its end. -/
def addNew {α : Type} [BEq α] (xs : Array α) (x : α) : Array α :=
  if xs.contains x then xs else xs.push x

/-- A class or module and everything above it, in the order of lookup, each once. -/
def ancestors (s : Store) (c : Value) : List Value :=
  let visit : Array Value → Step → Except Empty (Array Value) := fun seen step =>
    .ok (addNew seen step.holder.value)
  match s.walkInstances visit s.objects.size c #[] with
  | .ok seen => seen.toList

/-- Whether `m` is the class of `v`, above it, or among the extensions of `v` and above those. -/
def isA (s : Store) (v m : Value) : Bool :=
  (s.object v).extended.any (fun e => e == m || (s.ancestors e).contains m) ||
    (s.ancestors (s.classOf v)).contains m

/-- Whether `b` is `a` or above it. -/
def inherits (s : Store) (a b : Value) : Bool := (s.ancestors a).contains b

/-- The names of a table that a caller may see. -/
def visibleNames (t : MethodTable) (access : Access) (extended : Bool) : List String :=
  t.names .pub ++
    (if access.prot && !extended then t.names .prot else []) ++
    (if access.priv && !extended then t.names .priv else [])

/-- The names of the methods of `recv`, in the order in which a lookup meets them. -/
def methodNames (s : Store) (recv : Value) (access : Access) : List String :=
  let visit : Array String → Step → Except Empty (Array String) := fun seen step =>
    .ok ((visibleNames (s.tableOf step.holder) access step.extended).foldl addNew seen)
  match s.walk visit recv #[] with
  | .ok seen => seen.toList

/-- The names of the instance methods of a class that have one of the visibilities. -/
def instanceMethodNames (s : Store) (c : Value) (inherited : Bool) (vs : List Visibility) :
    List String :=
  let holders := if inherited then s.ancestors c else [c]
  let names := holders.flatMap fun c => vs.flatMap fun v => (s.tableOf (.instances c)).names v
  (names.foldl addNew #[]).toList

/-- The instance method of that name of a class or of what is above it. -/
def findInstanceMethod? (s : Store) (c : Value) (name : String) : Option (MethodDef × Visibility) :=
  (s.ancestors c).findSome? fun c => (s.tableOf (.instances c)).lookup name

end Store

end Garnet
