import Garnet.Object.Store

/-!
# Lexical scopes

Block scopes see the variables of the scope around them; method, class and outermost scopes do not.
Methods defined in a body are bound in its scope until the body ends, and are looked for in all
enclosing scopes.
-/

namespace Garnet

/-- The scopes made so far. A scope comes after the scope around it. -/
abbrev Scopes := Array Scope

namespace Scopes

def scope (ss : Scopes) (id : ScopeId) : Scope := ss.getD id.index default

/-- The scope that holds a variable visible in `id`. -/
def holderOf? (ss : Scopes) (name : String) : Nat → ScopeId → Option ScopeId
  | 0, _ => none
  | n + 1, id =>
    let sc := ss.scope id
    if sc.vars.contains name then some id
    else if sc.kind != .block then none
    else sc.parent.bind (holderOf? ss name n)

def holder? (ss : Scopes) (id : ScopeId) (name : String) : Option ScopeId :=
  ss.holderOf? name (ss.size + 1) id

def get? (ss : Scopes) (id : ScopeId) (name : String) : Option Value :=
  (ss.holder? id name).bind fun h => (ss.scope h).vars.get? name

def isDefined (ss : Scopes) (id : ScopeId) (name : String) : Bool := (ss.holder? id name).isSome

def modifyScope (ss : Scopes) (id : ScopeId) (f : Scope → Scope) : Scopes := ss.modify id.index f

/-- Binds a variable in this very scope. -/
def declare (ss : Scopes) (id : ScopeId) (name : String) (v : Value) : Scopes :=
  ss.modifyScope id fun sc => { sc with vars := sc.vars.insert name v }

/-- Rebinds a visible variable, or makes it here. -/
def set (ss : Scopes) (id : ScopeId) (name : String) (v : Value) : Scopes :=
  ss.declare ((ss.holder? id name).getD id) name v

/-- The scopes whose variables are visible in `id`, innermost first. -/
def visible (ss : Scopes) : Nat → ScopeId → List ScopeId
  | 0, _ => []
  | n + 1, id =>
    let sc := ss.scope id
    if sc.kind != .block then [id]
    else id :: ((sc.parent.map (visible ss n)).getD [])

/-- The visible variables, innermost first, each once. -/
def localNames (ss : Scopes) (id : ScopeId) : List String :=
  let names := (ss.visible (ss.size + 1) id).flatMap fun i => (ss.scope i).vars.keys
  (names.foldl (fun (seen : Array String) n => if seen.contains n then seen else seen.push n)
    #[]).toList

/-- Adds a scope. -/
def push (ss : Scopes) (kind : ScopeKind) (parent : Option ScopeId) : ScopeId × Scopes :=
  (⟨ss.size⟩, Array.push ss { kind, parent })

/-! ## Methods of a body -/

def define (ss : Scopes) (id : ScopeId) (name : String) (p : Pending) : Scopes :=
  ss.modifyScope id fun sc => { sc with pending := sc.pending.insert name p }

/-- The method bound in a scope or around it. -/
def findMethodOf? (ss : Scopes) (name : String) : Nat → ScopeId → Option MethodDef
  | 0, _ => none
  | n + 1, id =>
    let sc := ss.scope id
    match sc.pending.get? name with
    | some p => some p.method
    | none => sc.parent.bind (findMethodOf? ss name n)

def findMethod? (ss : Scopes) (id : ScopeId) (name : String) : Option MethodDef :=
  ss.findMethodOf? name (ss.size + 1) id

/-- The method bound in this very scope. -/
def pending? (ss : Scopes) (id : ScopeId) (name : String) : Option Pending :=
  (ss.scope id).pending.get? name

/-- Gives a method bound in this scope another visibility. -/
def setPendingVisibility (ss : Scopes) (id : ScopeId) (name : String) (v : Visibility) : Scopes :=
  match ss.pending? id name with
  | some p => ss.define id name { p with visibility := v }
  | none => ss

/-- Removes the methods bound in a scope. -/
def takeMethods (ss : Scopes) (id : ScopeId) : List (String × Pending) × Scopes :=
  ((ss.scope id).pending.entries, ss.modifyScope id fun sc => { sc with pending := {} })

end Scopes

end Garnet
