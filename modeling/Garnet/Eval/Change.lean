import Garnet.Object.Classes
import Garnet.Object.Scope

/-!
# Changes of the store

Everything that an operation can do to the store in one step. None of these touches the stacks of
frames and scopes or the depth of calls: those belong to what runs, and are kept by the actions
that open a body or enter a call.

A change is plain when it brings no program text into the store. A method or a block that is there
already may still get a second name, another visibility or another holder.
-/

namespace Garnet

/-- Whether a method is program text. -/
def Callable.isText : Callable → Bool
  | .compiled .. => true
  | _ => false

/-- Whether an object with this payload holds neither program text nor methods, and is not one of
which there is only one. -/
def Payload.isPlain : Payload → Bool
  | .module _ | .proc ⟨.closure _, _⟩ | .proc ⟨.native (.forStep ..), _⟩ => Bool.false
  | .nil | .true | .false | .integer _ | .symbol _ => Bool.false
  | _ => Bool.true

/-- Whether a new object may hold this: a hash gets its entries one by one. -/
def Payload.isNew : Payload → Bool
  | .hash h => h.table.keys.isEmpty
  | p => p.isPlain

/-- How a hash changes. A key comes into it by insertion, or from another hash. -/
inductive HashEdit where
  /-- Gives a key its value; a key that is there already stays. -/
  | insert (key value : Value)
  | erase (key : Value)
  | clear
  /-- Takes over the entries of another hash. -/
  | copy (source : Value)
  /-- What a missing key has for its value, or which block is asked for it. -/
  | setFallback (fallback proc : Option Value)

inductive Change where
  /-- A new object of a class of the core. -/
  | alloc (cls : CoreClass) (payload : Payload) (ivars : Dict Value)
  /-- A new integer, unless it is interned. -/
  | allocInteger (i : Int)
  /-- A new symbol, to be found under its name from now on, unless there is one. -/
  | allocSymbol (name : String)
  /-- A new instance of a class that has instances. -/
  | instantiate (cls : Value)
  /-- A copy of an object that can be copied. -/
  | copyObject (v : Value)
  /-- A block with its surroundings: the current frame and scope. -/
  | allocBlock (b : BlockLiteral Expr) (lambda : Bool)
  /-- The step of a `for` loop with its surroundings. -/
  | allocStep (target : Target Expr) (body : Expr)
  /-- A lambda with the text and the surroundings of a block. -/
  | allocLambda (p : Value)
  | setIvar (v : Value) (name : String) (x : Value)
  | modifyItems (v : Value) (f : Array Value → Array Value)
  | editHash (v : Value) (e : HashEdit)
  | setText (v : Value) (t : String)
  | subclass (parent : Value) (name : String)
  | copyClass (c : Value)
  | newModule (name : String)
  | includeModule (target module : Value)
  | extendObject (v module : Value)
  | setCvar (module : Value) (name : String) (v : Value)
  | setConst (module : Value) (name : String) (v : Value)
  | nameModule (module : Value) (name : String)
  | define (holder : Holder) (name : String) (m : MethodDef) (v : Visibility)
  /-- A second name for the instance method that `old` denotes. -/
  | aliasMethod (module : Value) (new old : String)
  /-- Takes an instance method of `source` or of what is above it into a table. -/
  | adopt (holder : Holder) (source : Value) (name : String) (v : Visibility)
  | setVisibility (holder : Holder) (name : String) (v : Visibility)
  | eraseMethod (holder : Holder) (name : String)
  /-- Binds a method in the scope of a body. -/
  | definePending (scope : ScopeId) (name : String) (m : MethodDef) (v : Visibility)
  /-- A second name for a method bound in a scope. -/
  | aliasPending (scope : ScopeId) (new old : String)
  /-- A second name, bound in a scope, for a method bound there or around it. -/
  | aliasVisible (scope : ScopeId) (new old : String) (v : Visibility)
  | setPendingVisibility (scope : ScopeId) (name : String) (v : Visibility)
  /-- The visibility of later definitions in a body. -/
  | setDefaultVisibility (scope : ScopeId) (v : Visibility)
  /-- Moves the methods bound in the scope of a body to the class, or to the object itself. -/
  | promote (target : Value) (singleton : Bool) (scope : ScopeId)
  | newScope (kind : ScopeKind) (parent : Option ScopeId)
  | setLocal (scope : ScopeId) (name : String) (v : Value)
  /-- Binds a variable in this very scope. -/
  | declare (scope : ScopeId) (name : String) (v : Value)
  | setGlobal (name : String) (v : Value)
  | recordMatch (groups : Option (List (Option String)))
  | newActivation
  | newStop
  | newCell (p : Progress)
  | setCell (cell : Nat) (p : Option Progress)
  | write (text : String)
  | readLine

namespace Store

/-- Changes the table of a holder. -/
def modifyTable (s : Store) (holder : Holder) (f : MethodTable → MethodTable) : Store :=
  match holder with
  | .own v => s.modifyOwn v f
  | .instances v => s.modifyMethods v f

/-- Moves bound methods to a table; only those of program text go there. -/
def promoteAll (s : Store) (holder : Holder) (methods : List (String × Pending)) : Store :=
  methods.foldl (fun s (name, p) =>
    if !p.method.fromSource then s
    else s.modifyTable holder (·.insert name p.method p.visibility)) s

/-- The site after this one, as iterations count them. -/
def stopAfter (site : Nat) : Nat := if site - 1 > 0x7fffffff then site - 1 else 0xffffffff

/-- An exception object that carries a message. -/
def newException (s : Store) (cls : Value) (message : String) : Value × Store :=
  let (text, s) := s.alloc { cls := CoreClass.string.value, payload := .text message }
  s.alloc { cls, payload := .object, ivars := ({} : Dict Value).insert "@message" text }

def allocProc (s : Store) (p : ProcData) : Value × Store :=
  s.alloc { cls := CoreClass.proc.value, payload := .proc p }

/-- A store with a new symbol, which is found under its name. -/
def intern (s : Store) (name : String) : Store :=
  let (v, s) := s.alloc { cls := CoreClass.symbol.value, payload := .symbol name }
  { s with symbols := s.symbols.insert name v }

end Store

/-- A hash after an edit. What is no object is no key. -/
def HashEdit.apply (s : Store) (h : HashData) : HashEdit → HashData
  | insert key value =>
    if key.index < s.objects.size then { h with table := h.table.insert s.keyEql key value }
    else h
  | erase key => { h with table := h.table.erase s.keyEql key }
  | clear => { h with table := {} }
  | copy source => { h with table := s.entries source }
  | setFallback fallback fallbackProc => { h with fallback, fallbackProc }

namespace Change

/-- Whether a change brings no program text into the store. -/
def isPlain : Change → Bool
  | alloc _ payload _ => payload.isPlain
  | allocBlock .. | allocStep .. => false
  | define _ _ m _ | definePending _ _ m _ => !m.body.isText
  | _ => true

def apply : Change → Store → Store
  | alloc cls payload ivars, s => (s.alloc { cls := cls.value, payload, ivars }).2
  | allocInteger i, s =>
    if s.config.interns i then s
    else (s.alloc { cls := CoreClass.integer.value, payload := .integer i }).2
  | allocSymbol name, s =>
    match s.symbols[name]? with
    | some _ => s
    | none => s.intern name
  | instantiate cls, s =>
    match s.blankInstance? cls with
    | some o => (s.alloc o).2
    | none => s
  | copyObject v, s =>
    match s.copiedObject? v with
    | some o => (s.alloc o).2
    | none => s
  | allocBlock b lambda, s =>
    (s.allocProc ⟨.closure ⟨b.params, b.body, s.scopeId, s.frame, b.site⟩, lambda⟩).2
  | allocStep target body, s =>
    (s.allocProc ⟨.native (.forStep target body s.frame s.scopeId), false⟩).2
  | allocLambda p, s =>
    match s.proc? p with
    | some d => (s.allocProc { d with lambda := true }).2
    | none => s
  | setIvar v name x, s => s.setIvar v name x
  | modifyItems v f, s => s.modifyObject v fun o => match o.payload with
    | .array xs => { o with payload := .array (f xs) }
    | _ => o
  | editHash v e, s =>
    let h := e.apply s ((s.hash? v).getD {})
    s.modifyObject v fun o => match o.payload with
      | .hash _ => { o with payload := .hash h }
      | _ => o
  | setText v t, s => s.modifyObject v fun o => match o.payload with
    | .text _ => { o with payload := .text t }
    | _ => o
  | subclass parent name, s =>
    match s.subclass parent name with
    | .ok (_, s) => s
    | .error _ => s
  | copyClass c, s =>
    match s.copyClass c with
    | .ok (_, s) => s
    | .error _ => s
  | newModule name, s => (s.newModule name).2
  | includeModule target module, s =>
    match s.includeModule target module with
    | .ok s => s
    | .error _ => s
  | extendObject v module, s =>
    match s.extendObject v module with
    | .ok s => s
    | .error _ => s
  | setCvar module name v, s =>
    s.modifyModule module fun m => { m with cvars := m.cvars.insert name v }
  | setConst module name v, s =>
    s.modifyModule module fun m => { m with consts := m.consts.insert name v }
  | nameModule module name, s => s.modifyModule module fun m => { m with name := name }
  | define holder name m v, s => s.modifyTable holder (·.insert name m v)
  | aliasMethod module new old, s =>
    match s.findInstanceMethod? module old with
    | some (m, v) => s.modifyMethods module (·.insert new (m.renamed new) v)
    | none => s
  | adopt holder source name v, s =>
    match s.findInstanceMethod? source name with
    | some (m, _) => s.modifyTable holder (·.insert name m v)
    | none => s
  | setVisibility holder name v, s => s.modifyTable holder (·.setVisibility name v)
  | eraseMethod holder name, s => s.modifyTable holder (·.erase name)
  | definePending scope name m v, s =>
    { s with scopes := Scopes.define s.scopes scope name ⟨m, v⟩ }
  | aliasPending scope new old, s =>
    match Scopes.pending? s.scopes scope old with
    | some p =>
      { s with scopes := Scopes.define s.scopes scope new ⟨p.method.renamed new, p.visibility⟩ }
    | none => s
  | aliasVisible scope new old v, s =>
    match Scopes.findMethod? s.scopes scope old with
    | some m => { s with scopes := Scopes.define s.scopes scope new ⟨m.renamed new, v⟩ }
    | none => s
  | setPendingVisibility scope name v, s =>
    { s with scopes := Scopes.setPendingVisibility s.scopes scope name v }
  | setDefaultVisibility scope v, s =>
    { s with scopes := Scopes.modifyScope s.scopes scope fun sc => { sc with visibility := v } }
  | promote target singleton scope, s =>
    let (methods, scopes) := Scopes.takeMethods s.scopes scope
    let holder := if singleton then Holder.own target else .instances target
    { s with scopes := scopes }.promoteAll holder methods
  | newScope kind parent, s => { s with scopes := (Scopes.push s.scopes kind parent).2 }
  | setLocal scope name v, s => { s with scopes := Scopes.set s.scopes scope name v }
  | declare scope name v, s => { s with scopes := Scopes.declare s.scopes scope name v }
  | setGlobal name v, s => { s with globals := s.globals.insert name v }
  | recordMatch groups, s => { s with lastMatch := groups }
  | newActivation, s => { s with lastActivation := s.lastActivation + 1 }
  | newStop, s => { s with nextStop := Store.stopAfter s.nextStop }
  | newCell p, s => { s with cells := s.cells.push (some p) }
  | setCell cell p, s => { s with cells := s.cells.setIfInBounds cell p }
  | write text, s => { s with output := s.output ++ text }
  | readLine, s => { s with input := s.input.tail }

end Change

end Garnet
