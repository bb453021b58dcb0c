import Garnet.Eval.Send

/-!
# Calls

How arguments are shared out among parameters, and how methods and procs run. A method or lambda is
strict about the number of its arguments. A plain block is not: what is missing becomes nil, what is
too much is dropped, and a single array is spread over several parameters.
-/

namespace Garnet

/-- Arguments by the kind of parameter that takes them. -/
structure Allotment where
  required : List Value
  /-- For the first of the optional parameters. -/
  given : List Value
  rest : List Value
  post : List Value

namespace Params

variable {ε : Type}

/-- Shares out arguments: the required parameters come first, then as many optional ones as there
are arguments for, then the rest. -/
def allot (p : Params ε) (args : List Value) : Allotment :=
  let extra := args.length - p.requiredCount
  let given := min extra p.optional.length
  let after := args.drop (p.required.length + given)
  let rest := if p.hasRest then extra - given else 0
  { required := args.take p.required.length
    given := (args.drop p.required.length).take given
    rest := after.take rest
    post := after.drop rest }

/-- The number of arguments wanted, as an error message gives it. -/
def expected (p : Params ε) : String :=
  let n := p.requiredCount
  if p.hasRest then s!"{n}+"
  else if p.optional.isEmpty then toString n
  else
    let most := n + p.optional.length
    s!"{n}..{most}"

/-- Whether a lone array is spread over the parameters of a block. -/
def spreads (p : Params ε) : Bool :=
  let positional := p.requiredCount + p.optional.length
  !p.single && (positional > 1 || (positional == 1 && p.hasRest))

end Params

namespace Eval

/-! ## Binding parameters -/

def declare (scope : ScopeId) (name : String) (v : Value) : Op Unit :=
  update (.declare scope name v)

mutual

def bindPattern (scope : ScopeId) : Pattern → Value → Op Unit
  | .name n, v => declare scope n v
  | .nested ps, v => do
    let items ← view fun s => match s.array? v with
      | some xs => xs.toList
      | none => [v]
    bindPatterns scope ps items

/-- Binds patterns to values in order; what has no value gets nil. -/
def bindPatterns (scope : ScopeId) : List Pattern → List Value → Op Unit
  | [], _ => pure ()
  | p :: ps, vs => do
    bindPattern scope p (vs.headD .nil)
    bindPatterns scope ps vs.tail

end

/-- Binds the optional parameters: first those with a value, the others to their defaults. -/
def bindOptional (scope : ScopeId) : List (String × Expr) → List Value → Eval Unit
  | [], _ => pure ()
  | (n, _) :: ps, v :: vs => do
    declare scope n v
    bindOptional scope ps vs
  | (n, default) :: ps, [] => do
    let v ← perform (.eval default)
    declare scope n v
    bindOptional scope ps []

/-- The arguments of a block, where a lone array is spread over several parameters. -/
def spreadArgs (p : Params Expr) (args : List Value) (strict : Bool) : Op (List Value) :=
  match args with
  | [v] =>
    if !strict && p.spreads then view fun s => match s.array? v with
      | some xs => xs.toList
      | none => args
    else pure args
  | _ => pure args

def bindRest (scope : ScopeId) (p : Params Expr) (vs : List Value) : Op Unit := do
  if p.hasRest then
    let rest ← newList vs
    match p.rest with
    | some n => declare scope n rest
    | none => pure ()

def bindBlock (scope : ScopeId) (p : Params Expr) (block : Option Value) : Op Unit :=
  match p.block with
  | some n => declare scope n (block.getD .nil)
  | none => pure ()

/-- Binds arguments in the current scope. -/
def bindParams (p : Params Expr) (args : List Value) (block : Option Value) (strict : Bool) :
    Eval Unit := do
  let args ← spreadArgs p args strict
  if strict && !p.accepts args.length then
    let given := args.length
    let expected := p.expected
    argumentError s!"wrong number of arguments (given {given}, expected {expected})"
  else
    let scope ← view (·.scopeId)
    let a := p.allot args
    bindPatterns scope p.required a.required
    bindOptional scope p.optional a.given
    bindRest scope p a.rest
    bindPatterns scope p.post a.post
    bindBlock scope p block

/-- Binds arguments and evaluates the body. -/
def runText (p : Params Expr) (args : List Value) (block : Option Value) (strict : Bool)
    (body : Expr) : Call Value := do
  bindParams p args block strict
  perform (.eval body)

/-! ## Running methods -/

def runCompiled (name : String) (params : Params Expr) (body : Expr) (outer : Option ScopeId)
    (holder : Holder) (recv : Value) (args : List Value) (block : Option Value) : Call Value :=
  .activate (fun id => do
    let scope ← newScope .method outer
    .within (.method recv ⟨id, some (name, holder), args, block⟩) scope
      (runText params args block true body) rfl) id

/-- Runs a proc as the body of a method. -/
def runProcMethod (name : String) (p : Value) (holder : Holder) (recv : Value) (args : List Value)
    (block : Option Value) : Call Value :=
  .activate (fun id =>
    perform (.callProc p args block (some ⟨recv, ⟨id, some (name, holder), args, block⟩, true⟩))) id

/-- A lambda and the body of a method end at a `break` of their own. -/
def catchOwnBreak (strict : Bool) (site : Nat) (x : Call Value) : Call Value :=
  if strict then .catchBreak site x id else x

/-- Runs the body of a block as what it was called as. -/
def runIn (p : Value) (lambda : Bool) (scope : ScopeId) (body : Call Value) :
    Option Rebind → Call Value
  | some r =>
    if r.lambda then .within (.methodProc r.self r.activation) scope body rfl
    else .within (.rebound p lambda r.self r.activation) scope body rfl
  | none =>
    if lambda then .activate (fun id => .within (.lambda p id) scope body rfl) id
    else .within (.block p) scope body rfl

def runClosure (p : Value) (c : Closure) (lambda : Bool) (args : List Value)
    (block : Option Value) (rebind : Option Rebind) : Call Value := do
  let strict := lambda || (rebind.map (·.lambda)).getD false
  let scope ← newScope .block (some c.scope)
  .catchNext (catchOwnBreak strict c.site
    (runIn p lambda scope (runText c.params args block strict c.body) rebind)) id

/-- Runs a proc; `native` runs the blocks that are no program text. -/
def runProc (native : Value → NativeBlock → List Value → Eval Value) (p : Value)
    (args : List Value) (block : Option Value) (rebind : Option Rebind) : Call Value := do
  match ← view (·.proc? p) with
  | none =>
    let kind ← className p
    typeError s!"wrong argument type {kind} (expected Proc)"
  | some { body := .native b, .. } => .catchNext (native p b args) id
  | some { body := .closure c, lambda } => perform (.enter p c lambda args block rebind)

end Eval

end Garnet
