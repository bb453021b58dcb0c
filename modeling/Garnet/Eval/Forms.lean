import Garnet.Eval.Bodies
import Garnet.Eval.Call
import Garnet.Eval.Convert
import Garnet.Eval.Matching

/-!
# Evaluating the expression forms
-/

namespace Garnet.Eval

def eval (e : Expr) : Eval Value := perform (.eval e)

def evalOption : Option Expr → Eval (Option Value)
  | some e => some <$> eval e
  | none => pure none

/-! ## Lists of values -/

/-- What a splat contributes: the elements of an array, nothing for nil, what `to_a` gives, or the
value alone. -/
def splatValues (v : Value) : Op (List Value) := do
  match ← view (·.array? v) with
  | some xs => pure xs.toList
  | none =>
    if v.isNil then pure []
    else if ← respondsTo v "to_a" true then
      let a ← send v "to_a" [] none
      match ← view (·.array? a) with
      | some xs => pure xs.toList
      | none => pure [v]
    else pure [v]

def evalItem : Item Expr → Eval (List Value)
  | .plain e => do pure [← eval e]
  | .splat e => do splatValues (← eval e)

def evalItems : List (Item Expr) → Eval (List Value)
  | [] => pure []
  | .plain e :: rest => do
    let v ← eval e
    let vs ← evalItems rest
    pure (v :: vs)
  | .splat e :: rest => do
    let v ← eval e
    let xs ← splatValues v
    let vs ← evalItems rest
    pure (xs ++ vs)

/-- The right side of a multiple assignment as a list. -/
def destructure (v : Value) : Op (List Value) := do
  match ← view (·.array? v) with
  | some xs => pure xs.toList
  | none =>
    if !v.isNil && (← respondsTo v "to_ary" true) then
      let a ← send v "to_ary" [] none
      match ← view (·.array? a) with
      | some xs => pure xs.toList
      | none => pure [v]
    else pure [v]

/-! ## Literals -/

def renderPieces : List (Piece Expr) → Eval String
  | [] => pure ""
  | .literal t :: rest => do
    let more ← renderPieces rest
    pure (t ++ more)
  | .hole e :: rest => do
    let v ← eval e
    let t ← toText v
    let more ← renderPieces rest
    pure (t ++ more)

/-- Puts the entries of a literal into its hash. -/
def fillHash (h : Value) : List (Expr × Expr) → Eval Value
  | [] => pure h
  | (k, v) :: rest => do
    let key ← eval k
    let value ← eval v
    insertEntry h key value
    fillHash h rest

def evalHash (pairs : List (Expr × Expr)) : Eval Value := do fillHash (← newHash) pairs

/-! ## Constants -/

def readConst (path : ConstPath Expr) (name : String) : Eval Value :=
  match path with
  | .lexical => getConst name
  | .top => getTopConst name
  | .inside e => do getConstIn (← eval e) name

def writeConst (path : ConstPath Expr) (name : String) (v : Value) : Eval Value :=
  match path with
  | .lexical => setConst name v
  | .top => setConstIn CoreClass.object.value name v
  | .inside e => do setConstIn (← eval e) name v

/-- Where a class or module statement puts its name. -/
def containerFor : ConstPath Expr → Eval (Option Value)
  | .lexical => pure none
  | .top => pure (some CoreClass.object.value)
  | .inside e => some <$> eval e

/-! ## Calls -/

def newBlock (b : BlockLiteral Expr) (lambda : Bool) : Eval Value := make (.allocBlock b lambda)

def resolveBlock : BlockArg Expr → Eval (Option Value)
  | .none => pure none
  | .literal b => some <$> newBlock b false
  | .pass e => do
    let v ← eval e
    if v.isNil then pure none
    else if (← view (·.proc? v)).isSome then pure (some v)
    else some <$> send v "to_proc" [] none
  | .forward => view (·.frame.block)

/-- A `break` in a literal block ends the call the block was given to. -/
def catchBlockBreak (block : BlockArg Expr) (x : Eval Value) : Eval Value :=
  match block with
  | .literal b => .catchBreak b.site x id
  | _ => x

def evalSend (recv : Option Expr) (name : String) (args : List (Item Expr)) (block : BlockArg Expr)
    (safe setter : Bool) : Eval Value := do
  let r ← evalOption recv
  if safe && r == some .nil then pure .nil
  else
    let argv ← evalItems args
    let b ← resolveBlock block
    let out ← catchBlockBreak block (match r with
      | some r => callMethod r name argv b
      | none => sendSelf name argv b)
    pure (if setter then argv.getLast?.getD out else out)

def evalSuper (args : Option (List (Item Expr))) (block : BlockArg Expr) : Eval Value := do
  let argv ← match args with
    | some items => some <$> evalItems items
    | none => pure none
  let b ← resolveBlock block
  catchBlockBreak block (callSuper argv b)

def evalIndex (recv : Expr) (args : List (Item Expr)) : Eval Value := do
  let r ← eval recv
  let argv ← evalItems args
  callMethod r "[]" argv none

def evalSetIndex (recv : Expr) (args : List (Item Expr)) : Eval Value := do
  let r ← eval recv
  let argv ← evalItems args
  discard (callMethod r "[]=" argv none)
  pure (argv.getLast?.getD .nil)

/-! ## Assignment -/

/-- Shares out values among the places of a multiple assignment. `leading` values come before the
place that takes the rest, `trailing` start where the places after it do. -/
def storeSlots (values : List Value) (leading trailing : Nat) :
    List (Slot (Target Expr)) → Nat → Eval Unit
  | [], _ => pure ()
  | .one t :: rest, i => do
    discard (perform (.store t (values[i]?.getD .nil)))
    storeSlots values leading trailing rest (i + 1)
  | .rest t :: rest, _ => do
    match t with
    | some t =>
      let middle ← newList ((values.take trailing).drop leading)
      discard (perform (.store t middle))
    | none => pure ()
    storeSlots values leading trailing rest trailing

def isRest : Slot (Target Expr) → Bool
  | .rest _ => true
  | .one _ => false

def storeMany (slots : List (Slot (Target Expr))) (v : Value) : Eval Unit := do
  let values ← destructure v
  let leading := (slots.takeWhile (!isRest ·)).length
  let after := slots.length - leading - 1
  storeSlots values leading (max leading (values.length - after)) slots 0

/-- Stores a value in a target. -/
def storeIn (t : Target Expr) (v : Value) : Eval Unit :=
  match t with
  | .localVar n => setLocal n v
  | .ivar n => setIvar n v
  | .gvar n => setGlobal n v
  | .cvar n => setCvar n v
  | .const path n => discard (writeConst path n v)
  | .attribute recv setter args safe => do
    let r ← match recv with
      | some e => eval e
      | none => self
    if safe && r.isNil then pure ()
    else
      let argv ← evalItems args
      discard (callMethod r setter (argv ++ [v]) none)
  | .index recv args => do
    let r ← eval recv
    let argv ← evalItems args
    discard (callMethod r "[]=" (argv ++ [v]) none)
  | .many slots => storeMany slots v

/-- A place whose receiver and indexes have been evaluated. -/
inductive Bound where
  | plain
  | attribute (recv : Value)
  | index (recv : Value) (args : List Value)

/-- Evaluates the receiver and the indexes of a place once; nothing when a safe receiver is nil. -/
def bindPlace : Place Expr → Eval (Option Bound)
  | .attribute recv _ _ safe => do
    let r ← match recv with
      | some e => eval e
      | none => self
    pure (if safe && r.isNil then none else some (.attribute r))
  | .index recv args => do
    let r ← eval recv
    let argv ← evalItems args
    pure (some (.index r argv))
  | _ => pure (some .plain)

def readPlace (p : Place Expr) (b : Bound) : Eval Value :=
  match p, b with
  | .localVar n, _ => getLocal n
  | .ivar n, _ => getIvar n
  | .gvar n, _ => getGlobal n
  | .cvar n, _ => getCvar n
  | .const path n, _ => readConst path n
  | .attribute _ reader _ _, .attribute r => callMethod r reader [] none
  | .index _ _, .index r argv => callMethod r "[]" argv none
  | _, _ => pure .nil

/-- The value of `x`, or nil when it raises an exception. -/
def orNil (x : Eval Value) : Eval Value := do
  match ← rescue x with
  | .ok v => pure v
  | .error _ => pure .nil

/-- Reads a place where an undefined class variable or constant counts as nil. -/
def readPlaceOrNil (p : Place Expr) (b : Bound) : Eval Value :=
  match p with
  | .const .lexical n => view fun s => (s.lexicalConst? n).getD .nil
  | .cvar _ | .const _ _ => orNil (readPlace p b)
  | _ => readPlace p b

def writePlace (p : Place Expr) (b : Bound) (v : Value) : Eval Unit :=
  match p, b with
  | .localVar n, _ => setLocal n v
  | .ivar n, _ => setIvar n v
  | .gvar n, _ => setGlobal n v
  | .cvar n, _ => setCvar n v
  | .const path n, _ => discard (writeConst path n v)
  | .attribute _ _ setter _, .attribute r => discard (callMethod r setter [v] none)
  | .index _ _, .index r argv => discard (callMethod r "[]=" (argv ++ [v]) none)
  | _, _ => pure ()

def evalUpdate (p : Place Expr) (op : String) (value : Expr) : Eval Value := do
  match ← bindPlace p with
  | none => pure .nil
  | some b =>
    let current ← readPlace p b
    let right ← eval value
    let v ← callMethod current op [right] none
    writePlace p b v
    pure v

def evalUpdateIf (p : Place Expr) (whenTrue : Bool) (value : Expr) : Eval Value := do
  match ← bindPlace p with
  | none => pure .nil
  | some b =>
    let current ← readPlaceOrNil p b
    if current.truthy != whenTrue then pure current
    else
      let v ← eval value
      writePlace p b v
      pure v

/-! ## Control flow -/

def evalSequence : List Expr → Eval Value
  | [] => pure .nil
  | [e] => eval e
  | e :: es => do
    discard (eval e)
    evalSequence es

/-- One pass of a loop body: a result when the loop is over. -/
def loopPass (site : Nat) (x : Eval Value) : Eval (Option Value) :=
  .catchBreak site (.catchNext (do
    discard x
    pure none) fun _ => none) some

/-- Whether a loop is over before its next pass; the first pass may skip the test. -/
def loopOver (test : Expr) (negate skipTest : Bool) : Eval Bool :=
  if skipTest then pure false else do
    let v ← eval test
    pure (v.truthy == negate)

/-- One round of a loop: its result, or whether the next one skips the test. -/
def loopRound (test body : Expr) (negate : Bool) (site : Nat) (skipTest : Bool) :
    Eval (Bool ⊕ Value) := do
  if ← loopOver test negate skipTest then pure (.inr .nil)
  else
    match ← loopPass site (eval body) with
    | some v => pure (.inr v)
    | none => pure (.inl false)

def evalLoop (test body : Expr) (negate post : Bool) (site : Nat) : Eval Value :=
  repeatUntil (loopRound test body negate site) post

/-- Drives the `each` of the source with the body. -/
def evalForEach (target : Target Expr) (source body : Expr) (site : Nat) : Eval Value := do
  let iter ← eval source
  let block ← make (.allocStep target body)
  .catchBreak site (do
    discard (send iter "each" [] (some block))
    pure iter) id

/-- One step of a `for` loop: several arguments are packed into an array. -/
def forStep (p : Value) (target : Target Expr) (body : Expr) (scope : ScopeId)
    (args : List Value) : Eval Value := do
  let v ← match args with
    | [v] => pure v
    | vs => newList vs
  .within (.step p) scope (do
    discard (perform (.store target v))
    eval body) rfl

/-- Whether one of the candidates takes the subject, or is true when there is none. -/
def anyTakes (subject : Option Value) : List Value → Op Bool
  | [] => pure false
  | p :: ps => do
    let hit ← match subject with
      | some v => caseEquals p v
      | none => pure p.truthy
    if hit then pure true else anyTakes subject ps

def testItems (subject : Option Value) : List (Item Expr) → Eval Bool
  | [] => pure false
  | item :: rest => do
    let candidates ← evalItem item
    if ← anyTakes subject candidates then pure true else testItems subject rest

def evalArms (subject : Option Value) (otherwise : Expr) :
    List (List (Item Expr) × Expr) → Eval Value
  | [] => eval otherwise
  | (tests, body) :: rest => do
    if ← testItems subject tests then eval body else evalArms subject otherwise rest

/-- Whether a clause takes an exception. -/
def clauseTakes (c : Clause Expr) (exc : Value) : Eval Bool := do
  match c.classes with
  | none => caseEquals CoreClass.standardError.value exc
  | some items => do
    let classes ← evalItems items
    anyTakes (some exc) classes

/-- Runs the first clause that takes the exception, with `$!` set to it meanwhile. -/
def runClauses (exc : Value) : List (Clause Expr) → Eval Value
  | [] => signal (.raise exc)
  | c :: rest => do
    if ← clauseTakes c exc then
      .handling exc (do
        match c.bind with
        | some t => discard (perform (.store t exc))
        | none => pure ()
        eval c.body)
    else runClauses exc rest

def evalRescue (body : Expr) (clauses : List (Clause Expr)) (otherwise : Option Expr) :
    Eval Value := do
  match ← rescue (eval body) with
  | .ok v =>
    match otherwise with
    | some e => eval e
    | none => pure v
  | .error exc => runClauses exc clauses

/-- The cleanup runs however the body ends; its own failure comes first. -/
def evalEnsure (body cleanup : Expr) : Eval Value :=
  .ensure (eval body) (discard (eval cleanup))

/-! ## Definitions -/

def evalDefine (name : String) (params : Params Expr) (body : Expr) : Eval Value := do
  let scope ← view (·.scopeId)
  let m : MethodDef := ⟨name, .compiled params body (some scope), true⟩
  match ← view fun s => (Scopes.scope s.scopes scope).kind with
  | .classBody | .top => update (.definePending scope name m (← defaultVisibility))
  | _ =>
    let owner ← view fun s => s.moduleFor s.self
    defineInstanceMethod owner name m
  newSymbol name

def evalDefineOn (target : Expr) (name : String) (params : Params Expr) (body : Expr) :
    Eval Value := do
  let t ← eval target
  let scope ← view (·.scopeId)
  defineSingleton t name ⟨name, .compiled params body (some scope), true⟩

def evalAlias (new old : Expr) : Eval Value := do
  let n ← eval new
  let o ← eval old
  let n ← nameOf n
  let o ← nameOf o
  aliasHere n o
  pure .nil

/-! ## The table of forms -/

def evalExpr : Expr → Eval Value
  | .nil => pure .nil
  | .true => pure .true
  | .false => pure .false
  | .self => self
  | .root => pure CoreClass.object.value
  | .int i => newInt i
  | .float x => newFloat x
  | .text s => newText s
  | .symbol s => newSymbol s
  | .interpolated ps => do newText (← renderPieces ps)
  | .interpolatedSymbol ps => do newSymbol (← renderPieces ps)
  | .regexp ps flags => do newRegexp (← renderPieces ps) flags
  | .array items => do newList (← evalItems items)
  | .hash pairs => evalHash pairs
  | .range a b exclusive => do
    let first ← eval a
    let last ← eval b
    newRange first last exclusive
  | .localVar n => getLocal n
  | .ivar n => getIvar n
  | .gvar n => getGlobal n
  | .cvar n => getCvar n
  | .const path n => readConst path n
  | .group n => getGroup n
  | .setLocal n e => do
    let v ← eval e
    setLocal n v
    pure v
  | .setIvar n e => do
    let v ← eval e
    setIvar n v
    pure v
  | .setGvar n e => do
    let v ← eval e
    setGlobal n v
    pure v
  | .setCvar n e => do
    let v ← eval e
    setCvar n v
    pure v
  | .setConst path n e => do
    let v ← eval e
    writeConst path n v
  | .setMany t e => do
    let v ← eval e
    discard (perform (.store t v))
    pure v
  | .update p op e => evalUpdate p op e
  | .updateIf p whenTrue e => evalUpdateIf p whenTrue e
  | .sequence es => evalSequence es
  | .cond test yes no => do
    if (← eval test).truthy then eval yes else eval no
  | .loop test body negate post site => evalLoop test body negate post site
  | .forEach t source body site => evalForEach t source body site
  | .logic whenTrue a b => do
    let l ← eval a
    if l.truthy == whenTrue then eval b else pure l
  | .not e => do newBool (!(← eval e).truthy)
  | .select subject arms otherwise => do
    let v ← evalOption subject
    evalArms v otherwise arms
  | .next e => do
    let v ← eval e
    signal (.next v)
  | .breakTo site e => do
    let v ← eval e
    signal (.breakTo site v)
  | .returnWith e => do
    let v ← eval e
    .leave v
  | .rescue body clauses otherwise => evalRescue body clauses otherwise
  | .ensure body cleanup => evalEnsure body cleanup
  | .send recv name args block safe setter => evalSend recv name args block safe setter
  | .super args block => evalSuper args block
  | .yield args => do yieldBlock (← evalItems args)
  | .index recv args => evalIndex recv args
  | .setIndex recv args => evalSetIndex recv args
  | .splat e => do newList (← splatValues (← eval e))
  | .lambda b => newBlock b true
  | .define name params body => evalDefine name params body
  | .defineOn target name params body => evalDefineOn target name params body
  | .openClass path name base body => do
    let container ← containerFor path
    let b ← evalOption base
    openClass container name b body
  | .openModule path name body => do
    let container ← containerFor path
    openModule container name body
  | .openSingleton target body => do
    let t ← eval target
    runBody t true body
  | .aliasMethod new old => evalAlias new old

end Garnet.Eval
