import Garnet.Program.Build.Targets
import Garnet.Decimal.Numeral
import Garnet.Text.Letters

/-!
# Building the expression forms
-/

namespace Garnet.Build

/-! ## Literals -/

/-- An integer numeral of any length: an optional sign, then digits with underscores between. -/
def integer? (cs : List Char) : Option Int := do
  let (negative, cs) := match cs with
    | '-' :: '+' :: _ => (true, cs)
    | '-' :: rest => (true, rest)
    | _ => (false, cs)
  let cs := match cs with
    | '+' :: '+' :: _ => cs
    | '+' :: rest => rest
    | _ => cs
  match cs with
  | [] | '_' :: _ => none
  | _ =>
    if cs.all fun c => c.isDigit || c == '_' then
      let n : Int := Decimal.digitsValue (cs.filter (· != '_'))
      some (if negative then -n else n)
    else none

def int (t : Tree) : Builder Expr :=
  match t.child? 0 with
  | some (.int v) => pure (.int v.toInt)
  | some (.text digits) =>
    match integer? digits.toList with
    | some i => pure (.int i)
    | none => malformed t (.badInteger digits)
  | _ => malformed t .expectedInteger

def float (t : Tree) : Builder Expr :=
  match t.child? 0 with
  | some (.float x) => pure (.float x)
  | some (.int v) => pure (.float (Decimal.ofInt v.toInt))
  | _ => malformed t .expectedFloat

/-- The pieces of an interpolated text. -/
def pieces (below : Below) : List Child → Builder (List (Piece Expr))
  | [] => pure []
  | c :: cs => do
    let here ← match c with
      | .node tag children =>
        let u : Tree := ⟨tag, children⟩
        if u.hasKind .str then pure [.literal ((u.text? 0).getD "")]
        else (fun e => [.hole e]) <$> below.expr u
      | .text s => pure [.literal s]
      | _ => pure []
    let rest ← pieces below cs
    pure (here ++ rest)

/-- A pattern: its last child may hold the options. -/
def regexp (below : Below) (t : Tree) : Builder Expr := do
  match t.children.getLast?.bind Child.tree? with
  | some u =>
    if u.hasKind .regopt then
      let flags := String.join (u.children.filterMap Child.text?)
      let ps ← pieces below t.children.dropLast
      pure (.regexp ps flags)
    else
      let ps ← pieces below t.children
      pure (.regexp ps "")
  | none =>
    let ps ← pieces below t.children
    pure (.regexp ps "")

def array (below : Below) (t : Tree) : Builder Expr := .array <$> items below t 0

def hash (below : Below) (t : Tree) : Builder Expr := do
  let pairs ← (t.treesFrom 0).mapM fun u => do
    if !u.hasKind .pair then malformed t (.badEntry u.tag)
    else
      let key ← below.expr (← treeAt u 0)
      let value ← below.expr (← treeAt u 1)
      pure (key, value)
  pure (.hash pairs)

def range (below : Below) (t : Tree) (exclusive : Bool) : Builder Expr := do
  let first ← slot below t 0
  let last ← slot below t 1
  pure (.range first last exclusive)

/-! ## Calls -/

/-- Whether a call of this name yields its last argument, as assignments do. -/
def isSetter (n : String) : Bool :=
  n == "[]=" || (n.endsWith "=" && match n.toList with
    | c :: _ => Text.isAlphabetic c || c == '_'
    | [] => false)

def sendCall (below : Below) (t : Tree) (block : BlockArg Expr) (safe : Bool) : Builder Expr := do
  let recv ← optional below t 0
  let n ← nameAt t 1
  let (args, block) ← arguments below t 2 block
  pure (.send recv n args block safe (isSetter n))

def index (below : Below) (t : Tree) : Builder Expr := do
  let recv ← slot below t 0
  let args ← items below t 1
  pure (.index recv args)

def setIndex (below : Below) (t : Tree) : Builder Expr := do
  if t.size < 2 then malformed t .missingValue
  else
    let recv ← slot below t 0
    let args ← items below t 1
    pure (.setIndex recv args)

/-- A call, possibly with a literal block. -/
def call (below : Below) (t : Tree) (block : BlockArg Expr) : Builder Expr :=
  match t.kind, block with
  | some .send, _ => sendCall below t block false
  | some .csend, _ => sendCall below t block true
  | some .superCall, _ => do
    let (args, block) ← arguments below t 0 block
    pure (.super (some args) block)
  | some .bareSuper, _ => pure (.super none block)
  | some .index, .none => index below t
  | _, _ => malformed t .takesNoBlock

def block (below : Below) (t : Tree) : Builder Expr := do
  let callee ← treeAt t 0
  let args ← treeAt t 1
  let site ← newSite
  let ps ← params below args
  let body ← within site (slot below t 2)
  if callee.hasKind .lambda then pure (.lambda ⟨ps, body, site⟩)
  else call below callee (.literal ⟨ps, body, site⟩)

/-! ## Control flow -/

/-- Statements in order; a sequence of one is that one. -/
def sequence (below : Below) (t : Tree) : Builder Expr := do
  match ← (t.treesFrom 0).mapM below.expr with
  | [] => pure .nil
  | [e] => pure e
  | es => pure (.sequence es)

def cond (below : Below) (t : Tree) : Builder Expr := do
  let test ← slot below t 0
  let yes ← slot below t 1
  let no ← slot below t 2
  pure (.cond test yes no)

def loop (below : Below) (t : Tree) (negate post : Bool) : Builder Expr := do
  let test ← slot below t 0
  let site ← newSite
  let body ← within site (slot below t 1)
  pure (.loop test body negate post site)

def forEach (below : Below) (t : Tree) : Builder Expr := do
  let x ← target below (← treeAt t 0)
  let source ← slot below t 1
  let site ← newSite
  let body ← within site (slot below t 2)
  pure (.forEach x source body site)

def logic (below : Below) (t : Tree) (whenTrue : Bool) : Builder Expr := do
  let left ← slot below t 0
  let right ← slot below t 1
  pure (.logic whenTrue left right)

/-- The tests and the body of one arm of a case. -/
def arm (below : Below) (t : Tree) : Builder (List (Item Expr) × Expr) := do
  if t.size == 0 then malformed t .missingTests
  else
    let last := t.size - 1
    let tests ← (List.range last).mapM fun j => do item below (← treeAt t j)
    let body ← slot below t last
    pure (tests, body)

/-- The arms in slots `is`, and what applies when none of them does: the last slot may hold it. -/
def arms (below : Below) (t : Tree) : List Nat → Builder (List (List (Item Expr) × Expr) × Expr)
  | [] => pure ([], .nil)
  | i :: is => do
    match (t.tree? i).filter (·.hasKind .whenClause) with
    | some u =>
      let a ← arm below u
      let (rest, otherwise) ← arms below t is
      pure (a :: rest, otherwise)
    | none =>
      if is.isEmpty then
        let otherwise ← slot below t i
        pure ([], otherwise)
      else malformed t .expectedWhen

def select (below : Below) (t : Tree) : Builder Expr := do
  let subject ← optional below t 0
  let (arms, otherwise) ← arms below t (List.range' 1 (t.size - 1))
  pure (.select subject arms otherwise)

/-- What `next`, `break` and `return` carry: nil, one value, or an array of several. -/
def carried (below : Below) (t : Tree) : Builder Expr :=
  match t.tree? 0 with
  | some u => if t.size == 1 && !u.hasKind .splat then below.expr u else array below t
  | none => if t.size ≤ 1 then pure .nil else array below t

def next (below : Below) (t : Tree) : Builder Expr := do
  match ← (read : Builder (Option Nat)) with
  | some _ => .next <$> carried below t
  | none => malformed t .nextOutside

def breakOut (below : Below) (t : Tree) : Builder Expr := do
  match ← (read : Builder (Option Nat)) with
  | some site => .breakTo site <$> carried below t
  | none => malformed t .breakOutside

/-- What a clause of a handler takes, when it says so. -/
def clauseClasses (below : Below) (t : Tree) : Builder (Option (List (Item Expr))) :=
  match t.tree? 0 with
  | some list => some <$> items below list 0
  | none => pure none

/-- Where a clause of a handler stores the exception. -/
def clauseTarget (below : Below) (t : Tree) : Builder (Option (Target Expr)) :=
  match t.tree? 1 with
  | some x => some <$> target below x
  | none => pure none

/-- One clause of a handler. -/
def clause (below : Below) (t : Tree) : Builder (Clause Expr) := do
  let classes ← clauseClasses below t
  let bind ← clauseTarget below t
  let body ← slot below t 2
  pure ⟨classes, bind, body⟩

/-- The clauses in slots `is`; the last slot may hold what runs when nothing was raised. -/
def clauses (below : Below) (t : Tree) : List Nat → Builder (List (Clause Expr) × Option Expr)
  | [] => pure ([], none)
  | i :: is => do
    match (t.tree? i).filter (·.hasKind .resbody) with
    | some u =>
      let c ← clause below u
      let (rest, otherwise) ← clauses below t is
      pure (c :: rest, otherwise)
    | none =>
      if is.isEmpty then
        let otherwise ← optional below t i
        pure ([], otherwise)
      else malformed t .expectedHandler

def rescue (below : Below) (t : Tree) : Builder Expr := do
  let body ← slot below t 0
  let (cs, otherwise) ← clauses below t (List.range' 1 (t.size - 1))
  pure (.rescue body cs otherwise)

/-! ## Assignments -/

def setMany (below : Below) (t : Tree) : Builder Expr := do
  let u ← treeAt t 0
  if !u.hasKind .mlhs then malformed t .expectedTargets
  else
    let x ← manyTargets below u
    let value ← slot below t 1
    pure (.setMany x value)

def update (below : Below) (t : Tree) : Builder Expr := do
  let p ← place below (← treeAt t 0)
  let op ← nameAt t 1
  let value ← slot below t 2
  pure (.update p op value)

def updateIf (below : Below) (t : Tree) (whenTrue : Bool) : Builder Expr := do
  let p ← place below (← treeAt t 0)
  let value ← slot below t 1
  pure (.updateIf p whenTrue value)

def group (t : Tree) : Builder Expr :=
  match t.child? 0 with
  | some (.int v) => if v.toInt < 0 then malformed t .expectedGroup else pure (.group v.toInt.toNat)
  | _ => malformed t .expectedGroup

/-! ## Definitions -/

/-- Parameters and body of a method, the parameters in slot `i`. -/
def methodParts (below : Below) (t : Tree) (i : Nat) : Builder (Params Expr × Expr) :=
  detached do
    let ps ← params below (← treeAt t i)
    let body ← slot below t (i + 1)
    pure (ps, body)

def define (below : Below) (t : Tree) : Builder Expr := do
  let n ← nameAt t 0
  let (ps, body) ← methodParts below t 1
  pure (.define n ps body)

def defineOn (below : Below) (t : Tree) : Builder Expr := do
  let x ← slot below t 0
  let n ← nameAt t 1
  let (ps, body) ← methodParts below t 2
  pure (.defineOn x n ps body)

def openClass (below : Below) (t : Tree) : Builder Expr := do
  let u ← treeAt t 0
  let path ← constPath below u 0
  let n ← nameAt u 1
  let base ← optional below t 1
  let body ← detached (optional below t 2)
  pure (.openClass path n base body)

def openModule (below : Below) (t : Tree) : Builder Expr := do
  let u ← treeAt t 0
  let path ← constPath below u 0
  let n ← nameAt u 1
  let body ← detached (optional below t 1)
  pure (.openModule path n body)

def openSingleton (below : Below) (t : Tree) : Builder Expr := do
  let x ← slot below t 0
  let body ← detached (optional below t 1)
  pure (.openSingleton x body)

def aliasMethod (below : Below) (t : Tree) : Builder Expr := do
  for i in [0, 1] do
    let u ← treeAt t i
    if !(u.hasKind .sym || u.hasKind .dsym) then malformed t .aliasOfOther
  let new ← slot below t 0
  let old ← slot below t 1
  pure (.aliasMethod new old)

/-! ## The table of forms -/

/-- The expression a tree stands for, given how the trees below it are built. -/
def expr (below : Below) (t : Tree) : Builder Expr :=
  match t.kind with
  | none => unsupported t
  | some tag =>
    match tag with
    | .send | .csend | .superCall | .bareSuper => call below t .none
    | .index => index below t
    | .indexAsgn => setIndex below t
    | .yieldTo => .yield <$> items below t 0
    | .block => block below t
    | .splat => .splat <$> slot below t 0
    | .blockPass => malformed t (.misplaced "as a call argument")
    | .lambda => malformed t (.misplaced "as the call of a block")
    | .sequence | .bracketed => sequence below t
    | .cond => cond below t
    | .whileLoop => loop below t false false
    | .untilLoop => loop below t true false
    | .whileLoopPost => loop below t false true
    | .untilLoopPost => loop below t true true
    | .forLoop => forEach below t
    | .and => logic below t true
    | .or => logic below t false
    | .not => .not <$> slot below t 0
    | .caseOf => select below t
    | .nextPass => next below t
    | .breakOut => breakOut below t
    | .returnFrom => .returnWith <$> carried below t
    | .rescue => rescue below t
    | .ensure => do
      let body ← slot below t 0
      let cleanup ← slot below t 1
      pure (.ensure body cleanup)
    | .whenClause => malformed t (.misplaced "inside 'case'")
    | .resbody => malformed t (.misplaced "inside 'rescue'")
    | .lvar => .localVar <$> nameAt t 0
    | .ivar => .ivar <$> nameAt t 0
    | .gvar => .gvar <$> nameAt t 0
    | .cvar => .cvar <$> nameAt t 0
    | .lvasgn => do
      let n ← nameAt t 0
      .setLocal n <$> assigned below t 1
    | .ivasgn => do
      let n ← nameAt t 0
      .setIvar n <$> assigned below t 1
    | .gvasgn => do
      let n ← nameAt t 0
      .setGvar n <$> assigned below t 1
    | .cvasgn => do
      let n ← nameAt t 0
      .setCvar n <$> assigned below t 1
    | .const => do
      let path ← constPath below t 0
      .const path <$> nameAt t 1
    | .casgn => do
      let path ← constPath below t 0
      let n ← nameAt t 1
      .setConst path n <$> assigned below t 2
    | .cbase => pure .root
    | .nthRef => group t
    | .opAsgn => update below t
    | .orAsgn => updateIf below t false
    | .andAsgn => updateIf below t true
    | .masgn => setMany below t
    | .mlhs => malformed t (.misplaced "as an assignment target")
    | .int => int t
    | .float => float t
    | .str => pure (.text ((t.text? 0).getD ""))
    | .dstr => .interpolated <$> pieces below t.children
    | .sym => .symbol <$> nameAt t 0
    | .dsym => .interpolatedSymbol <$> pieces below t.children
    | .regexp => regexp below t
    | .array => array below t
    | .hash => hash below t
    | .irange => range below t false
    | .erange => range below t true
    | .nil => pure .nil
    | .true => pure .true
    | .false => pure .false
    | .self => pure .self
    | .pair => malformed t (.misplaced "inside 'hash'")
    | .regopt => malformed t (.misplaced "inside 'regexp'")
    | .define => define below t
    | .defs => defineOn below t
    | .classBody => openClass below t
    | .moduleBody => openModule below t
    | .singletonBody => openSingleton below t
    | .aliasName => aliasMethod below t
    | .args | .arg | .optarg | .restarg | .blockarg | .procarg0 | .kwarg | .kwoptarg =>
      malformed t (.misplaced "in a parameter list")

/-- How trees of depth at most `n` are built. -/
def below : Nat → Below
  | 0 =>
    { expr := fun t => malformed t .tooDeep
      target := fun t => malformed t .tooDeep
      patterns := fun t => malformed t .tooDeep }
  | n + 1 =>
    let b := below n
    { expr := expr b, target := target b, patterns := patterns b }

end Build

/-- The program a tree stands for. -/
def Expr.ofTree (t : Tree) : Except Fault Expr :=
  match (Build.below t.depth).expr t none 1 with
  | .ok (e, _) => .ok e
  | .error fault => .error fault

end Garnet
