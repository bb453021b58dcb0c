import Garnet.Program.Expr
import Garnet.Program.Fault
import Garnet.Tree.Basic

/-!
# Building programs: slots, jumps and lists of arguments

Building a program threads a counter for jump sites, unique within one program, and knows the
innermost enclosing loop or block. The first fault ends it.
-/

namespace Garnet.Build

/-- The site of the innermost loop or block is at hand, the next free site is threaded. -/
abbrev Builder := ReaderT (Option Nat) (StateT Nat (Except Fault))

variable {α : Type}

def malformed (t : Tree) (reason : Reason) : Builder α :=
  fun _ _ => .error (.malformed t.tag reason)

def unsupported (t : Tree) : Builder α :=
  fun _ _ => .error (.unsupported t.tag)

/-- A site that no earlier construct of this program has. -/
def newSite : Builder Nat := fun _ next => .ok (next, next + 1)

/-- Builds with `site` as the target of `next` and `break`. -/
def within (site : Nat) (x : Builder α) : Builder α := fun _ next => x (some site) next

/-- Builds a body that sees no enclosing loop or block. -/
def detached (x : Builder α) : Builder α := fun _ next => x none next

def nameAt (t : Tree) (i : Nat) : Builder String :=
  match t.text? i with
  | some s => pure s
  | none => malformed t (.notName i)

def treeAt (t : Tree) (i : Nat) : Builder Tree :=
  match t.tree? i with
  | some u => pure u
  | none => malformed t (.notTree i)

/-- How the trees below the one at hand are built. -/
structure Below where
  expr : Tree → Builder Expr
  target : Tree → Builder (Target Expr)
  patterns : Tree → Builder (List Pattern)

/-- Slot `i` as an expression, nothing when it is absent or missing. -/
def optional (below : Below) (t : Tree) (i : Nat) : Builder (Option Expr) :=
  match t.child? i with
  | none | some .absent => pure none
  | some (.node tag children) => some <$> below.expr ⟨tag, children⟩
  | some _ => malformed t (.notTree i)

/-- Slot `i` as an expression, nil when it is absent or missing. -/
def slot (below : Below) (t : Tree) (i : Nat) : Builder Expr := do
  let e ← optional below t i
  pure (e.getD .nil)

/-- The value slot of an assignment that is an expression. -/
def assigned (below : Below) (t : Tree) (i : Nat) : Builder Expr := do
  match ← optional below t i with
  | some e => pure e
  | none => malformed t .missingValue

/-- Where the constant named by `t` is looked up, from slot `i`. -/
def constPath (below : Below) (t : Tree) (i : Nat) : Builder (ConstPath Expr) :=
  match t.tree? i with
  | none => pure .lexical
  | some u => if u.hasKind .cbase then pure .top else .inside <$> below.expr u

/-! ## Argument and parameter lists -/

/-- One argument. -/
def item (below : Below) (t : Tree) : Builder (Item Expr) :=
  if t.hasKind .splat then .splat <$> slot below t 0 else .plain <$> below.expr t

/-- The items from slot `start` on, where no block argument may stand. -/
def items (below : Below) (t : Tree) (start : Nat) : Builder (List (Item Expr)) :=
  (t.treesFrom start).mapM fun u =>
    if u.hasKind .blockPass then malformed u .blockOutsideCall else item below u

/-- The arguments in `us`; a block argument must be the last of them and excludes a literal
block. -/
def argumentsOf (below : Below) (t : Tree) (block : BlockArg Expr) :
    List Tree → Builder (List (Item Expr) × BlockArg Expr)
  | [] => pure ([], block)
  | u :: us =>
    if !u.hasKind .blockPass then do
      let x ← item below u
      let (xs, block) ← argumentsOf below t block us
      pure (x :: xs, block)
    else if !us.isEmpty then malformed t .blockNotLast
    else match block with
      | .none => do
        match ← optional below u 0 with
        | some e => pure ([], .pass e)
        | none => pure ([], .forward)
      | _ => malformed t .twoBlocks

/-- The arguments of a call from slot `start` on. -/
def arguments (below : Below) (t : Tree) (start : Nat) (block : BlockArg Expr) :
    Builder (List (Item Expr) × BlockArg Expr) :=
  argumentsOf below t block (t.treesFrom start)

/-- The names and patterns nested in a pattern. -/
def patterns (below : Below) (t : Tree) : Builder (List Pattern) :=
  (t.treesFrom 0).mapM fun u =>
    match u.kind with
    | some .arg => .name <$> nameAt u 0
    | some .mlhs => .nested <$> below.patterns u
    | _ => malformed u .nestedParam

/-- The parameter of a block with one parameter: a name of its own, a nested name, or a pattern. -/
def soleParam (below : Below) (t : Tree) : Builder Pattern :=
  match t.text? 0 with
  | some n => pure (.name n)
  | none => do
    match ← patterns below t with
    | [p] => pure p
    | ps => pure (.nested ps)

/-- Adds a required parameter, after the optional and rest ones if there are any. -/
def addRequired (p : Params Expr) (pattern : Pattern) : Params Expr :=
  if p.hasRest || !p.optional.isEmpty then { p with post := p.post ++ [pattern] }
  else { p with required := p.required ++ [pattern] }

/-- Adds the parameter that `u` declares to those before it in the list `t`. -/
def addParam (below : Below) (t : Tree) (p : Params Expr) (u : Tree) : Builder (Params Expr) :=
  match u.kind with
  | some .arg => do
    let n ← nameAt u 0
    pure (addRequired p (.name n))
  | some .mlhs => do
    let ps ← patterns below u
    pure (addRequired p (.nested ps))
  | some .procarg0 => do
    let x ← soleParam below u
    pure (addRequired { p with single := true } x)
  | some .optarg => do
    let n ← nameAt u 0
    let d ← below.expr (← treeAt u 1)
    pure { p with optional := p.optional ++ [(n, d)] }
  | some .restarg =>
    match u.text? 0 with
    | some n => pure { p with rest := some n }
    | none => pure { p with anonymousRest := true }
  | some .blockarg => pure { p with block := u.text? 0 }
  | some .kwarg | some .kwoptarg => malformed u .keywordParams
  | _ => malformed t (.unexpectedParam u.tag)

/-- A parameter list. -/
def params (below : Below) (t : Tree) : Builder (Params Expr) :=
  if t.hasKind .args then (t.treesFrom 0).foldlM (addParam below t) {}
  else malformed t .notParams

end Garnet.Build
