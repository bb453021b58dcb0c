import Garnet.Program.Build.Basic

/-!
# Building assignment targets
-/

namespace Garnet.Build

/-- The name of the method that stores an attribute. -/
def setterName (n : String) : String := if n.endsWith "=" then n else n ++ "="

/-- The places of a multiple assignment, at most one of which takes the rest. -/
def slotsOf (below : Below) (t : Tree) (seen : Bool) :
    List Tree → Builder (List (Slot (Target Expr)))
  | [] => pure []
  | u :: us => do
    if u.hasKind .splat then
      if seen then malformed t .manySplats
      else
        let inner ← match u.tree? 0 with
          | some v => some <$> below.target v
          | none => pure none
        let rest ← slotsOf below t true us
        pure (.rest inner :: rest)
    else
      let x ← below.target u
      let rest ← slotsOf below t seen us
      pure (.one x :: rest)

/-- Targets between which a list of values is shared out. -/
def manyTargets (below : Below) (t : Tree) : Builder (Target Expr) :=
  .many <$> slotsOf below t false (t.treesFrom 0)

/-- The target that an assignment node without a value names. -/
def target (below : Below) (t : Tree) : Builder (Target Expr) :=
  match t.kind with
  | some .lvasgn => .localVar <$> nameAt t 0
  | some .ivasgn => .ivar <$> nameAt t 0
  | some .gvasgn => .gvar <$> nameAt t 0
  | some .cvasgn => .cvar <$> nameAt t 0
  | some .casgn => do
    let path ← constPath below t 0
    .const path <$> nameAt t 1
  | some .send | some .csend => do
    let recv ← optional below t 0
    let n ← nameAt t 1
    let args ← items below t 2
    pure (.attribute recv (setterName n) args (t.hasKind .csend))
  | some .indexAsgn => do
    let recv ← slot below t 0
    let args ← items below t 1
    pure (.index recv args)
  | some .mlhs => manyTargets below t
  | _ => malformed t .notTarget

/-- A name without the equality signs it ends in. -/
def readerName (n : String) : String :=
  String.ofList (n.toList.reverse.dropWhile (· == '=')).reverse

/-- The place that an updating assignment reads and writes. -/
def place (below : Below) (t : Tree) : Builder (Place Expr) :=
  match t.kind with
  | some .lvasgn => .localVar <$> nameAt t 0
  | some .ivasgn => .ivar <$> nameAt t 0
  | some .gvasgn => .gvar <$> nameAt t 0
  | some .cvasgn => .cvar <$> nameAt t 0
  | some .casgn => do
    let path ← constPath below t 0
    .const path <$> nameAt t 1
  | some .indexAsgn | some .index => do
    let recv ← slot below t 0
    let args ← items below t 1
    pure (.index recv args)
  | some .send | some .csend => do
    if t.hasKind .send && t.text? 1 == some "[]" then
      let recv ← slot below t 0
      let args ← items below t 2
      pure (.index recv args)
    else
      let reader := readerName (← nameAt t 1)
      let recv ← optional below t 0
      pure (.attribute recv reader (setterName reader) (t.hasKind .csend))
  | _ => malformed t .notTarget

end Garnet.Build
