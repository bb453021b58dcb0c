import Garnet.Tree.Basic

/-!
# What the trees in a program are built as

A position is the list of slots on the way from the root. Of the trees below a node some are built
as expressions and others as something else: the callee of a block, a parameter list, the target of
an assignment, a clause. The table here says for each slot what the tree in it is built as, and so
which positions of a program are those of expressions.
-/

namespace Garnet

namespace Tree

/-- The tree at a position. -/
def at? : Tree → List Nat → Option Tree
  | t, [] => some t
  | t, i :: p => (t.tree? i).bind (·.at? p)

/-- The tree with another one at a position. Nothing changes where there is no tree. -/
def put : Tree → List Nat → Tree → Tree
  | _, [], new => new
  | t, i :: p, new =>
    { t with
      children := t.children.modify i fun c =>
        match c.tree? with
        | some u => (u.put p new).toChild
        | none => c }

end Tree

/-- What a tree is built as. -/
inductive Role where
  | expr
  /-- A name in an `alias`: an expression that has to be a symbol. -/
  | aliased
  /-- A splat or a block argument, of which the first slot is built. -/
  | wrapped
  /-- The call that a block is given to. -/
  | callee
  | pair
  | arm
  | clause
  /-- The classes that a clause names. -/
  | classes
  | target
  /-- The target that takes the rest of the values. -/
  | restTarget
  /-- What an updating assignment reads and writes. -/
  | place
  | params
  | param
  /-- What a nested parameter consists of. -/
  | pattern
  /-- The constant that a class or module is defined as. -/
  | path
  deriving DecidableEq, Repr

namespace Role

/-- An item of a list, in which a splat may stand. -/
def item (u : Tree) : Role := if u.hasKind .splat then wrapped else expr

/-- An argument of a call. -/
def argument (u : Tree) : Role := if u.hasKind .blockPass then wrapped else item u

/-- What a constant is looked up in. -/
def scope (u : Tree) : Option Role := if u.hasKind .cbase then none else some expr

/-- A piece of an interpolated text. -/
def piece (u : Tree) : Option Role := if u.hasKind .str then none else some expr

/-- A receiver in the first slot, and items from slot `start` on. -/
def receiverAndItems (start i : Nat) (u : Tree) : Option Role :=
  if i = 0 then some expr else if start ≤ i then some (item u) else none

/-- A tree in a slot of a call. -/
def inCall (t : Tree) (i : Nat) (u : Tree) : Option Role :=
  match t.kind with
  | some .send | some .csend =>
    if i = 0 then some expr else if 2 ≤ i then some (argument u) else none
  | some .superCall => some (argument u)
  | _ => none

/-- A tree in a slot of an expression. -/
def inExpr (t : Tree) (i : Nat) (u : Tree) : Option Role :=
  match t.kind with
  | none => none
  | some tag =>
    match tag with
    | .send | .csend | .superCall => inCall t i u
    | .index | .indexAsgn => receiverAndItems 1 i u
    | .yieldTo | .array | .nextPass | .breakOut | .returnFrom => some (item u)
    | .block =>
      if i = 0 then if u.hasKind .lambda then none else some callee
      else [(1, params), (2, expr)].lookup i
    | .splat | .not => [(0, expr)].lookup i
    | .sequence | .bracketed => some expr
    | .cond => [(0, expr), (1, expr), (2, expr)].lookup i
    | .whileLoop | .untilLoop | .whileLoopPost | .untilLoopPost | .and | .or | .ensure
    | .irange | .erange | .singletonBody => [(0, expr), (1, expr)].lookup i
    | .forLoop => [(0, target), (1, expr), (2, expr)].lookup i
    | .caseOf => if i = 0 then some expr else if u.hasKind .whenClause then some arm else some expr
    | .rescue => if i = 0 then some expr else if u.hasKind .resbody then some clause else some expr
    | .lvasgn | .ivasgn | .gvasgn | .cvasgn => [(1, expr)].lookup i
    | .const => if i = 0 then scope u else none
    | .casgn => if i = 0 then scope u else [(2, expr)].lookup i
    | .opAsgn => [(0, place), (2, expr)].lookup i
    | .orAsgn | .andAsgn => [(0, place), (1, expr)].lookup i
    | .masgn => [(0, target), (1, expr)].lookup i
    | .dstr | .dsym => piece u
    | .regexp => if i + 1 = t.size ∧ u.hasKind .regopt then none else piece u
    | .hash => some pair
    | .define => [(1, params), (2, expr)].lookup i
    | .defs => [(0, expr), (2, params), (3, expr)].lookup i
    | .classBody => [(0, path), (1, expr), (2, expr)].lookup i
    | .moduleBody => [(0, path), (1, expr)].lookup i
    | .aliasName => [(0, aliased), (1, aliased)].lookup i
    | .bareSuper | .blockPass | .lambda | .whenClause | .resbody | .lvar | .ivar | .gvar | .cvar
    | .cbase | .nthRef | .mlhs | .int | .float | .str | .sym | .nil | .true | .false | .self
    | .pair | .regopt | .args | .arg | .optarg | .restarg | .blockarg | .procarg0 | .kwarg
    | .kwoptarg => none

/-- A tree in a slot of a target. -/
def inTarget (t : Tree) (i : Nat) (u : Tree) : Option Role :=
  match t.kind with
  | some .casgn => if i = 0 then scope u else none
  | some .send | some .csend => receiverAndItems 2 i u
  | some .indexAsgn => receiverAndItems 1 i u
  | some .mlhs => some (if u.hasKind .splat then restTarget else target)
  | _ => none

/-- A tree in a slot of a place. -/
def inPlace (t : Tree) (i : Nat) (u : Tree) : Option Role :=
  match t.kind with
  | some .casgn => if i = 0 then scope u else none
  | some .indexAsgn | some .index => receiverAndItems 1 i u
  | some .send | some .csend =>
    if t.hasKind .send ∧ t.text? 1 = some "[]" then receiverAndItems 2 i u
    else [(0, expr)].lookup i
  | _ => none

/-- A tree in a slot of a parameter. -/
def inParam (t : Tree) (i : Nat) : Option Role :=
  match t.kind with
  | some .mlhs | some .procarg0 => some pattern
  | some .optarg => [(1, expr)].lookup i
  | _ => none

/-- What the tree `u` in slot `i` of `t` is built as, if it is built at all. -/
def slot : Role → Tree → Nat → Tree → Option Role
  | expr, t, i, u | aliased, t, i, u => inExpr t i u
  | wrapped, _, i, _ => [(0, expr)].lookup i
  | callee, t, i, u => inCall t i u
  | pair, _, i, _ => [(0, expr), (1, expr)].lookup i
  | arm, t, i, u => some (if i + 1 = t.size then expr else item u)
  | clause, _, i, _ => [(0, classes), (1, target), (2, expr)].lookup i
  | classes, _, _, u => some (item u)
  | target, t, i, u => inTarget t i u
  | restTarget, _, i, _ => [(0, target)].lookup i
  | place, t, i, u => inPlace t i u
  | params, _, _, _ => some param
  | param, t, i, _ => inParam t i
  | pattern, t, _, _ => if t.hasKind .mlhs then some pattern else none
  | path, _, i, u => if i = 0 then scope u else none

/-- What the tree at a position is built as. -/
def along : Role → Tree → List Nat → Option Role
  | r, _, [] => some r
  | r, t, i :: p => (t.tree? i).bind fun u => (r.slot t i u).bind (·.along u p)

end Role

/-- At a position of a program stands an expression, and not a name in an `alias`. -/
def Tree.Lowers (t : Tree) (p : List Nat) : Prop := Role.expr.along t p = some .expr

instance (t : Tree) (p : List Nat) : Decidable (t.Lowers p) :=
  inferInstanceAs (Decidable (Role.expr.along t p = some .expr))

end Garnet

/-!
## Trees with a hole

A hole is the position of a tree that is exchanged for another, if there is one. The trees below a
node have the parts of the hole that are below them.
-/

namespace Garnet

/-- The position of a tree that is exchanged. -/
abbrev Hole := Option (List Nat)

namespace Hole

/-- What there is of the hole in slot `i`. -/
def below : Hole → Nat → Hole
  | some (j :: p), i => if j = i then some p else none
  | _, _ => none

theorem below_eq_some {hole : Hole} {i : Nat} {p : List Nat} :
    hole.below i = some p ↔ hole = some (i :: p) := by
  match hole with
  | none | some [] => exact ⟨nofun, nofun⟩
  | some (j :: q) =>
    by_cases hji : j = i <;> simp [below, hji]

end Hole

/-- The tree after the exchange. -/
def Tree.patched (t : Tree) (hole : Hole) (new : Tree) : Tree :=
  match hole with
  | some p => t.put p new
  | none => t

theorem Tree.patched_none (t new : Tree) : t.patched none new = t := rfl

/-- A slot after the exchange; what is no tree stays. -/
def Child.patched (c : Child) (hole : Hole) (new : Tree) : Child :=
  match c.tree? with
  | some u => (u.patched hole new).toChild
  | none => c

theorem Child.tree?_patched (c : Child) (hole : Hole) (new : Tree) :
    (c.patched hole new).tree? = c.tree?.map (·.patched hole new) := by
  cases c <;> rfl

theorem Child.patched_none (c : Child) (new : Tree) : c.patched none new = c := by
  cases c <;> rfl

namespace Tree

variable {t u new : Tree} {hole : Hole} {i : Nat}

/-- The children, each with what there is of the hole in it. -/
def kids (t : Tree) (hole : Hole) : List (Child × Hole) :=
  t.children.mapIdx fun i c => (c, hole.below i)

theorem map_fst_kids (t : Tree) (hole : Hole) : (t.kids hole).map (·.1) = t.children := by
  refine List.ext_getElem? fun i => ?_
  rw [List.getElem?_map, kids, List.getElem?_mapIdx, Option.map_map]
  exact Option.map_id_apply

theorem getElem?_kids (t : Tree) (hole : Hole) (i : Nat) :
    (t.kids hole)[i]? = (t.child? i).map fun c => (c, hole.below i) := by
  rw [kids, List.getElem?_mapIdx, child?]

theorem child?_of_kids {k : Child × Hole} (h : (t.kids hole)[i]? = some k) :
    t.child? i = some k.1 ∧ k.2 = hole.below i := by
  rw [getElem?_kids] at h
  obtain ⟨c, hc, rfl⟩ := Option.map_eq_some_iff.mp h
  exact ⟨hc, rfl⟩

theorem mem_kids {k : Child × Hole} (h : k ∈ t.kids hole) :
    ∃ i, t.child? i = some k.1 ∧ k.2 = hole.below i := by
  obtain ⟨i, hi⟩ := List.mem_iff_getElem?.mp h
  exact ⟨i, child?_of_kids hi⟩

theorem mem_kids_of_child? {c : Child} (h : t.child? i = some c) :
    (c, hole.below i) ∈ t.kids hole := by
  refine List.mem_iff_getElem?.mpr ⟨i, ?_⟩
  rw [getElem?_kids, h, Option.map_some]

theorem getElem?_kids_patched (t new : Tree) (hole : Hole) (i : Nat) :
    ((t.kids hole).map fun k => k.1.patched k.2 new)[i]? =
      t.children[i]?.map fun c => c.patched (hole.below i) new := by
  rw [List.getElem?_map, kids, List.getElem?_mapIdx, Option.map_map]
  rfl

/-- An exchange below the root goes on in the children. -/
theorem patched_eq (hhole : hole ≠ some []) :
    t.patched hole new = ⟨t.tag, (t.kids hole).map fun k => k.1.patched k.2 new⟩ := by
  match hole, hhole with
  | none, _ =>
    refine congrArg (Tree.mk t.tag) (List.ext_getElem? fun i => ?_)
    rw [getElem?_kids_patched]
    simp only [Hole.below, Child.patched_none, Option.map_id']
  | some (j :: p), _ =>
    refine congrArg (Tree.mk t.tag) (List.ext_getElem? fun i => ?_)
    rw [getElem?_kids_patched, List.getElem?_modify]
    by_cases hji : j = i
    · simp only [Hole.below, hji, if_true]
      rfl
    · simp only [Hole.below, hji, if_false, Child.patched_none]
      rfl

theorem lt_size_of_tree? (h : t.tree? i = some u) : i < t.size := by
  obtain ⟨c, hc, -⟩ := Option.bind_eq_some_iff.mp h
  exact (List.getElem?_eq_some_iff.mp hc).1

/-! ### What an exchange below the root leaves as it is -/

variable (hhole : hole ≠ some [])

include hhole

theorem tag_patched : (t.patched hole new).tag = t.tag := by rw [patched_eq hhole]

theorem kind_patched : (t.patched hole new).kind = t.kind := by
  rw [kind, tag_patched hhole, kind]

theorem hasKind_patched (k : Tag) : (t.patched hole new).hasKind k = t.hasKind k := by
  rw [hasKind, kind_patched hhole, hasKind]

theorem size_patched : (t.patched hole new).size = t.size := by
  rw [patched_eq hhole, size, List.length_map, kids, List.length_mapIdx, size]

theorem child?_patched (i : Nat) :
    (t.patched hole new).child? i = (t.child? i).map (·.patched (hole.below i) new) := by
  rw [patched_eq hhole]
  exact getElem?_kids_patched t new hole i

theorem tree?_patched (i : Nat) :
    (t.patched hole new).tree? i = (t.tree? i).map (·.patched (hole.below i) new) := by
  rw [tree?, child?_patched hhole, tree?]
  cases t.child? i with
  | none => rfl
  | some c => exact c.tree?_patched _ new

theorem text?_patched (i : Nat) : (t.patched hole new).text? i = t.text? i := by
  rw [text?, child?_patched hhole, text?]
  rcases t.child? i with _ | _ | _ | _ | _ | _ <;> rfl

omit hhole

/-! ### The trees from a slot on -/

/-- The trees among the slots from `start` on, each with what there is of the hole in it. -/
def spots (t : Tree) (hole : Hole) (start : Nat) : List (Tree × Hole) :=
  ((t.kids hole).drop start).filterMap fun k => k.1.tree?.map (·, k.2)

theorem treesFrom_eq (t : Tree) (hole : Hole) (start : Nat) :
    t.treesFrom start = (t.spots hole start).map (·.1) := by
  rw [treesFrom, spots, ← map_fst_kids t hole, ← List.map_drop, List.filterMap_map,
    List.map_filterMap]
  refine congrFun (congrArg List.filterMap (funext fun k => ?_)) _
  rw [Function.comp_apply, Option.map_map]
  exact Option.map_id_apply.symm

theorem treesFrom_patched (hhole : hole ≠ some []) (start : Nat) :
    (t.patched hole new).treesFrom start =
      (t.spots hole start).map fun z => z.1.patched z.2 new := by
  rw [treesFrom, patched_eq hhole, spots, ← List.map_drop, List.filterMap_map, List.map_filterMap]
  refine congrFun (congrArg List.filterMap (funext fun k => ?_)) _
  rw [Function.comp_apply, Child.tree?_patched, Option.map_map]
  rfl

theorem mem_spots {z : Tree × Hole} {start : Nat} :
    z ∈ t.spots hole start ↔ ∃ i, start ≤ i ∧ t.tree? i = some z.1 ∧ z.2 = hole.below i := by
  simp only [spots, List.mem_filterMap, Option.map_eq_some_iff]
  constructor
  · rintro ⟨k, hk, u, hu, rfl⟩
    obtain ⟨j, hj⟩ := List.mem_iff_getElem?.mp hk
    rw [List.getElem?_drop, kids, List.getElem?_mapIdx] at hj
    obtain ⟨c, hc, rfl⟩ := Option.map_eq_some_iff.mp hj
    exact ⟨start + j, Nat.le_add_right _ _, Option.bind_eq_some_iff.mpr ⟨c, hc, hu⟩, rfl⟩
  · rintro ⟨i, hi, hu, hz⟩
    obtain ⟨c, hc, hu⟩ := Option.bind_eq_some_iff.mp hu
    refine ⟨(c, hole.below i), List.mem_iff_getElem?.mpr ⟨i - start, ?_⟩, z.1, hu, ?_⟩
    · rw [List.getElem?_drop, Nat.add_sub_cancel' hi, kids, List.getElem?_mapIdx]
      exact congrArg (Option.map _) hc
    · rw [← hz]

/-! ### Depth -/

theorem depth_le_depthAll {c : Child} : ∀ {cs : List Child}, c ∈ cs → c.depth ≤ Child.depthAll cs
  | d :: cs, h => by
    rw [Child.depthAll]
    rcases List.mem_cons.mp h with rfl | h
    · exact Nat.le_max_left _ _
    · exact Nat.le_trans (depth_le_depthAll h) (Nat.le_max_right _ _)

theorem depth_lt_of_tree? (h : t.tree? i = some u) : u.depth < t.depth := by
  obtain ⟨c, hc, hu⟩ := Option.bind_eq_some_iff.mp h
  have hdepth : u.depth = c.depth := by
    cases c <;> cases hu
    rw [Child.depth, depth]
  rw [hdepth, depth]
  exact Nat.lt_succ_of_le (depth_le_depthAll (List.mem_of_getElem? hc))

end Tree

end Garnet
