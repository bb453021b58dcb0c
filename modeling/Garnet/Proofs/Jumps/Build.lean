import Garnet.Program.Build.Forms
import Garnet.Proofs.Jumps.Builder

/-!
# What is built has `next` in its place

A `next` is built only where there is a loop or a block around it. So the program of a tree needs no
loop or block around it. An assignment of a global is built from a node that assigns it.
-/

namespace Garnet

namespace Build

variable {A : String → Prop} {site : Option Nat} {below : Below} {t : Tree}

/-! ## Literals -/

theorem pieces_placed (hb : below.Placed A) {cs : List Child}
    (hcs : ∀ u : Tree, u.toChild ∈ cs → u.AssignsOnly A) :
    Gives site (fun ps => PlacedAll A site.isSome (ps.flatMap Piece.parts)) (pieces below cs) := by
  induction cs with
  | nil => exact .pure placedAll_nil
  | cons c cs ih =>
    have ih := ih fun u hu => hcs u (List.mem_cons_of_mem _ hu)
    have hrest (here : List (Piece Expr)) (h : PlacedAll A site.isSome (here.flatMap Piece.parts)) :
        Gives site (fun ps => PlacedAll A site.isSome (ps.flatMap Piece.parts))
          (pieces below cs >>= fun rest => Pure.pure (here ++ rest)) := by
      refine .bind ih fun rest hrest => .pure ?_
      rw [List.flatMap_append, placedAll_append]
      exact ⟨h, hrest⟩
    unfold pieces
    split
    · dsimp only
      split
      · exact .bind (.pure placedAll_nil) hrest
      · refine .bind (.map (hb.expr _ _ (hcs ⟨_, _⟩ List.mem_cons_self)) fun e he => ?_) hrest
        exact placedAll_cons.mpr ⟨he, placedAll_nil⟩
    · exact .bind (.pure placedAll_nil) hrest
    · exact .bind (.pure placedAll_nil) hrest

theorem regexp_placed (hb : below.Placed A) (ht : t.AssignsOnly A) :
    Gives site (·.Placed A site.isSome) (regexp below t) := by
  have hpieces {cs : List Child} (hcs : cs ⊆ t.children) (flags : String) :
      Gives site (·.Placed A site.isSome)
        (pieces below cs >>= fun ps => Pure.pure (Expr.regexp ps flags)) :=
    .bind (pieces_placed hb fun u hu => ht.of_mem (hcs hu)) fun ps h =>
      .pure (.of_parts rfl rfl (placedParts_map.mpr h))
  unfold regexp
  split
  · split
    · exact hpieces (List.dropLast_subset _) _
    · exact hpieces (List.Subset.refl _) _
  · exact hpieces (List.Subset.refl _) _

theorem array_placed (hb : below.Placed A) (ht : t.AssignsOnly A) :
    Gives site (·.Placed A site.isSome) (array below t) :=
  .map (items_placed hb ht 0) fun _ h => .of_parts rfl rfl (placedParts_map.mpr h)

theorem hash_placed (hb : below.Placed A) (ht : t.AssignsOnly A) :
    Gives site (·.Placed A site.isSome) (hash below t) := by
  refine .bind (.mapM (P := fun p : Expr × Expr => PlacedAll A site.isSome [p.1, p.2])
    fun u hu => ?_) fun pairs h => .pure (.of_parts rfl rfl ?_)
  · have hu := ht.of_mem_treesFrom hu
    split
    · exact .malformed _ _
    · refine .bind (treeAt_assignsOnly hu 0) fun k hk => .bind (hb.expr k _ hk) fun key hkey => ?_
      refine .bind (treeAt_assignsOnly hu 1) fun v hv => ?_
      refine .bind (hb.expr v _ hv) fun value hvalue => .pure ?_
      exact placedAll_cons.mpr ⟨hkey, placedAll_cons.mpr ⟨hvalue, placedAll_nil⟩⟩
  · exact placedParts_map.mpr (placedAll_flatMap h)

/-! ## Calls -/

theorem sendCall_placed (hb : below.Placed A) (ht : t.AssignsOnly A) {block : BlockArg Expr}
    (hblock : PlacedParts A site.isSome block.parts) (safe : Bool) :
    Gives site (·.Placed A site.isSome) (sendCall below t block safe) := by
  refine .bind (optional_placed hb ht 0) fun recv hrecv => .bind (.any _) fun n _ => ?_
  refine .bind (arguments_placed hb ht hblock _) fun r hr => .pure (.of_parts rfl rfl ?_)
  rw [Expr.parts, placedParts_append, placedParts_map, placedAll_append]
  exact ⟨⟨hrecv, hr.1⟩, hr.2⟩

theorem index_placed (hb : below.Placed A) (ht : t.AssignsOnly A) :
    Gives site (·.Placed A site.isSome) (index below t) := by
  refine .bind (slot_placed hb ht 0) fun recv hrecv => ?_
  refine .bind (items_placed hb ht 1) fun args hargs => ?_
  exact .pure (.of_parts rfl rfl (placedParts_map.mpr (placedAll_cons.mpr ⟨hrecv, hargs⟩)))

theorem setIndex_placed (hb : below.Placed A) (ht : t.AssignsOnly A) :
    Gives site (·.Placed A site.isSome) (setIndex below t) := by
  unfold setIndex
  split
  · exact .malformed _ _
  · refine .bind (slot_placed hb ht 0) fun recv hrecv => ?_
    refine .bind (items_placed hb ht 1) fun args hargs => ?_
    exact .pure (.of_parts rfl rfl (placedParts_map.mpr (placedAll_cons.mpr ⟨hrecv, hargs⟩)))

theorem call_placed (hb : below.Placed A) (ht : t.AssignsOnly A) {block : BlockArg Expr}
    (hblock : PlacedParts A site.isSome block.parts) :
    Gives site (·.Placed A site.isSome) (call below t block) := by
  unfold call
  split
  · exact sendCall_placed hb ht hblock false
  · exact sendCall_placed hb ht hblock true
  · refine .bind (arguments_placed hb ht hblock _) fun r hr => .pure (.of_parts rfl rfl ?_)
    rw [Expr.parts, placedParts_append, placedParts_map]
    exact hr
  · refine .pure (.of_parts rfl rfl ?_)
    rw [Expr.parts, placedParts_append, placedParts_map]
    exact ⟨placedAll_nil, hblock⟩
  · exact index_placed hb ht
  · exact .malformed _ _

theorem block_placed (hb : below.Placed A) (ht : t.AssignsOnly A) :
    Gives site (·.Placed A site.isSome) (block below t) := by
  refine .bind (treeAt_assignsOnly ht 0) fun callee hcallee => ?_
  refine .bind (treeAt_assignsOnly ht 1) fun args hargs => .bind (.any _) fun n _ => ?_
  refine .bind (params_placed hb hargs) fun ps hps => ?_
  refine .bind (.within (slot_placed hb ht 2)) fun body hbody => ?_
  have hliteral : PlacedParts A site.isSome (BlockLiteral.parts ⟨ps, body, n⟩) :=
    placedParts_cons.mpr ⟨hbody, placedParts_map.mpr hps⟩
  split
  · exact .pure (.of_parts rfl rfl hliteral)
  · exact call_placed hb hcallee hliteral

/-! ## Control flow -/

theorem sequence_placed (hb : below.Placed A) (ht : t.AssignsOnly A) :
    Gives site (·.Placed A site.isSome) (sequence below t) := by
  refine .bind (.mapM fun u hu => hb.expr u _ (ht.of_mem_treesFrom hu)) fun es h => ?_
  split
  · exact .pure placed_nil
  · exact .pure (h _ List.mem_cons_self)
  · exact .pure (.of_parts rfl rfl (placedParts_map.mpr h))

theorem cond_placed (hb : below.Placed A) (ht : t.AssignsOnly A) :
    Gives site (·.Placed A site.isSome) (cond below t) := by
  refine .bind (slot_placed hb ht 0) fun test htest => ?_
  refine .bind (slot_placed hb ht 1) fun yes hy => ?_
  refine .bind (slot_placed hb ht 2) fun no hn => .pure (.of_parts rfl rfl ?_)
  simp [htest, hy, hn]

theorem loop_placed (hb : below.Placed A) (ht : t.AssignsOnly A) (negate post : Bool) :
    Gives site (·.Placed A site.isSome) (loop below t negate post) := by
  refine .bind (slot_placed hb ht 0) fun test htest => .bind (.any _) fun n _ => ?_
  refine .bind (.within (slot_placed hb ht 1)) fun body hbody => .pure (.of_parts rfl rfl ?_)
  rw [Expr.parts, placedParts_cons, placedParts_cons]
  exact ⟨htest, hbody, placedParts_nil⟩

theorem forEach_placed (hb : below.Placed A) (ht : t.AssignsOnly A) :
    Gives site (·.Placed A site.isSome) (forEach below t) := by
  refine .bind (treeAt_assignsOnly ht 0) fun u hu => .bind (target_placed hb hu) fun x hx => ?_
  refine .bind (slot_placed hb ht 1) fun source hs => .bind (.any _) fun n _ => ?_
  refine .bind (.within (slot_placed hb ht 2)) fun body hbody => ?_
  refine .pure (.of_globals rfl hx.globals ?_)
  rw [Expr.parts, placedParts_cons, placedParts_map, placedAll_append, placedAll_cons]
  exact ⟨hbody, hx.parts, hs, placedAll_nil⟩

theorem arm_placed (hb : below.Placed A) (ht : t.AssignsOnly A) :
    Gives site (fun a => PlacedAll A site.isSome (a.1.flatMap Item.parts ++ [a.2]))
      (arm below t) := by
  unfold arm
  split
  · exact .malformed _ _
  · refine .bind (.mapM (P := fun x => PlacedAll A site.isSome x.parts) fun j _ => ?_)
      fun tests htests => .bind (slot_placed hb ht _) fun body hbody => .pure ?_
    · exact .bind (treeAt_assignsOnly ht j) fun u hu => item_placed hb hu
    · rw [placedAll_append, placedAll_cons]
      exact ⟨placedAll_flatMap htests, hbody, placedAll_nil⟩

theorem arms_placed (hb : below.Placed A) (ht : t.AssignsOnly A) (is : List Nat) :
    Gives site (fun r => PlacedAll A site.isSome
      (r.1.flatMap fun a => a.1.flatMap Item.parts ++ [a.2]) ∧ r.2.Placed A site.isSome)
      (arms below t is) := by
  induction is with
  | nil => exact .pure ⟨placedAll_nil, placed_nil⟩
  | cons i is ih =>
    unfold arms
    split
    · have hu := ht.of_tree? (Option.filter_eq_some_iff.mp ‹_›).1
      refine .bind (arm_placed hb hu) fun a ha => .bind ih fun r hr => .pure ⟨?_, hr.2⟩
      rw [List.flatMap_cons, placedAll_append]
      exact ⟨ha, hr.1⟩
    · split
      · exact .bind (slot_placed hb ht i) fun e he => .pure ⟨placedAll_nil, he⟩
      · exact .malformed _ _

theorem select_placed (hb : below.Placed A) (ht : t.AssignsOnly A) :
    Gives site (·.Placed A site.isSome) (select below t) := by
  refine .bind (optional_placed hb ht 0) fun subject hs => ?_
  refine .bind (arms_placed hb ht _) fun r hr => .pure (.of_parts rfl rfl ?_)
  rw [Expr.parts, placedParts_map, placedAll_append, placedAll_append, placedAll_cons]
  exact ⟨⟨hs, hr.1⟩, hr.2, placedAll_nil⟩

theorem carried_placed (hb : below.Placed A) (ht : t.AssignsOnly A) :
    Gives site (·.Placed A site.isSome) (carried below t) := by
  unfold carried
  split
  · split
    · exact hb.expr _ _ (ht.of_tree? ‹_›)
    · exact array_placed hb ht
  · split
    · exact .pure placed_nil
    · exact array_placed hb ht

/-- A `next` is built only inside of a loop or a block. -/
theorem next_placed (hb : below.Placed A) (ht : t.AssignsOnly A) :
    Gives site (·.Placed A site.isSome) (next below t) := by
  refine .bind .read fun s hs => ?_
  subst hs
  cases s with
  | none => exact .malformed _ _
  | some n =>
    refine .map (carried_placed hb ht) fun e he => .mk (fun _ => rfl) ?_ ?_
    · exact fun _ h => absurd h List.not_mem_nil
    · exact placedParts_cons.mpr ⟨he, placedParts_nil⟩

theorem breakOut_placed (hb : below.Placed A) (ht : t.AssignsOnly A) :
    Gives site (·.Placed A site.isSome) (breakOut below t) := by
  refine .bind .read fun s hs => ?_
  cases s with
  | none => exact .malformed _ _
  | some n =>
    refine .map (carried_placed hb ht) fun e he => .of_parts rfl rfl ?_
    exact placedParts_cons.mpr ⟨he, placedParts_nil⟩

theorem clauseClasses_placed (hb : below.Placed A) (ht : t.AssignsOnly A) :
    Gives site (fun xs => PlacedAll A site.isSome ((xs.getD []).flatMap Item.parts))
      (clauseClasses below t) := by
  unfold clauseClasses
  split
  · exact .map (items_placed hb (ht.of_tree? ‹_›) 0) fun _ h => h
  · exact .pure placedAll_nil

theorem clauseTarget_placed (hb : below.Placed A) (ht : t.AssignsOnly A) :
    Gives site (fun x => ∀ y ∈ x, Target.Placed A site.isSome y) (clauseTarget below t) := by
  unfold clauseTarget
  split
  · refine .map (target_placed hb (ht.of_tree? ‹_›)) fun _ h => ?_
    rintro _ ⟨⟩
    exact h
  · exact .pure fun _ h => by cases h

theorem clause_placed (hb : below.Placed A) (ht : t.AssignsOnly A) :
    Gives site (fun c => PlacedAll A site.isSome c.parts ∧ ∀ n ∈ c.globals, A n)
      (clause below t) := by
  refine .bind (clauseClasses_placed hb ht) fun classes hc => ?_
  refine .bind (clauseTarget_placed hb ht) fun x hx => ?_
  refine .bind (slot_placed hb ht 2) fun body hbody => .pure ?_
  rw [Clause.parts, Clause.globals, placedAll_append, placedAll_append, placedAll_cons]
  cases x with
  | none =>
    exact ⟨⟨⟨hc, placedAll_nil⟩, hbody, placedAll_nil⟩, fun _ h => absurd h List.not_mem_nil⟩
  | some y => exact ⟨⟨⟨hc, (hx y rfl).parts⟩, hbody, placedAll_nil⟩, (hx y rfl).globals⟩

theorem clauses_placed (hb : below.Placed A) (ht : t.AssignsOnly A) (is : List Nat) :
    Gives site (fun r => (PlacedAll A site.isSome (r.1.flatMap Clause.parts) ∧
      ∀ n ∈ r.1.flatMap Clause.globals, A n) ∧ PlacedAll A site.isSome r.2.toList)
      (clauses below t is) := by
  have hnone : ∀ n ∈ ([] : List String), A n := fun _ h => absurd h List.not_mem_nil
  induction is with
  | nil => exact .pure ⟨⟨placedAll_nil, hnone⟩, placedAll_nil⟩
  | cons i is ih =>
    unfold clauses
    split
    · have hu := ht.of_tree? (Option.filter_eq_some_iff.mp ‹_›).1
      refine .bind (clause_placed hb hu) fun c hc => .bind ih fun r hr => .pure ⟨?_, hr.2⟩
      rw [List.flatMap_cons, List.flatMap_cons, placedAll_append, List.forall_mem_append]
      exact ⟨⟨hc.1, hr.1.1⟩, hc.2, hr.1.2⟩
    · split
      · exact .bind (optional_placed hb ht i) fun e he => .pure ⟨⟨placedAll_nil, hnone⟩, he⟩
      · exact .malformed _ _

theorem rescue_placed (hb : below.Placed A) (ht : t.AssignsOnly A) :
    Gives site (·.Placed A site.isSome) (rescue below t) := by
  refine .bind (slot_placed hb ht 0) fun body hbody => .bind (clauses_placed hb ht _) fun r hr => ?_
  refine .pure (.of_globals rfl hr.1.2 ?_)
  rw [Expr.parts, placedParts_map, placedAll_append, placedAll_append, placedAll_cons]
  exact ⟨⟨⟨hbody, placedAll_nil⟩, hr.1.1⟩, hr.2⟩

/-! ## Assignments -/

theorem setMany_placed (hb : below.Placed A) (ht : t.AssignsOnly A) :
    Gives site (·.Placed A site.isSome) (setMany below t) := by
  refine .bind (treeAt_assignsOnly ht 0) fun u hu => ?_
  split
  · exact .malformed _ _
  · refine .bind (manyTargets_placed hb hu) fun x hx => .bind (slot_placed hb ht 1) fun e he => ?_
    refine .pure (.of_globals rfl hx.globals ?_)
    rw [Expr.parts, placedParts_map, placedAll_append, placedAll_cons]
    exact ⟨hx.parts, he, placedAll_nil⟩

theorem update_placed (hb : below.Placed A) (ht : t.AssignsOnly A) :
    Gives site (·.Placed A site.isSome) (update below t) := by
  refine .bind (treeAt_assignsOnly ht 0) fun u hu => .bind (place_placed hb hu) fun p hp => ?_
  refine .bind (.any _) fun op _ => .bind (slot_placed hb ht 2) fun e he => ?_
  refine .pure (.of_globals rfl hp.2 ?_)
  rw [Expr.parts, placedParts_map, placedAll_append, placedAll_cons]
  exact ⟨hp.1, he, placedAll_nil⟩

theorem updateIf_placed (hb : below.Placed A) (ht : t.AssignsOnly A) (whenTrue : Bool) :
    Gives site (·.Placed A site.isSome) (updateIf below t whenTrue) := by
  refine .bind (treeAt_assignsOnly ht 0) fun u hu => .bind (place_placed hb hu) fun p hp => ?_
  refine .bind (slot_placed hb ht 1) fun e he => .pure (.of_globals rfl hp.2 ?_)
  rw [Expr.parts, placedParts_map, placedAll_append, placedAll_cons]
  exact ⟨hp.1, he, placedAll_nil⟩

/-! ## Definitions -/

theorem methodParts_placed (hb : below.Placed A) (ht : t.AssignsOnly A) (i : Nat) :
    Gives site (fun r => PlacedAll A false r.1.parts ∧ r.2.Placed A false)
      (methodParts below t i) := by
  refine .detached (.bind (treeAt_assignsOnly ht i) fun u hu => ?_)
  refine .bind (params_placed hb hu) fun ps hps => ?_
  exact .bind (slot_placed hb ht _) fun body hbody => .pure ⟨hps, hbody⟩

theorem define_placed (hb : below.Placed A) (ht : t.AssignsOnly A) :
    Gives site (·.Placed A site.isSome) (define below t) := by
  refine .bind (.any _) fun n _ => .bind (methodParts_placed hb ht 1) fun r hr => ?_
  refine .pure (.of_parts rfl rfl ?_)
  rw [Expr.parts, placedParts_cons, placedParts_map]
  exact ⟨hr.2, hr.1⟩

theorem defineOn_placed (hb : below.Placed A) (ht : t.AssignsOnly A) :
    Gives site (·.Placed A site.isSome) (defineOn below t) := by
  refine .bind (slot_placed hb ht 0) fun x hx => .bind (.any _) fun n _ => ?_
  refine .bind (methodParts_placed hb ht 2) fun r hr => .pure (.of_parts rfl rfl ?_)
  rw [Expr.parts, placedParts_cons, placedParts_cons, placedParts_map]
  exact ⟨hx, hr.2, hr.1⟩

theorem openClass_placed (hb : below.Placed A) (ht : t.AssignsOnly A) :
    Gives site (·.Placed A site.isSome) (openClass below t) := by
  refine .bind (treeAt_assignsOnly ht 0) fun u hu => ?_
  refine .bind (constPath_placed hb hu 0) fun path hpath => ?_
  refine .bind (.any _) fun n _ => .bind (optional_placed hb ht 1) fun base hbase => ?_
  refine .bind (.detached (optional_placed hb ht 2)) fun body hbody => .pure (.of_parts rfl rfl ?_)
  rw [Expr.parts, placedParts_append, placedParts_map, placedParts_map, placedAll_append]
  exact ⟨⟨hpath, hbase⟩, hbody⟩

theorem openModule_placed (hb : below.Placed A) (ht : t.AssignsOnly A) :
    Gives site (·.Placed A site.isSome) (openModule below t) := by
  refine .bind (treeAt_assignsOnly ht 0) fun u hu => ?_
  refine .bind (constPath_placed hb hu 0) fun path hpath => ?_
  refine .bind (.any _) fun n _ => ?_
  refine .bind (.detached (optional_placed hb ht 1)) fun body hbody => .pure (.of_parts rfl rfl ?_)
  rw [Expr.parts, placedParts_append, placedParts_map, placedParts_map]
  exact ⟨hpath, hbody⟩

theorem openSingleton_placed (hb : below.Placed A) (ht : t.AssignsOnly A) :
    Gives site (·.Placed A site.isSome) (openSingleton below t) := by
  refine .bind (slot_placed hb ht 0) fun x hx => ?_
  refine .bind (.detached (optional_placed hb ht 1)) fun body hbody => .pure (.of_parts rfl rfl ?_)
  rw [Expr.parts, placedParts_cons, placedParts_map]
  exact ⟨hx, hbody⟩

theorem aliasMethod_placed (hb : below.Placed A) (ht : t.AssignsOnly A) :
    Gives site (·.Placed A site.isSome) (aliasMethod below t) := by
  refine .bind (.any _) fun _ _ => .bind (slot_placed hb ht 0) fun new hn => ?_
  refine .bind (slot_placed hb ht 1) fun old ho => .pure (.of_parts rfl rfl ?_)
  rw [Expr.parts, placedParts_cons, placedParts_cons]
  exact ⟨hn, ho, placedParts_nil⟩

/-! ## The table of forms -/

theorem int_placed {b : Bool} : Gives site (·.Placed A b) (int t) := by
  unfold int
  split
  · exact .pure (.of_parts rfl rfl placedParts_nil)
  · split
    · exact .pure (.of_parts rfl rfl placedParts_nil)
    · exact .malformed _ _
  · exact .malformed _ _

theorem float_placed {b : Bool} : Gives site (·.Placed A b) (float t) := by
  unfold float
  split
  · exact .pure (.of_parts rfl rfl placedParts_nil)
  · exact .pure (.of_parts rfl rfl placedParts_nil)
  · exact .malformed _ _

theorem group_placed {b : Bool} : Gives site (·.Placed A b) (group t) := by
  unfold group
  split
  · split
    · exact .malformed _ _
    · exact .pure (.of_parts rfl rfl placedParts_nil)
  · exact .malformed _ _

theorem expr_placed (hb : below.Placed A) (ht : t.AssignsOnly A) :
    Gives site (·.Placed A site.isSome) (expr below t) := by
  unfold expr
  split
  · exact .unsupported _
  · rename_i tag _
    cases tag
    case send | csend | superCall | bareSuper => exact call_placed hb ht placedParts_nil
    case index => exact index_placed hb ht
    case indexAsgn => exact setIndex_placed hb ht
    case yieldTo =>
      exact .map (items_placed hb ht 0) fun _ h => .of_parts rfl rfl (placedParts_map.mpr h)
    case block => exact block_placed hb ht
    case splat | not =>
      refine .map (slot_placed hb ht 0) fun _ he => .of_parts rfl rfl ?_
      exact placedParts_cons.mpr ⟨he, placedParts_nil⟩
    case sequence | bracketed => exact sequence_placed hb ht
    case cond => exact cond_placed hb ht
    case whileLoop | untilLoop | whileLoopPost | untilLoopPost => exact loop_placed hb ht _ _
    case forLoop => exact forEach_placed hb ht
    case and | or | irange | erange | ensure =>
      refine .bind (slot_placed hb ht 0) fun _ h => .bind (slot_placed hb ht 1) fun _ h' => ?_
      refine .pure (.of_parts rfl rfl ?_)
      exact placedParts_cons.mpr ⟨h, placedParts_cons.mpr ⟨h', placedParts_nil⟩⟩
    case caseOf => exact select_placed hb ht
    case nextPass => exact next_placed hb ht
    case breakOut => exact breakOut_placed hb ht
    case returnFrom =>
      refine .map (carried_placed hb ht) fun _ he => .of_parts rfl rfl ?_
      exact placedParts_cons.mpr ⟨he, placedParts_nil⟩
    case rescue => exact rescue_placed hb ht
    case lvar | ivar | gvar | cvar | sym =>
      exact .map (.any _) fun _ _ => .of_parts rfl rfl placedParts_nil
    case gvasgn =>
      refine .bind (nameAt_text? 0) fun n hn => .map (assigned_placed hb ht 1) fun _ he => ?_
      refine .of_globals rfl ?_ (placedParts_cons.mpr ⟨he, placedParts_nil⟩)
      exact List.forall_mem_singleton.mpr (ht.name ‹_› hn)
    case lvasgn | ivasgn | cvasgn =>
      refine .bind (.any _) fun _ _ => .map (assigned_placed hb ht 1) fun _ he => ?_
      refine .of_parts rfl rfl ?_
      exact placedParts_cons.mpr ⟨he, placedParts_nil⟩
    case const =>
      refine .bind (constPath_placed hb ht 0) fun _ hpath => .map (.any _) fun _ _ => ?_
      exact .of_parts rfl rfl (placedParts_map.mpr hpath)
    case casgn =>
      refine .bind (constPath_placed hb ht 0) fun _ hpath => .bind (.any _) fun _ _ => ?_
      refine .map (assigned_placed hb ht 2) fun _ he => .of_parts rfl rfl ?_
      rw [Expr.parts, placedParts_map, placedAll_append, placedAll_cons]
      exact ⟨hpath, he, placedAll_nil⟩
    case cbase | str | nil | true | false | self =>
      exact .pure (.of_parts rfl rfl placedParts_nil)
    case nthRef => exact group_placed
    case opAsgn => exact update_placed hb ht
    case orAsgn | andAsgn => exact updateIf_placed hb ht _
    case masgn => exact setMany_placed hb ht
    case int => exact int_placed
    case float => exact float_placed
    case dstr | dsym =>
      exact .map (pieces_placed hb fun _ hu => ht.of_mem hu) fun _ h =>
        .of_parts rfl rfl (placedParts_map.mpr h)
    case regexp => exact regexp_placed hb ht
    case array => exact array_placed hb ht
    case hash => exact hash_placed hb ht
    case define => exact define_placed hb ht
    case defs => exact defineOn_placed hb ht
    case classBody => exact openClass_placed hb ht
    case moduleBody => exact openModule_placed hb ht
    case singletonBody => exact openSingleton_placed hb ht
    case aliasName => exact aliasMethod_placed hb ht
    all_goals exact .malformed _ _

theorem below_placed (n : Nat) : (Build.below n).Placed A := by
  -- on the depth of the trees that are built
  induction n with
  | zero => exact ⟨fun t site _ => .malformed _ _, fun t site _ => .malformed _ _⟩
  | succ n ih => exact ⟨fun t site => expr_placed ih, fun t site => target_placed ih⟩

end Build

/-- A program needs no loop or block around it, and assigns the globals that its tree assigns. -/
theorem Expr.placed_of_ofTree {A : String → Prop} {t : Tree} {e : Expr} (ht : t.AssignsOnly A)
    (h : ofTree t = .ok e) : e.Placed A Bool.false := by
  unfold ofTree at h
  split at h
  · rename_i n hrun
    cases h
    exact (Build.below_placed t.depth).expr t none ht 1 e n hrun
  · cases h

end Garnet
