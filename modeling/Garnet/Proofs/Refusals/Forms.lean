import Garnet.Proofs.Refusals.Literals

/-!
# Expressions after an exchange

Every form builds the trees that the table gives as its parts and no others, so that an exchanged
tree among them ends the building.
-/

namespace Garnet.Build

variable {V : Role → Tree → Hole → Prop} {S : Fault → Prop} {new : Tree} {m : Nat}
variable {b b' : Below}
variable {r r' : Role} {t u : Tree} {hole : Hole}
variable (hp : Pass V S new m b b')

include hp

/-! ## Calls -/

theorem sendCall_follows (h : Inside V new (m + 1) r t hole)
    (hi : ∀ i u, r.slot t i u =
      if i = 0 then some .expr else if 2 ≤ i then some (.argument u) else none)
    (block : BlockArg Expr) (safe : Bool) :
    Follows S new hole.isSome (sendCall b t block safe)
      (sendCall b' (t.patched hole new) block safe) := by
  have hcovered := h.covered_spots [0] 2 fun i u r' _ hr => by
    rw [hi] at hr
    split at hr
    case isTrue hzero => exact .inl (List.mem_singleton.mpr hzero)
    case isFalse =>
      split at hr
      case isTrue hle => exact .inr hle
      case isFalse => cases hr
  have hargument (i : Nat) (u : Tree) (hle : 2 ≤ i) : r.slot t i u = some (.argument u) := by
    rw [hi, if_neg (by omega), if_pos hle]
  refine .congr (.bind (optional_follows hp h 0 (hi 0)) fun recv =>
    .bind (nameAt_follows hp h 1) fun n =>
    .bind (arguments_follows hp h 2 block hargument) fun a => .pure _) ?_
  simpa using hcovered

theorem setIndex_follows (h : Inside V new (m + 1) r t hole)
    (hi : ∀ i u, r.slot t i u = Role.receiverAndItems 1 i u) :
    Follows S new hole.isSome (setIndex b t) (setIndex b' (t.patched hole new)) := by
  unfold setIndex
  rw [Tree.size_patched h.ne]
  split
  · exact .malformed (hp.malformed h.built rfl) _
  · exact receiverAndItems_follows hp h Nat.one_pos hi _

/-- A call with a literal block, or one that is no index. -/
theorem call_follows (h : Inside V new (m + 1) r t hole)
    (hi : ∀ i u, r.slot t i u = Role.inCall t i u) (block : BlockArg Expr)
    (hblock : block = .none → t.kind ≠ some .index) :
    Follows S new hole.isSome (call b t block) (call b' (t.patched hole new) block) := by
  unfold call
  rw [Tree.kind_patched h.ne]
  split
  case h_1 hk | h_2 hk =>
    exact sendCall_follows hp h (fun i u => by rw [hi, Role.inCall, hk]) _ _
  case h_3 hk =>
    have hargument (i : Nat) (u : Tree) : r.slot t i u = some (.argument u) := by
      rw [hi, Role.inCall, hk]
    have hcovered := h.covered_spots [] 0 fun i _ _ _ _ => .inr i.zero_le
    exact .congr (.bind (arguments_follows hp h 0 _ fun i u _ => hargument i u)
      fun _ => .pure _) ((Bool.or_false _).trans hcovered)
  case h_4 hk =>
    have hnone : hole = none := h.hole_eq_none_of_leaf fun i u => by rw [hi, Role.inCall, hk]
    rw [hnone]
    exact .pure _
  case h_5 hk => exact absurd hk (hblock rfl)
  case h_6 => exact .malformed (hp.malformed h.built rfl) _

theorem block_follows (h : Inside V new (m + 1) r t hole)
    (hi : ∀ i u, r.slot t i u =
      if i = 0 then if u.hasKind .lambda then none else some .callee
      else [(1, .params), (2, .expr)].lookup i) :
    Follows S new hole.isSome (block b t) (block b' (t.patched hole new)) := by
  have hcovered := h.covered_slots [1, 2, 0] fun i u r' _ hr => by
    rw [hi] at hr
    match i, hr with
    | 0, _ | 1, _ | 2, _ => decide
    | i + 3, hr => cases hr
  refine .congr (treeAt_follows hp h 0 fun callee hcallee => treeAt_follows hp h 1 fun args hargs =>
    .bind .newSite fun site => .bind (params_follows hp (h.child hp hargs (hi 1 args))) fun ps =>
    .bind (.within site (slot_follows hp h 2 (hi 2))) fun body =>
    (?_ : Follows S new (hole.below 0).isSome _ _)) (by simpa using hcovered)
  -- A lambda is no part of the block, and any other callee is built as a call, not as an
  -- expression.
  have hslot := hi 0 callee
  rw [if_pos rfl] at hslot
  by_cases hlambda : callee.hasKind .lambda = true
  · have hnone : hole.below 0 = none := h.below_eq_none fun u hu => by
      cases hcallee.symm.trans hu
      rw [hslot, if_pos hlambda]
    rw [if_pos hlambda, hnone, Tree.patched_none, if_pos hlambda]
    exact .pure _
  · rw [if_neg hlambda] at hslot
    have hin := (h.child hp hcallee hslot).inside nofun
    rw [if_neg hlambda, Tree.hasKind_patched hin.ne, if_neg hlambda]
    exact call_follows hp hin (fun _ _ => rfl) _ nofun

/-! ## Control flow -/

theorem sequence_follows (h : Inside V new (m + 1) r t hole)
    (hi : ∀ i u, r.slot t i u = some .expr) :
    Follows S new hole.isSome (sequence b t) (sequence b' (t.patched hole new)) := by
  have hcovered := h.covered_spots [] 0 fun i _ _ _ _ => .inr i.zero_le
  refine .congr (.bind (treesFrom_follows h 0 fun i u _ hu =>
    hp.expr (.inl rfl) (h.child hp hu (hi i u))) fun es => (?_ : Follows S new false _ _))
    ((Bool.or_false _).trans hcovered)
  split <;> exact .pure _

theorem cond_follows (h : Inside V new (m + 1) r t hole)
    (hi : ∀ i u, r.slot t i u = [(0, .expr), (1, .expr), (2, .expr)].lookup i) :
    Follows S new hole.isSome (cond b t) (cond b' (t.patched hole new)) :=
  .congr (.bind (slot_follows hp h 0 (hi 0)) fun _ => .bind (slot_follows hp h 1 (hi 1)) fun _ =>
    .bind (slot_follows hp h 2 (hi 2)) fun _ => .pure _) (h.covered_row _ hi)

theorem loop_follows (h : Inside V new (m + 1) r t hole)
    (hi : ∀ i u, r.slot t i u = [(0, .expr), (1, .expr)].lookup i) (negate post : Bool) :
    Follows S new hole.isSome (loop b t negate post)
      (loop b' (t.patched hole new) negate post) :=
  .congr (.bind (slot_follows hp h 0 (hi 0)) fun _ => .bind .newSite fun site =>
    .bind (.within site (slot_follows hp h 1 (hi 1))) fun _ => .pure _) (h.covered_row _ hi)

theorem forEach_follows (h : Inside V new (m + 1) r t hole)
    (hi : ∀ i u, r.slot t i u = [(0, .target), (1, .expr), (2, .expr)].lookup i) :
    Follows S new hole.isSome (forEach b t) (forEach b' (t.patched hole new)) :=
  .congr (treeAt_follows hp h 0 fun u hu =>
    .bind (target_follows hp ((h.child hp hu (hi 0 u)).inside nofun)) fun _ =>
    .bind (slot_follows hp h 1 (hi 1)) fun _ => .bind .newSite fun site =>
    .bind (.within site (slot_follows hp h 2 (hi 2))) fun _ => .pure _) (h.covered_row _ hi)

theorem logic_follows (h : Inside V new (m + 1) r t hole)
    (hi : ∀ i u, r.slot t i u = [(0, .expr), (1, .expr)].lookup i) (whenTrue : Bool) :
    Follows S new hole.isSome (logic b t whenTrue) (logic b' (t.patched hole new) whenTrue) :=
  .congr (.bind (slot_follows hp h 0 (hi 0)) fun _ =>
    .bind (slot_follows hp h 1 (hi 1)) fun _ => .pure _) (h.covered_row _ hi)

/-! ### Cases -/

theorem arm_follows (h : Part V new m .arm t hole) :
    Follows S new hole.isSome (arm b t) (arm b' (t.patched hole new)) := by
  have hin := h.inside nofun
  have hslot (i : Nat) (u : Tree) :
      Role.arm.slot t i u = some (if i + 1 = t.size then .expr else .item u) := rfl
  unfold arm
  rw [Tree.size_patched hin.ne]
  split
  · exact .malformed (hp.malformed h.built rfl) _
  · rename_i hsize
    have hpos : t.size - 1 + 1 = t.size := Nat.succ_pred (by simpa using hsize)
    have hcovered := hin.covered_slots (List.range (t.size - 1) ++ [t.size - 1])
      fun i u r' hu _ => by
        have hlt := Tree.lt_size_of_tree? hu
        rw [List.mem_append, List.mem_range, List.mem_singleton]
        omega
    have htest (u : Tree) (j : Nat) (hj : j < t.size - 1) :
        Role.arm.slot t j u = some (.item u) := by
      rw [hslot, if_neg (by omega)]
    have hbody (u : Tree) : Role.arm.slot t (t.size - 1) u = some .expr := by
      rw [hslot, if_pos hpos]
    refine .congr (.bind (.mapM_same fun j hj => treeAt_follows hp hin j fun u hu =>
      item_follows hp (hin.child hp hu (htest u j (List.mem_range.mp hj)))) fun _ =>
      .bind (slot_follows hp hin _ hbody) fun _ => .pure _) ?_
    simpa using hcovered

omit hp in
/-- A slot that holds a tree of kind `k` holds one after the exchange, and no other slot does. -/
theorem tree?_filter_patched (h : Inside V new (m + 1) r t hole) (hp : Pass V S new m b b')
    {i : Nat} {k : Tag} (hi : ∀ u, r.slot t i u = some (if u.hasKind k then r' else .expr))
    (hr : r' ≠ .expr) :
    ((t.patched hole new).tree? i).filter (·.hasKind k) =
      ((t.tree? i).filter (·.hasKind k)).map (·.patched (hole.below i) new) := by
  rw [Tree.tree?_patched h.ne]
  cases hu : t.tree? i with
  | none => rfl
  | some u =>
    have hkind := (h.child hp hu (hi u)).hasKind_patched hp.unknown (k := k) fun hk => by
      rw [if_pos hk]
      exact hr
    rw [Option.map_some, Option.filter_some, Option.filter_some, hkind]
    split <;> rfl

omit hp in
/-- What is built of a slot that holds no tree of kind `k`. -/
theorem slot_eq_expr {i : Nat} {k : Tag} (hnone : (t.tree? i).filter (·.hasKind k) = none)
    (hi : ∀ u, r.slot t i u = some (if u.hasKind k then r' else .expr)) (u : Tree)
    (hu : t.tree? i = some u) : r.slot t i u = some .expr := by
  rw [hi, if_neg]
  rw [hu, Option.filter_some] at hnone
  split at hnone
  case isTrue => cases hnone
  case isFalse hk => exact hk

omit hp in
/-- The slots from the second on, the first of them being an expression. -/
theorem slot_behind {k : Tag} {n : Nat}
    (hi : ∀ i u, r.slot t i u =
      if i = 0 then some .expr else if u.hasKind k then some r' else some .expr) :
    ∀ i ∈ List.range' 1 n, ∀ u, r.slot t i u = some (if u.hasKind k then r' else .expr) := by
  intro i hmem u
  rw [List.mem_range'_1] at hmem
  rw [hi, if_neg (by omega), apply_ite some]

omit hp in
theorem covered_behind (h : Inside V new m r t hole) :
    ((hole.below 0).isSome || (List.range' 1 (t.size - 1)).any fun i => (hole.below i).isSome) =
      hole.isSome := by
  refine h.covered_slots (0 :: List.range' 1 (t.size - 1)) fun i u r' hu _ => ?_
  have hlt := Tree.lt_size_of_tree? hu
  rw [List.mem_cons, List.mem_range'_1]
  omega

/-- The arms in the slots `is`, the last of which may hold what applies otherwise. -/
theorem arms_follows (h : Inside V new (m + 1) r t hole) {is : List Nat}
    (hi : ∀ i ∈ is, ∀ u, r.slot t i u = some (if u.hasKind .whenClause then .arm else .expr)) :
    Follows S new (is.any fun i => (hole.below i).isSome) (arms b t is)
      (arms b' (t.patched hole new) is) := by
  induction is with
  | nil => exact .pure _
  | cons i is ih =>
    obtain ⟨hslot, his⟩ := List.forall_mem_cons.mp hi
    rw [List.any_cons, arms, arms, tree?_filter_patched h hp hslot nofun]
    cases hu : (t.tree? i).filter (·.hasKind .whenClause) with
    | some u =>
      obtain ⟨htree, hkind⟩ := Option.filter_eq_some_iff.mp hu
      have harm := hslot u
      rw [if_pos hkind] at harm
      refine .congr (.bind (arm_follows hp (h.child hp htree harm)) fun _ =>
        .bind (ih his) fun _ => .pure _) ?_
      rw [Bool.or_false]
    | none =>
      rw [Option.map_none]
      cases is with
      | nil =>
        exact .bind (slot_follows_of hp h i (.inl rfl) (slot_eq_expr hu hslot)) fun _ => .pure _
      | cons => exact .malformed (hp.malformed h.built rfl) _

theorem select_follows (h : Inside V new (m + 1) r t hole)
    (hi : ∀ i u, r.slot t i u =
      if i = 0 then some .expr else if u.hasKind .whenClause then some .arm else some .expr) :
    Follows S new hole.isSome (select b t) (select b' (t.patched hole new)) := by
  unfold select
  rw [Tree.size_patched h.ne]
  refine .congr (.bind (optional_follows hp h 0 (hi 0)) fun _ =>
    .bind (arms_follows hp h (slot_behind hi)) fun _ => .pure _) ?_
  rw [Bool.or_false]
  exact covered_behind h

/-! ### Jumps -/

theorem carried_follows (h : Inside V new (m + 1) r t hole)
    (hi : ∀ i u, r.slot t i u = some (.item u)) :
    Follows S new hole.isSome (carried b t) (carried b' (t.patched hole new)) := by
  have hsole (hsize : t.size ≤ 1) : (hole.below 0).isSome = hole.isSome := by
    have hcovered := h.covered_slots [0] fun i u r' hu _ => by
      have hlt := Tree.lt_size_of_tree? hu
      rw [List.mem_singleton]
      omega
    simpa using hcovered
  have harray := array_follows hp h hi
  unfold carried
  rw [Tree.tree?_patched h.ne, Tree.size_patched h.ne]
  cases hu : t.tree? 0 with
  | none =>
    rw [Option.map_none]
    dsimp only
    split
    case isTrue hsize =>
      refine .congr (.pure _) ?_
      rw [← hsole hsize, h.below_of_tree?_eq_none hu]
      rfl
    case isFalse => exact harray
  | some u =>
    have hpart := h.child hp hu (hi 0 u)
    rw [Option.map_some]
    dsimp only
    rw [hpart.hasKind_patched hp.unknown fun hsplat => by
      rw [Role.item, if_pos hsplat]
      nofun]
    split
    case isTrue hsole' =>
      rw [Bool.and_eq_true, beq_iff_eq, Bool.not_eq_true'] at hsole'
      rw [Role.item, if_neg (Bool.eq_false_iff.mp hsole'.2)] at hpart
      exact .congr (hp.expr (.inl rfl) hpart) (hsole (Nat.le_of_eq hsole'.1))
    case isFalse => exact harray

theorem next_follows (h : Inside V new (m + 1) r t hole)
    (hi : ∀ i u, r.slot t i u = some (.item u)) :
    Follows S new hole.isSome (next b t) (next b' (t.patched hole new)) := by
  refine .bind .read fun site => ?_
  cases site with
  | some site => exact .map _ (carried_follows hp h hi)
  | none => exact .malformed (hp.malformed h.built rfl) _

theorem breakOut_follows (h : Inside V new (m + 1) r t hole)
    (hi : ∀ i u, r.slot t i u = some (.item u)) :
    Follows S new hole.isSome (breakOut b t) (breakOut b' (t.patched hole new)) := by
  refine .bind .read fun site => ?_
  cases site with
  | some site => exact .map _ (carried_follows hp h hi)
  | none => exact .malformed (hp.malformed h.built rfl) _

/-! ### Handlers -/

theorem clauseClasses_follows (h : Inside V new (m + 1) r t hole)
    (hi : ∀ u, r.slot t 0 u = some .classes) :
    Follows S new (hole.below 0).isSome (clauseClasses b t)
      (clauseClasses b' (t.patched hole new)) := by
  unfold clauseClasses
  rw [Tree.tree?_patched h.ne]
  cases hu : t.tree? 0 with
  | none =>
    rw [h.below_of_tree?_eq_none hu]
    exact .pure _
  | some u =>
    have hin := (h.child hp hu (hi u)).inside nofun
    have hcovered := hin.covered_spots [] 0 fun i _ _ _ _ => .inr i.zero_le
    exact .map some (.congr (items_follows hp hin 0 fun _ _ _ => rfl) hcovered)

theorem clauseTarget_follows (h : Inside V new (m + 1) r t hole)
    (hi : ∀ u, r.slot t 1 u = some .target) :
    Follows S new (hole.below 1).isSome (clauseTarget b t)
      (clauseTarget b' (t.patched hole new)) := by
  unfold clauseTarget
  rw [Tree.tree?_patched h.ne]
  cases hu : t.tree? 1 with
  | none =>
    rw [h.below_of_tree?_eq_none hu]
    exact .pure _
  | some u => exact .map some (target_follows hp ((h.child hp hu (hi u)).inside nofun))

theorem clause_follows (h : Part V new m .clause t hole) :
    Follows S new hole.isSome (clause b t) (clause b' (t.patched hole new)) := by
  have hin := h.inside nofun
  have hcovered := hin.covered_row [(0, .classes), (1, .target), (2, .expr)] fun _ _ => rfl
  exact .congr (.bind (clauseClasses_follows hp hin fun _ => rfl) fun _ =>
    .bind (clauseTarget_follows hp hin fun _ => rfl) fun _ =>
    .bind (slot_follows hp hin 2 fun _ => rfl) fun _ => .pure _) hcovered

/-- The clauses in the slots `is`, the last of which may hold what runs otherwise. -/
theorem clauses_follows (h : Inside V new (m + 1) r t hole) {is : List Nat}
    (hi : ∀ i ∈ is, ∀ u, r.slot t i u = some (if u.hasKind .resbody then .clause else .expr)) :
    Follows S new (is.any fun i => (hole.below i).isSome) (clauses b t is)
      (clauses b' (t.patched hole new) is) := by
  induction is with
  | nil => exact .pure _
  | cons i is ih =>
    obtain ⟨hslot, his⟩ := List.forall_mem_cons.mp hi
    rw [List.any_cons, clauses, clauses, tree?_filter_patched h hp hslot nofun]
    cases hu : (t.tree? i).filter (·.hasKind .resbody) with
    | some u =>
      obtain ⟨htree, hkind⟩ := Option.filter_eq_some_iff.mp hu
      have hclause := hslot u
      rw [if_pos hkind] at hclause
      refine .congr (.bind (clause_follows hp (h.child hp htree hclause)) fun _ =>
        .bind (ih his) fun _ => .pure _) ?_
      rw [Bool.or_false]
    | none =>
      rw [Option.map_none]
      cases is with
      | nil =>
        exact .bind (optional_follows_of hp h i (.inl rfl) (slot_eq_expr hu hslot)) fun _ =>
          .pure _
      | cons => exact .malformed (hp.malformed h.built rfl) _

theorem rescue_follows (h : Inside V new (m + 1) r t hole)
    (hi : ∀ i u, r.slot t i u =
      if i = 0 then some .expr else if u.hasKind .resbody then some .clause else some .expr) :
    Follows S new hole.isSome (rescue b t) (rescue b' (t.patched hole new)) := by
  unfold rescue
  rw [Tree.size_patched h.ne]
  refine .congr (.bind (slot_follows hp h 0 (hi 0)) fun _ =>
    .bind (clauses_follows hp h (slot_behind hi)) fun _ => .pure _) ?_
  rw [Bool.or_false]
  exact covered_behind h

/-! ## Assignments -/

theorem setMany_follows (h : Inside V new (m + 1) r t hole)
    (hi : ∀ i u, r.slot t i u = [(0, .target), (1, .expr)].lookup i) :
    Follows S new hole.isSome (setMany b t) (setMany b' (t.patched hole new)) := by
  have hcovered := h.covered_row _ hi
  refine .congr (treeAt_follows hp h 0 fun u hu => ?_ :
    Follows S new ((hole.below 0).isSome || (hole.below 1).isSome) _ _) (by simpa using hcovered)
  have hin := (h.child hp hu (hi 0 u)).inside nofun
  rw [Tree.hasKind_patched hin.ne]
  split
  · exact .malformed (hp.malformed h.built rfl) _
  · rename_i hmlhs
    have hkind : u.kind = some .mlhs := by simpa [Tree.hasKind] using hmlhs
    refine .congr (.bind (manyTargets_follows hp hin fun i v => ?_) fun _ =>
      .bind (slot_follows hp h 1 (hi 1)) fun _ => .pure _) (by rw [Bool.or_false])
    rw [Role.slot, Role.inTarget, hkind]

theorem update_follows (h : Inside V new (m + 1) r t hole)
    (hi : ∀ i u, r.slot t i u = [(0, .place), (2, .expr)].lookup i) :
    Follows S new hole.isSome (update b t) (update b' (t.patched hole new)) :=
  .congr (treeAt_follows hp h 0 fun u hu =>
    .bind (place_follows hp (h.child hp hu (hi 0 u))) fun _ =>
    .bind (nameAt_follows hp h 1) fun _ =>
    .bind (slot_follows hp h 2 (hi 2)) fun _ => .pure _) (h.covered_row _ hi)

theorem updateIf_follows (h : Inside V new (m + 1) r t hole)
    (hi : ∀ i u, r.slot t i u = [(0, .place), (1, .expr)].lookup i) (whenTrue : Bool) :
    Follows S new hole.isSome (updateIf b t whenTrue)
      (updateIf b' (t.patched hole new) whenTrue) :=
  .congr (treeAt_follows hp h 0 fun u hu =>
    .bind (place_follows hp (h.child hp hu (hi 0 u))) fun _ =>
    .bind (slot_follows hp h 1 (hi 1)) fun _ => .pure _) (h.covered_row _ hi)

/-- An assignment to a variable. -/
theorem setName_follows (h : Inside V new (m + 1) r t hole)
    (hi : ∀ i u, r.slot t i u = [(1, .expr)].lookup i) (f : String → Expr → Expr) :
    Follows S new hole.isSome
      (do
        let n ← nameAt t 0
        f n <$> assigned b t 1)
      (do
        let n ← nameAt (t.patched hole new) 0
        f n <$> assigned b' (t.patched hole new) 1) :=
  .congr (.bind (nameAt_follows hp h 0) fun n => .map (f n) (assigned_follows hp h 1 (hi 1)))
    (by simpa using h.covered_row _ hi)

theorem setConst_follows (h : Inside V new (m + 1) r t hole)
    (hi : ∀ i u, r.slot t i u = if i = 0 then Role.scope u else [(2, .expr)].lookup i) :
    Follows S new hole.isSome
      (do
        let path ← constPath b t 0
        let n ← nameAt t 1
        Expr.setConst path n <$> assigned b t 2)
      (do
        let path ← constPath b' (t.patched hole new) 0
        let n ← nameAt (t.patched hole new) 1
        Expr.setConst path n <$> assigned b' (t.patched hole new) 2) := by
  have hcovered := h.covered_slots [0, 2] fun i u r' _ hr => by
    rw [hi] at hr
    match i, hr with
    | 0, _ | 2, _ => decide
    | 1, hr | i + 3, hr => cases hr
  exact .congr (.bind (constPath_follows hp h 0 (hi 0)) fun _ =>
    .bind (nameAt_follows hp h 1) fun _ => .map _ (assigned_follows hp h 2 (hi 2)))
    (by simpa using hcovered)

/-! ## Definitions -/

/-- Parameters and body, the parameters in slot `i`. -/
theorem methodParts_follows (h : Inside V new (m + 1) r t hole) (i : Nat)
    (hparams : ∀ u, r.slot t i u = some .params)
    (hbody : ∀ u, r.slot t (i + 1) u = some .expr) :
    Follows S new ((hole.below i).isSome || (hole.below (i + 1)).isSome) (methodParts b t i)
      (methodParts b' (t.patched hole new) i) :=
  .detached (.congr (treeAt_follows hp h i fun u hu =>
    .bind (params_follows hp (h.child hp hu (hparams u))) fun _ =>
    .bind (slot_follows hp h (i + 1) hbody) fun _ => .pure _) (by rw [Bool.or_false]))

theorem define_follows (h : Inside V new (m + 1) r t hole)
    (hi : ∀ i u, r.slot t i u = [(1, .params), (2, .expr)].lookup i) :
    Follows S new hole.isSome (define b t) (define b' (t.patched hole new)) :=
  .congr (.bind (nameAt_follows hp h 0) fun _ =>
    .bind (methodParts_follows hp h 1 (hi 1) (hi 2)) fun _ => .pure _)
    (by simpa using h.covered_row _ hi)

theorem defineOn_follows (h : Inside V new (m + 1) r t hole)
    (hi : ∀ i u, r.slot t i u = [(0, .expr), (2, .params), (3, .expr)].lookup i) :
    Follows S new hole.isSome (defineOn b t) (defineOn b' (t.patched hole new)) :=
  .congr (.bind (slot_follows hp h 0 (hi 0)) fun _ => .bind (nameAt_follows hp h 1) fun _ =>
    .bind (methodParts_follows hp h 2 (hi 2) (hi 3)) fun _ => .pure _)
    (by simpa using h.covered_row _ hi)

/-- The constant that a class or module is defined as. -/
theorem path_follows (h : Inside V new (m + 1) r t hole) {u : Tree} (hu : t.tree? 0 = some u)
    (hi : r.slot t 0 u = some .path) {α : Type} {hit : Bool}
    {f g : ConstPath Expr → String → Builder α}
    (hf : ∀ path n, Follows S new hit (f path n) (g path n)) :
    Follows S new ((hole.below 0).isSome || hit)
      (do
        let path ← constPath b u 0
        let n ← nameAt u 1
        f path n)
      (do
        let path ← constPath b' (u.patched (hole.below 0) new) 0
        let n ← nameAt (u.patched (hole.below 0) new) 1
        g path n) := by
  have hin := (h.child hp hu hi).inside nofun
  have hcovered := hin.covered_slots [0] fun i v r' _ hr => by
    rw [Role.slot] at hr
    split at hr
    case isTrue hzero => exact List.mem_singleton.mpr hzero
    case isFalse => cases hr
  refine .congr (.bind (constPath_follows hp hin 0 fun _ => rfl) fun path =>
    .bind (nameAt_follows hp hin 1) fun n => hf path n) ?_
  rw [← hcovered]
  simp

theorem openClass_follows (h : Inside V new (m + 1) r t hole)
    (hi : ∀ i u, r.slot t i u = [(0, .path), (1, .expr), (2, .expr)].lookup i) :
    Follows S new hole.isSome (openClass b t) (openClass b' (t.patched hole new)) :=
  .congr (treeAt_follows hp h 0 fun u hu => path_follows hp h hu (hi 0 u) fun _ _ =>
    .bind (optional_follows hp h 1 (hi 1)) fun _ =>
    .bind (.detached (optional_follows hp h 2 (hi 2))) fun _ => .pure _) (h.covered_row _ hi)

theorem openModule_follows (h : Inside V new (m + 1) r t hole)
    (hi : ∀ i u, r.slot t i u = [(0, .path), (1, .expr)].lookup i) :
    Follows S new hole.isSome (openModule b t) (openModule b' (t.patched hole new)) :=
  .congr (treeAt_follows hp h 0 fun u hu => path_follows hp h hu (hi 0 u) fun _ _ =>
    .bind (.detached (optional_follows hp h 1 (hi 1))) fun _ => .pure _) (h.covered_row _ hi)

theorem openSingleton_follows (h : Inside V new (m + 1) r t hole)
    (hi : ∀ i u, r.slot t i u = [(0, .expr), (1, .expr)].lookup i) :
    Follows S new hole.isSome (openSingleton b t) (openSingleton b' (t.patched hole new)) :=
  .congr (.bind (slot_follows hp h 0 (hi 0)) fun _ =>
    .bind (.detached (optional_follows hp h 1 (hi 1))) fun _ => .pure _) (h.covered_row _ hi)

theorem aliasMethod_follows (h : Inside V new (m + 1) r t hole)
    (hi : ∀ i u, r.slot t i u = [(0, .aliased), (1, .aliased)].lookup i) :
    Follows S new hole.isSome (aliasMethod b t) (aliasMethod b' (t.patched hole new)) := by
  have hsite : ∀ i ∈ [0, 1], ∀ u, r.slot t i u = some .aliased :=
    List.forall_mem_cons.mpr ⟨hi 0, List.forall_mem_singleton.mpr (hi 1)⟩
  refine .congr (.bind (.forIn (fun i hmem st => treeAt_follows hp h i fun u hu => ?_) _) fun _ =>
    .bind (slot_follows_of hp h 0 (.inr rfl) fun u _ => hi 0 u) fun _ =>
    .bind (slot_follows_of hp h 1 (.inr rfl) fun u _ => hi 1 u) fun _ => .pure _)
    (h.covered_row _ hi)
  have hin := (h.child hp hu (hsite i hmem u)).inside nofun
  rw [Tree.hasKind_patched hin.ne, Tree.hasKind_patched hin.ne]
  split
  · exact .malformed_bind (hp.malformed h.built rfl) _ _
  · exact .pure _

/-! ## The table of forms -/

/-- An expression is built from the parts that the table gives. -/
theorem expr_follows (hr : r = .expr ∨ r = .aliased) (h : Inside V new (m + 1) r t hole) :
    Follows S new hole.isSome (expr b t) (expr b' (t.patched hole new)) := by
  have hi (i : Nat) (u : Tree) : r.slot t i u = Role.inExpr t i u := by
    rcases hr with rfl | rfl <;> rfl
  unfold expr
  rw [Tree.kind_patched h.ne]
  cases hk : t.kind with
  | none => exact .unsupported (hp.unsupported h.built hk) _
  | some tag =>
    -- For each kind, `hi` is by computation the row that the form of that kind asks for.
    simp only [Role.inExpr, hk] at hi
    cases tag with
    | send | csend | superCall =>
      exact call_follows hp h hi .none fun _ => by rw [hk]; nofun
    | bareSuper =>
      refine call_follows hp h (fun i u => ?_) .none fun _ => by rw [hk]; nofun
      rw [hi, Role.inCall, hk]
    | index => exact receiverAndItems_follows hp h Nat.one_pos hi _
    | indexAsgn => exact setIndex_follows hp h hi
    | yieldTo =>
      have hcovered := h.covered_spots [] 0 fun i _ _ _ _ => .inr i.zero_le
      exact .map _ (.congr (items_follows hp h 0 fun i u _ => hi i u) hcovered)
    | block => exact block_follows hp h hi
    | splat | not =>
      have hcovered := h.covered_row _ hi
      exact .map _ (.congr (slot_follows hp h 0 (hi 0)) (by simpa using hcovered))
    | sequence | bracketed => exact sequence_follows hp h hi
    | cond => exact cond_follows hp h hi
    | whileLoop | untilLoop | whileLoopPost | untilLoopPost => exact loop_follows hp h hi _ _
    | forLoop => exact forEach_follows hp h hi
    | and | or => exact logic_follows hp h hi _
    | caseOf => exact select_follows hp h hi
    | nextPass => exact next_follows hp h hi
    | breakOut => exact breakOut_follows hp h hi
    | returnFrom => exact .map _ (carried_follows hp h hi)
    | rescue => exact rescue_follows hp h hi
    | ensure =>
      exact .congr (.bind (slot_follows hp h 0 (hi 0)) fun _ =>
        .bind (slot_follows hp h 1 (hi 1)) fun _ => .pure _) (h.covered_row _ hi)
    | lvasgn | ivasgn | gvasgn | cvasgn => exact setName_follows hp h hi _
    | const => exact const_follows hp h hi _
    | casgn => exact setConst_follows hp h hi
    | opAsgn => exact update_follows hp h hi
    | orAsgn | andAsgn => exact updateIf_follows hp h hi _
    | masgn => exact setMany_follows hp h hi
    | dstr | dsym => exact .map _ (interpolated_follows hp h hi)
    | regexp => exact regexp_follows hp h hi
    | array => exact array_follows hp h hi
    | hash => exact hash_follows hp h hi
    | irange | erange => exact range_follows hp h hi _
    | define => exact define_follows hp h hi
    | defs => exact defineOn_follows hp h hi
    | classBody => exact openClass_follows hp h hi
    | moduleBody => exact openModule_follows hp h hi
    | singletonBody => exact openSingleton_follows hp h hi
    | aliasName => exact aliasMethod_follows hp h hi
    | lvar | ivar | gvar | cvar | sym => exact name_follows hp h hi _
    | cbase | nil | true | false | self | str =>
      rw [h.hole_eq_none_of_leaf hi]
      exact .pure _
    | int =>
      rw [h.hole_eq_none_of_leaf hi]
      exact int_follows hp h.built
    | float =>
      rw [h.hole_eq_none_of_leaf hi]
      exact float_follows hp h.built
    | nthRef =>
      rw [h.hole_eq_none_of_leaf hi]
      exact group_follows hp h.built
    | blockPass | lambda | whenClause | resbody | mlhs | pair | regopt | args | arg | optarg
    | restarg | blockarg | procarg0 | kwarg | kwoptarg =>
      exact .malformed (hp.malformed h.built rfl) _

end Garnet.Build
