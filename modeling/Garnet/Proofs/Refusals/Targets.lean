import Garnet.Proofs.Refusals.Parts

/-!
# Parameters and targets after an exchange
-/

namespace Garnet.Build

variable {V : Role → Tree → Hole → Prop} {S : Fault → Prop} {new : Tree} {m : Nat}
variable {b b' : Below}
variable {r r' : Role} {t u : Tree} {hole hole' : Hole}

/-! ## Parameters -/

theorem along_pattern (t : Tree) (p : List Nat) : Role.pattern.along t p ≠ some .expr := by
  induction p generalizing t with
  | nil => nofun
  | cons i p ih =>
    intro h
    obtain ⟨u, -, h⟩ := Option.bind_eq_some_iff.mp h
    obtain ⟨r', hr, h⟩ := Option.bind_eq_some_iff.mp h
    rw [Role.slot] at hr
    split at hr
    · cases hr
      exact ih u h
    · cases hr

/-- There is no hole where there are only patterns. -/
theorem Inside.hole_eq_none (h : Inside V new m r t hole)
    (hi : ∀ i u r', r.slot t i u = some r' → r' = .pattern) : hole = none := by
  match hole, h with
  | none, _ => rfl
  | some [], h => exact absurd rfl h.ne
  | some (i :: p), h =>
    obtain ⟨u, -, hfits⟩ := Option.bind_eq_some_iff.mp (h.fits _ rfl)
    obtain ⟨r', hr, hfits⟩ := Option.bind_eq_some_iff.mp hfits
    rw [hi i u r' hr] at hfits
    exact absurd hfits (along_pattern u p)

theorem Inside.hole_eq_none_of_leaf (h : Inside V new m r t hole)
    (hi : ∀ i u, r.slot t i u = none) : hole = none :=
  h.hole_eq_none fun i u _ hr => nomatch (hi i u).symm.trans hr

variable (hp : Pass V S new m b b')

include hp

theorem patterns_follows (h : Inside V new (m + 1) r t none)
    (hi : ∀ i u, r.slot t i u = some .pattern) :
    Follows S new false (patterns b t) (patterns b' t) := by
  have hcovered := h.covered_spots [] 0 fun i _ _ _ _ => .inr i.zero_le
  refine .congr (treesFrom_follows h 0 fun i u _ hu => ?_) hcovered
  have hpart : Part V new m .pattern u none := h.child hp hu (hi i u)
  dsimp only [Hole.below, Tree.patched]
  split
  · exact .map _ (nameAt_follows hp (hpart.inside nofun) 0)
  · rename_i hk
    exact .map _ (hp.pattern hpart (beq_iff_eq.mpr hk))
  · exact .malformed (hp.malformed hpart.built rfl) _

theorem soleParam_follows (h : Inside V new (m + 1) r t none)
    (hi : ∀ i u, r.slot t i u = some .pattern) :
    Follows S new false (soleParam b t) (soleParam b' t) := by
  unfold soleParam
  split
  · exact .pure _
  · refine .bind (patterns_follows hp h hi) fun ps => (?_ : Follows S new false _ _)
    split <;> exact .pure _

/-- A parameter in the list `t`, which is `t'` after the exchange. -/
theorem addParam_follows (ht : V r t hole') (h : Part V new m .param u hole) (t' : Tree)
    (p : Params Expr) :
    Follows S new hole.isSome (addParam b t p u) (addParam b' t' p (u.patched hole new)) := by
  have hin := h.inside nofun
  have hslot (i : Nat) (v : Tree) : Role.param.slot u i v = Role.inParam u i := rfl
  unfold addParam
  rw [Tree.kind_patched hin.ne]
  by_cases hoptional : u.kind = some .optarg
  · have hrow (i : Nat) (v : Tree) : Role.param.slot u i v = [(1, .expr)].lookup i := by
      rw [hslot, Role.inParam, hoptional]
    have hcovered := hin.covered_row _ hrow
    rw [hoptional]
    refine .congr (.bind (nameAt_follows hp hin 0) fun n => treeAt_follows hp hin 1 fun v hv =>
      .bind (hp.expr (.inl rfl) (hin.child hp hv (hrow 1 v))) fun d => .pure _) ?_
    simpa using hcovered
  · have hnone : hole = none := by
      refine hin.hole_eq_none fun i v r' hr => ?_
      rw [hslot, Role.inParam] at hr
      split at hr
      · exact (Option.some.inj hr).symm
      · exact (Option.some.inj hr).symm
      · contradiction
      · cases hr
    subst hnone
    have hpattern (hk : u.kind = some .mlhs ∨ u.kind = some .procarg0) (i : Nat) (v : Tree) :
        Role.param.slot u i v = some .pattern := by
      rw [hslot, Role.inParam]
      rcases hk with hk | hk <;> rw [hk]
    split
    · exact .bind (nameAt_follows hp hin 0) fun n => .pure _
    · rename_i hk
      exact .bind (patterns_follows hp hin (hpattern (.inl hk))) fun ps => .pure _
    · rename_i hk
      exact .bind (soleParam_follows hp hin (hpattern (.inr hk))) fun x => .pure _
    · contradiction
    · dsimp only [Tree.patched]
      split <;> exact .pure _
    · exact .pure _
    · exact .malformed (hp.malformed h.built rfl) _
    · exact .malformed (hp.malformed h.built rfl) _
    · exact .malformed (hp.malformed ht rfl) _

theorem params_follows (h : Part V new m .params t hole) :
    Follows S new hole.isSome (params b t) (params b' (t.patched hole new)) := by
  have hin := h.inside nofun
  have hcovered := hin.covered_spots [] 0 fun i _ _ _ _ => .inr i.zero_le
  unfold params
  rw [Tree.hasKind_patched hin.ne]
  split
  · rw [t.treesFrom_eq hole, Tree.treesFrom_patched hin.ne]
    refine .congr (.foldlM (fun st z hz => ?_) _) hcovered
    obtain ⟨i, -, hu, hz⟩ := Tree.mem_spots.mp hz
    rw [hz]
    exact addParam_follows hp h.built (hin.child hp hu rfl) _ st
  · exact .malformed (hp.malformed h.built rfl) _

/-! ## Targets -/

/-- The targets in the list `t`, which is `t'` after the exchange. -/
theorem slotsOf_follows (ht : V r t hole) (t' : Tree) {zs : List (Tree × Hole)}
    (hzs : ∀ z ∈ zs,
      Part V new m (if z.1.hasKind .splat then .restTarget else .target) z.1 z.2) (seen : Bool) :
    Follows S new (zs.any (·.2.isSome)) (slotsOf b t seen (zs.map (·.1)))
      (slotsOf b' t' seen (zs.map fun z => z.1.patched z.2 new)) := by
  induction zs generalizing seen with
  | nil => exact .pure _
  | cons z zs ih =>
    obtain ⟨hz, hzs⟩ := List.forall_mem_cons.mp hzs
    rw [List.map_cons, List.map_cons, List.any_cons, slotsOf, slotsOf]
    by_cases hsplat : z.1.hasKind .splat = true
    · rw [if_pos hsplat] at hz
      have hin := hz.inside nofun
      rw [if_pos hsplat, Tree.hasKind_patched hin.ne, if_pos hsplat]
      split
      · exact .malformed (hp.malformed ht rfl) _
      · have hcovered := hin.covered_row [(0, .target)] fun _ _ => rfl
        have hrest (inner : Option (Target Expr)) : Follows S new (zs.any (·.2.isSome))
            (do pure (.rest inner :: (← slotsOf b t true (zs.map (·.1)))))
            (do pure (.rest inner ::
              (← slotsOf b' t' true (zs.map fun z => z.1.patched z.2 new)))) :=
          .congr (.bind (ih hzs true) fun rest => .pure _) (Bool.or_false _)
        have hinner : (z.2.below 0).isSome = z.2.isSome := by simpa using hcovered
        rw [Tree.tree?_patched hin.ne, ← hinner]
        cases hv : z.1.tree? 0 with
        | none =>
          rw [hin.below_of_tree?_eq_none hv]
          exact .bind (.pure none) hrest
        | some v => exact .bind (.map some (hp.target (hin.child hp hv rfl))) hrest
    · rw [if_neg hsplat] at hz
      rw [if_neg hsplat, hz.hasKind_patched hp.unknown fun h => absurd h hsplat, if_neg hsplat]
      refine .congr (.bind (hp.target hz) fun x => .bind (ih hzs seen) fun rest => .pure _) ?_
      rw [Bool.or_false]

theorem manyTargets_follows (h : Inside V new (m + 1) r t hole)
    (hi : ∀ i u, r.slot t i u = some (if u.hasKind .splat then .restTarget else .target)) :
    Follows S new hole.isSome (manyTargets b t) (manyTargets b' (t.patched hole new)) := by
  have hcovered := h.covered_spots [] 0 fun i _ _ _ _ => .inr i.zero_le
  unfold manyTargets
  rw [t.treesFrom_eq hole, Tree.treesFrom_patched h.ne]
  refine .map _ (.congr (slotsOf_follows hp h.built _ (fun z hz => ?_) false) hcovered)
  obtain ⟨i, -, hu, hz⟩ := Tree.mem_spots.mp hz
  rw [hz]
  exact h.child hp hu (hi i z.1)

omit hp in
theorem receiverAndItems_covers {start i : Nat}
    (h : Role.receiverAndItems start i u = some r) : i ∈ [0] ∨ start ≤ i := by
  unfold Role.receiverAndItems at h
  split at h
  case isTrue hi => exact .inl (List.mem_singleton.mpr hi)
  case isFalse =>
    split at h
    case isTrue hi => exact .inr hi
    case isFalse => cases h

omit hp in
theorem receiverAndItems_item {start i : Nat} (hstart : 0 < start) (hi : start ≤ i) (u : Tree) :
    Role.receiverAndItems start i u = some (.item u) := by
  rw [Role.receiverAndItems, if_neg (by omega), if_pos hi]

/-- A receiver and items behind it. -/
theorem receiverAndItems_follows {α : Type} (h : Inside V new (m + 1) r t hole) {start : Nat}
    (hstart : 0 < start) (hi : ∀ i u, r.slot t i u = Role.receiverAndItems start i u)
    (f : Expr → List (Item Expr) → α) :
    Follows S new hole.isSome
      (do
        let recv ← slot b t 0
        let args ← items b t start
        pure (f recv args))
      (do
        let recv ← slot b' (t.patched hole new) 0
        let args ← items b' (t.patched hole new) start
        pure (f recv args)) := by
  have hcovered := h.covered_spots [0] start fun i u r' _ hr =>
    receiverAndItems_covers ((hi i u).symm.trans hr)
  have hitems (i : Nat) (u : Tree) (hle : start ≤ i) : r.slot t i u = some (.item u) :=
    (hi i u).trans (receiverAndItems_item hstart hle u)
  refine .congr (.bind (slot_follows hp h 0 (hi 0)) fun recv =>
    .bind (items_follows hp h start hitems) fun args => .pure _) ?_
  simpa using hcovered

/-- What stands in a variable, which has no trees in it. -/
theorem name_follows {α : Type} (h : Inside V new (m + 1) r t hole)
    (hi : ∀ i u, r.slot t i u = none) (f : String → α) :
    Follows S new hole.isSome (f <$> nameAt t 0) (f <$> nameAt (t.patched hole new) 0) := by
  have hnone : hole = none := h.hole_eq_none_of_leaf hi
  rw [hnone] at h ⊢
  exact .map f (nameAt_follows hp h 0)

/-- A constant. -/
theorem const_follows {α : Type} (h : Inside V new (m + 1) r t hole)
    (hi : ∀ i u, r.slot t i u = if i = 0 then Role.scope u else none)
    (f : ConstPath Expr → String → α) :
    Follows S new hole.isSome
      (do
        let path ← constPath b t 0
        f path <$> nameAt t 1)
      (do
        let path ← constPath b' (t.patched hole new) 0
        f path <$> nameAt (t.patched hole new) 1) := by
  have hcovered := h.covered_slots [0] fun i u r' _ hr => by
    rw [hi] at hr
    split at hr
    case isTrue hzero => exact List.mem_singleton.mpr hzero
    case isFalse => cases hr
  refine .congr (.bind (constPath_follows hp h 0 fun u => hi 0 u) fun path =>
    .map _ (nameAt_follows hp h 1)) ?_
  simpa using hcovered

theorem target_follows (h : Inside V new (m + 1) .target t hole) :
    Follows S new hole.isSome (target b t) (target b' (t.patched hole new)) := by
  have hslot (i : Nat) (v : Tree) : Role.target.slot t i v = Role.inTarget t i v := rfl
  unfold target
  rw [Tree.kind_patched h.ne]
  split
  case h_1 hk | h_2 hk | h_3 hk | h_4 hk =>
    exact name_follows hp h (fun i v => by rw [hslot, Role.inTarget, hk]) _
  case h_5 hk => exact const_follows hp h (fun i v => by rw [hslot, Role.inTarget, hk]) _
  case h_6 hk | h_7 hk =>
    have hi (i : Nat) (v : Tree) : Role.target.slot t i v = Role.receiverAndItems 2 i v := by
      rw [hslot, Role.inTarget, hk]
    have hcovered := h.covered_spots [0] 2 fun i v r' _ hr =>
      receiverAndItems_covers ((hi i v).symm.trans hr)
    have hitems (i : Nat) (v : Tree) (hle : 2 ≤ i) : Role.target.slot t i v = some (.item v) :=
      (hi i v).trans (receiverAndItems_item Nat.two_pos hle v)
    rw [Tree.hasKind_patched h.ne]
    refine .congr (.bind (optional_follows hp h 0 (hi 0)) fun recv =>
      .bind (nameAt_follows hp h 1) fun n =>
      .bind (items_follows hp h 2 hitems) fun args => .pure _) ?_
    simpa using hcovered
  case h_8 hk =>
    exact receiverAndItems_follows hp h Nat.one_pos
      (fun i v => by rw [hslot, Role.inTarget, hk]) _
  case h_9 hk => exact manyTargets_follows hp h fun i v => by rw [hslot, Role.inTarget, hk]
  case h_10 => exact .malformed (hp.malformed h.built rfl) _

theorem place_follows (h : Part V new m .place t hole) :
    Follows S new hole.isSome (place b t) (place b' (t.patched hole new)) := by
  have hin := h.inside nofun
  have hslot (i : Nat) (v : Tree) : Role.place.slot t i v = Role.inPlace t i v := rfl
  unfold place
  rw [Tree.kind_patched hin.ne]
  split
  case h_1 hk | h_2 hk | h_3 hk | h_4 hk =>
    exact name_follows hp hin (fun i v => by rw [hslot, Role.inPlace, hk]) _
  case h_5 hk => exact const_follows hp hin (fun i v => by rw [hslot, Role.inPlace, hk]) _
  case h_6 hk | h_7 hk =>
    exact receiverAndItems_follows hp hin Nat.one_pos
      (fun i v => by rw [hslot, Role.inPlace, hk]) _
  case h_8 hk | h_9 hk =>
    rw [Tree.hasKind_patched hin.ne, Tree.hasKind_patched hin.ne, Tree.text?_patched hin.ne]
    by_cases hindex : t.hasKind .send ∧ t.text? 1 = some "[]"
    · have hi (i : Nat) (v : Tree) : Role.place.slot t i v = Role.receiverAndItems 2 i v := by
        rw [hslot, Role.inPlace, hk]
        exact if_pos hindex
      rw [if_pos (by simpa using hindex), if_pos (by simpa using hindex)]
      exact receiverAndItems_follows hp hin Nat.two_pos hi _
    · have hi (i : Nat) (v : Tree) : Role.place.slot t i v = [(0, .expr)].lookup i := by
        rw [hslot, Role.inPlace, hk]
        exact if_neg hindex
      have hcovered := hin.covered_row _ hi
      rw [if_neg (by simpa using hindex), if_neg (by simpa using hindex)]
      refine .congr (.bind (nameAt_follows hp hin 1) fun n =>
        .bind (optional_follows hp hin 0 (hi 0)) fun recv => .pure _) ?_
      simpa using hcovered
  case h_10 => exact .malformed (hp.malformed h.built rfl) _

end Garnet.Build
