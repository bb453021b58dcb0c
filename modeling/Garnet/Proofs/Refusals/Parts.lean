import Garnet.Program.Build.Targets
import Garnet.Proofs.Refusals.Positions

/-!
# Slots, arguments and targets after an exchange

What is built of a tree before and after an exchange below it, given what is built of the trees
below. One builder follows another when it gives the same, as long as the other one gives anything,
or else always the fault that an exchanged tree leads to. Which of the two it is depends on whether
the exchanged tree is among those that are built.
-/

namespace Garnet.Build

variable {α β : Type}

/-- After an exchange that brings in the tree `new`, `y` is built in place of `x`. The faults of `x`
are as `S` says. Where `x` gives something, `y` gives the same, or refuses the new tree when `hit`
says that it is built. -/
structure Follows (S : Fault → Prop) (new : Tree) (hit : Bool) (x y : Builder α) : Prop where
  refused : ∀ site next fault, x site next = .error fault → S fault
  built : ∀ site next r, x site next = .ok r →
    y site next = if hit then .error (.unsupported new.tag) else .ok r

namespace Follows

variable {S : Fault → Prop} {new : Tree} {hit hit' : Bool}

theorem pure (a : α) : Follows S new false (Pure.pure a) (Pure.pure a) where
  refused _ _ _ h := nomatch h
  built _ _ _ h := h

theorem bind {x y : Builder β} {f g : β → Builder α} (hx : Follows S new hit x y)
    (hf : ∀ a, Follows S new hit' (f a) (g a)) :
    Follows S new (hit || hit') (x >>= f) (y >>= g) := by
  have hrun (z : Builder β) (k : β → Builder α) (site : Option Nat) (next : Nat) :
      (z >>= k) site next = z site next >>= fun r => k r.1 site r.2 := rfl
  constructor
  · intro site next g' h
    rw [hrun] at h
    cases hr : x site next with
    | error fault' =>
      rw [hr] at h
      cases h
      exact hx.refused _ _ _ hr
    | ok r =>
      rw [hr] at h
      exact (hf r.1).refused _ _ _ h
  · intro site next r h
    rw [hrun] at h ⊢
    cases hr : x site next with
    | error fault' => rw [hr] at h; cases h
    | ok r' =>
      rw [hr] at h
      rw [hx.built _ _ _ hr]
      cases hit with
      | true => rfl
      | false => exact (hf r'.1).built _ _ _ h

theorem map {x y : Builder β} (f : β → α) (hx : Follows S new hit x y) :
    Follows S new hit (f <$> x) (f <$> y) := by
  have h : Follows S new (hit || false) (x >>= fun a => Pure.pure (f a))
      (y >>= fun a => Pure.pure (f a)) := bind hx fun a => .pure (f a)
  rwa [Bool.or_false] at h

theorem congr {x y : Builder α} (hx : Follows S new hit x y) (h : hit = hit') :
    Follows S new hit' x y :=
  h ▸ hx

theorem malformed {t : Tree} {reason : Reason} (h : S (.malformed t.tag reason)) (y : Builder α) :
    Follows S new hit (malformed t reason) y where
  refused _ _ _ hg := by cases hg; exact h
  built _ _ _ hr := nomatch hr

theorem malformed_bind {t : Tree} {reason : Reason} (h : S (.malformed t.tag reason))
    (f : β → Builder α) (y : Builder α) :
    Follows S new hit (Build.malformed t reason >>= f) y where
  refused _ _ _ hg := by cases hg; exact h
  built _ _ _ hr := nomatch hr

theorem unsupported {t : Tree} (h : S (.unsupported t.tag)) (y : Builder α) :
    Follows S new hit (unsupported t) y where
  refused _ _ _ hg := by cases hg; exact h
  built _ _ _ hr := nomatch hr

theorem newSite : Follows S new false newSite newSite where
  refused _ _ _ h := nomatch h
  built _ _ _ h := h

theorem read : Follows S new false (MonadReader.read : Builder (Option Nat))
    (MonadReader.read : Builder (Option Nat)) where
  refused _ _ _ h := nomatch h
  built _ _ _ h := h

theorem within {x y : Builder α} (site : Nat) (h : Follows S new hit x y) :
    Follows S new hit (within site x) (within site y) where
  refused _ next := h.refused (some site) next
  built _ next := h.built (some site) next

theorem detached {x y : Builder α} (h : Follows S new hit x y) :
    Follows S new hit (detached x) (detached y) where
  refused _ next := h.refused none next
  built _ next := h.built none next

variable {γ δ : Type} {zs : List γ} {p q : γ → δ} {hits : γ → Bool}

/-- The builders of the elements of a list, with what says that one of them is hit. -/
theorem mapM {f g : δ → Builder α} (h : ∀ z ∈ zs, Follows S new (hits z) (f (p z)) (g (q z))) :
    Follows S new (zs.any hits) ((zs.map p).mapM f) ((zs.map q).mapM g) := by
  induction zs with
  | nil =>
    rw [List.map_nil, List.map_nil, List.mapM_nil, List.mapM_nil]
    exact .pure _
  | cons z zs ih =>
    obtain ⟨hz, hzs⟩ := List.forall_mem_cons.mp h
    rw [List.map_cons, List.map_cons, List.mapM_cons, List.mapM_cons, List.any_cons]
    refine .congr (.bind hz fun a => .bind (ih hzs) fun as => .pure (a :: as)) ?_
    rw [Bool.or_false]

theorem mapM_same {f g : γ → Builder α} (h : ∀ z ∈ zs, Follows S new (hits z) (f z) (g z)) :
    Follows S new (zs.any hits) (zs.mapM f) (zs.mapM g) := by
  have hmap := mapM (p := id) (q := id) (f := f) (g := g) h
  rwa [List.map_id] at hmap

theorem foldlM {f g : β → δ → Builder β}
    (h : ∀ st, ∀ z ∈ zs, Follows S new (hits z) (f st (p z)) (g st (q z))) (st : β) :
    Follows S new (zs.any hits) ((zs.map p).foldlM f st) ((zs.map q).foldlM g st) := by
  induction zs generalizing st with
  | nil => exact .pure _
  | cons z zs ih =>
    rw [List.any_cons]
    exact .bind (h st z List.mem_cons_self) fun st' =>
      ih (fun st z hz => h st z (List.mem_cons_of_mem _ hz)) st'

/-- A loop in which no exchanged tree is built. -/
theorem forIn {f g : γ → β → Builder (ForInStep β)}
    (h : ∀ z ∈ zs, ∀ st, Follows S new false (f z st) (g z st)) (st : β) :
    Follows S new false (ForIn.forIn zs st f) (ForIn.forIn zs st g) := by
  induction zs generalizing st with
  | nil => exact .pure st
  | cons z zs ih =>
    obtain ⟨hz, hzs⟩ := List.forall_mem_cons.mp h
    rw [List.forIn_cons, List.forIn_cons]
    refine .bind (hz st) fun step => ?_
    cases step with
    | done st => exact .pure st
    | yield st => exact ih hzs st

end Follows

end Garnet.Build

namespace Garnet

/-- Whether the slots of the node are at fault, not the depth of the tree. -/
def Reason.isLocal : Reason → Bool
  | .tooDeep => false
  | _ => true

namespace Build

variable {V : Role → Tree → Hole → Prop} {S : Fault → Prop} {new : Tree} {m : Nat}
variable {b b' : Below}
variable {r r' : Role} {t u : Tree} {hole : Hole} {i start : Nat}

/-- A tree that is built as `r`. If a tree in it is exchanged, then one that is built as an
expression, and the depth stays at most `m`. -/
structure Part (V : Role → Tree → Hole → Prop) (new : Tree) (m : Nat) (r : Role) (t : Tree)
    (hole : Hole) : Prop where
  built : V r t hole
  fits : ∀ p, hole = some p → r.along t p = some .expr
  depth : (t.patched hole new).depth ≤ m

/-- A part that is not exchanged itself. -/
structure Inside (V : Role → Tree → Hole → Prop) (new : Tree) (m : Nat) (r : Role) (t : Tree)
    (hole : Hole) : Prop extends Part V new m r t hole where
  ne : hole ≠ some []

/-- The trees below are built by `b` before and by `b'` after the exchange, which brings in a tree
of an unknown kind. `V` says which trees are built, as what and with which hole, and `S` which
faults they lead to. -/
structure Pass (V : Role → Tree → Hole → Prop) (S : Fault → Prop) (new : Tree) (m : Nat)
    (b b' : Below) : Prop where
  unknown : new.kind = none
  closed : ∀ {r t hole i u r'}, V r t hole → t.tree? i = some u → r.slot t i u = some r' →
    V r' u (hole.below i)
  malformed : ∀ {r t hole}, V r t hole → ∀ {reason}, reason.isLocal → S (.malformed t.tag reason)
  unsupported : ∀ {r t hole}, V r t hole → t.kind = none → S (.unsupported t.tag)
  expr : ∀ {r u hole}, r = .expr ∨ r = .aliased → Part V new m r u hole →
    Follows S new hole.isSome (b.expr u) (b'.expr (u.patched hole new))
  target : ∀ {u hole}, Part V new m .target u hole →
    Follows S new hole.isSome (b.target u) (b'.target (u.patched hole new))
  pattern : ∀ {u}, Part V new m .pattern u none → u.hasKind .mlhs →
    Follows S new false (b.patterns u) (b'.patterns u)

/-! ## Which parts are hit -/

theorem Part.whole (ht : V r t none) (hdepth : t.depth ≤ m) : Part V new m r t none where
  built := ht
  fits := nofun
  depth := hdepth

theorem Inside.whole (ht : V r t none) (hdepth : t.depth ≤ m) : Inside V new m r t none :=
  { toPart := .whole ht hdepth, ne := nofun }

theorem Part.pos (h : Part V new m r t hole) : 0 < m := by
  have hdepth := h.depth
  rw [Tree.depth] at hdepth
  exact Nat.lt_of_lt_of_le (Nat.succ_pos _) hdepth

theorem Part.ne (h : Part V new m r t hole) (hr : r ≠ .expr) : hole ≠ some [] := by
  rintro rfl
  exact hr (Option.some.inj (h.fits [] rfl))

theorem Part.inside (h : Part V new m r t hole) (hr : r ≠ .expr) :
    Inside V new (m + 1) r t hole where
  built := h.built
  fits := h.fits
  depth := Nat.le_succ_of_le h.depth
  ne := h.ne hr

/-- A kind that keeps a tree from being built as an expression is the same after the exchange. -/
theorem Part.hasKind_patched (h : Part V new m r t hole) (hnew : new.kind = none) {k : Tag}
    (hk : t.hasKind k = true → r ≠ .expr) :
    (t.patched hole new).hasKind k = t.hasKind k := by
  by_cases hhole : hole = some []
  · subst hhole
    have hr : r = .expr := Option.some.inj (h.fits [] rfl)
    have hfalse : t.hasKind k = false := Bool.eq_false_iff.mpr fun hkind => hk hkind hr
    have hunknown : new.hasKind k = false := by rw [Tree.hasKind, hnew]; rfl
    rw [hfalse]
    exact hunknown
  · exact Tree.hasKind_patched hhole k

namespace Inside

theorem child (h : Inside V new (m + 1) r t hole) (hp : Pass V S new m b b')
    (hu : t.tree? i = some u) (hr : r.slot t i u = some r') :
    Part V new m r' u (hole.below i) where
  built := hp.closed h.built hu hr
  fits p hq := by
    have hfits := h.fits _ (Hole.below_eq_some.mp hq)
    simpa only [Role.along, hu, hr, Option.bind_some] using hfits
  depth := by
    have hu' : (t.patched hole new).tree? i = some (u.patched (hole.below i) new) := by
      rw [Tree.tree?_patched h.ne, hu, Option.map_some]
    exact Nat.le_of_lt_succ (Nat.lt_of_lt_of_le (Tree.depth_lt_of_tree? hu') h.depth)

theorem below_eq_none (h : Inside V new m r t hole)
    (hr : ∀ u, t.tree? i = some u → r.slot t i u = none) : hole.below i = none := by
  rw [Option.eq_none_iff_forall_ne_some]
  intro p hq
  obtain ⟨u, hu, hfits⟩ := Option.bind_eq_some_iff.mp (h.fits _ (Hole.below_eq_some.mp hq))
  rw [hr u hu] at hfits
  cases hfits

theorem below_of_tree?_eq_none (h : Inside V new m r t hole) (hu : t.tree? i = none) :
    hole.below i = none :=
  h.below_eq_none fun _ hu' => nomatch hu.symm.trans hu'

/-- The exchanged tree is in one of the slots that are built. -/
theorem covered (h : Inside V new m r t hole) {hit : Bool} (hnone : hole = none → hit = false)
    (hsome : ∀ i u r', t.tree? i = some u → r.slot t i u = some r' →
      (hole.below i).isSome = true → hit = true) : hit = hole.isSome := by
  match hole, h, hnone, hsome with
  | none, _, hnone, _ => exact hnone rfl
  | some [], h, _, _ => exact absurd rfl h.ne
  | some (i :: p), h, _, hsome =>
    have hfits := h.fits _ rfl
    obtain ⟨u, hu, hfits⟩ := Option.bind_eq_some_iff.mp hfits
    obtain ⟨r', hr, -⟩ := Option.bind_eq_some_iff.mp hfits
    refine hsome i u r' hu hr ?_
    rw [Hole.below_eq_some.mpr rfl]
    rfl

theorem covered_spots (h : Inside V new m r t hole) (is : List Nat) (start : Nat)
    (his : ∀ i u r', t.tree? i = some u → r.slot t i u = some r' → i ∈ is ∨ start ≤ i) :
    ((is.any fun i => (hole.below i).isSome) || (t.spots hole start).any (·.2.isSome)) =
      hole.isSome := by
  refine h.covered (fun hnone => ?_) fun i u r' hu hr hi => ?_
  · subst hnone
    rw [Bool.or_eq_false_iff, List.any_eq_false, List.any_eq_false]
    refine ⟨fun i _ => nofun, fun z hz => ?_⟩
    obtain ⟨i, -, -, hz⟩ := Tree.mem_spots.mp hz
    rw [hz]
    nofun
  · rw [Bool.or_eq_true, List.any_eq_true, List.any_eq_true]
    rcases his i u r' hu hr with hmem | hstart
    · exact .inl ⟨i, hmem, hi⟩
    · exact .inr ⟨(u, hole.below i), Tree.mem_spots.mpr ⟨i, hstart, hu, rfl⟩, hi⟩

theorem covered_kids (h : Inside V new m r t hole) :
    ((t.kids hole).any (·.2.isSome)) = hole.isSome := by
  refine h.covered (fun hnone => ?_) fun i u r' hu _ hi => ?_
  · subst hnone
    refine List.any_eq_false.mpr fun k hk => ?_
    obtain ⟨i, -, hk⟩ := Tree.mem_kids hk
    rw [hk]
    nofun
  · obtain ⟨c, hc, -⟩ := Option.bind_eq_some_iff.mp hu
    exact List.any_eq_true.mpr ⟨(c, hole.below i), Tree.mem_kids_of_child? hc, hi⟩

theorem covered_slots (h : Inside V new m r t hole) (is : List Nat)
    (his : ∀ i u r', t.tree? i = some u → r.slot t i u = some r' → i ∈ is) :
    (is.any fun i => (hole.below i).isSome) = hole.isSome := by
  refine h.covered (fun hnone => ?_) fun i u r' hu hr hi =>
    List.any_eq_true.mpr ⟨i, his i u r' hu hr, hi⟩
  subst hnone
  exact List.any_eq_false.mpr fun i _ => nofun

theorem covered_row (h : Inside V new m r t hole) (row : List (Nat × Role))
    (hrow : ∀ i u, r.slot t i u = row.lookup i) :
    ((row.map (·.1)).any fun i => (hole.below i).isSome) = hole.isSome := by
  refine h.covered_slots _ fun i u r' _ hr => ?_
  rw [hrow, List.lookup_eq_some_iff] at hr
  obtain ⟨before, after, rfl, -⟩ := hr
  rw [List.map_append, List.map_cons]
  exact List.mem_append_right _ List.mem_cons_self

end Inside

/-! ## Slots -/

section

variable (hp : Pass V S new m b b') (h : Inside V new (m + 1) r t hole)

include hp h

theorem nameAt_follows (i : Nat) :
    Follows S new false (nameAt t i) (nameAt (t.patched hole new) i) := by
  unfold nameAt
  rw [Tree.text?_patched h.ne]
  cases t.text? i with
  | none => exact .malformed (hp.malformed h.built rfl) _
  | some s => exact .pure s

/-- What is built of the tree in a slot. -/
theorem treeAt_follows {α : Type} {hit : Bool} (i : Nat) {f g : Tree → Builder α}
    (hf : ∀ u, t.tree? i = some u → Follows S new hit (f u) (g (u.patched (hole.below i) new))) :
    Follows S new hit (treeAt t i >>= f) (treeAt (t.patched hole new) i >>= g) := by
  unfold treeAt
  rw [Tree.tree?_patched h.ne]
  cases hu : t.tree? i with
  | none => exact .malformed_bind (hp.malformed h.built rfl) _ _
  | some u => exact hf u hu

/-- What is built of the tree in a slot, if there is one; a name in an `alias` is built as an
expression as well. -/
theorem optional_follows_of (i : Nat) (hr' : r' = .expr ∨ r' = .aliased)
    (hi : ∀ u, t.tree? i = some u → r.slot t i u = some r') :
    Follows S new (hole.below i).isSome (optional b t i) (optional b' (t.patched hole new) i) := by
  have hmissing (htree : t.tree? i = none) : (hole.below i).isSome = false := by
    rw [h.below_of_tree?_eq_none htree]
    rfl
  unfold optional
  rw [Tree.child?_patched h.ne]
  cases hc : t.child? i with
  | none =>
    have htree : t.tree? i = none := by rw [Tree.tree?, hc]; rfl
    exact .congr (.pure _) (hmissing htree).symm
  | some c =>
    have htree : t.tree? i = c.tree? := by rw [Tree.tree?, hc]; rfl
    cases c with
    | absent => exact .congr (.pure _) (hmissing htree).symm
    | int | float | text => exact .malformed (hp.malformed h.built rfl) _
    | node tag children => exact .map some (hp.expr hr' (h.child hp htree (hi _ htree)))

theorem slot_follows_of (i : Nat) (hr' : r' = .expr ∨ r' = .aliased)
    (hi : ∀ u, t.tree? i = some u → r.slot t i u = some r') :
    Follows S new (hole.below i).isSome (slot b t i) (slot b' (t.patched hole new) i) :=
  .congr (.bind (optional_follows_of hp h i hr' hi) fun e => .pure (e.getD .nil))
    (Bool.or_false _)

theorem optional_follows (i : Nat) (hi : ∀ u, r.slot t i u = some .expr) :
    Follows S new (hole.below i).isSome (optional b t i) (optional b' (t.patched hole new) i) :=
  optional_follows_of hp h i (.inl rfl) fun u _ => hi u

theorem slot_follows (i : Nat) (hi : ∀ u, r.slot t i u = some .expr) :
    Follows S new (hole.below i).isSome (slot b t i) (slot b' (t.patched hole new) i) :=
  slot_follows_of hp h i (.inl rfl) fun u _ => hi u

theorem assigned_follows (i : Nat) (hi : ∀ u, r.slot t i u = some .expr) :
    Follows S new (hole.below i).isSome (assigned b t i)
      (assigned b' (t.patched hole new) i) := by
  refine .congr (.bind (optional_follows hp h i hi) fun e => ?_) (Bool.or_false _)
  cases e with
  | none => exact .malformed (hp.malformed h.built rfl) _
  | some e => exact .pure e

/-- Where a constant is looked up. -/
theorem constPath_follows (i : Nat) (hi : ∀ u, r.slot t i u = Role.scope u) :
    Follows S new (hole.below i).isSome (constPath b t i)
      (constPath b' (t.patched hole new) i) := by
  unfold constPath
  rw [Tree.tree?_patched h.ne]
  cases hu : t.tree? i with
  | none =>
    rw [h.below_of_tree?_eq_none hu]
    exact .pure _
  | some u =>
    rw [Option.map_some]
    dsimp only
    by_cases hbase : u.hasKind .cbase = true
    · have hscope : r.slot t i u = none := by rw [hi, Role.scope, if_pos hbase]
      have hnone : hole.below i = none := h.below_eq_none fun u' hu' => by
        cases hu.symm.trans hu'
        exact hscope
      rw [hnone, if_pos hbase, Tree.patched_none, if_pos hbase]
      exact .pure _
    · have hscope : r.slot t i u = some .expr := by rw [hi, Role.scope, if_neg hbase]
      have hpart := h.child hp hu hscope
      rw [if_neg hbase, hpart.hasKind_patched hp.unknown fun h => absurd h hbase, if_neg hbase]
      exact .map _ (hp.expr (.inl rfl) hpart)

end

/-! ## Lists of trees -/

section

variable (hp : Pass V S new m b b')

include hp

/-- An item of a list. -/
theorem item_follows (h : Part V new m (Role.item u) u hole) :
    Follows S new hole.isSome (item b u) (item b' (u.patched hole new)) := by
  unfold item
  by_cases hsplat : u.hasKind .splat = true
  · have hitem : Role.item u = .wrapped := if_pos hsplat
    rw [hitem] at h
    have hin := h.inside nofun
    rw [if_pos hsplat, Tree.hasKind_patched hin.ne, if_pos hsplat]
    have hcovered := hin.covered_row [(0, .expr)] fun _ _ => rfl
    exact .map _ (.congr (slot_follows hp hin 0 fun _ => rfl) (by simpa using hcovered))
  · have hitem : Role.item u = .expr := if_neg hsplat
    rw [hitem] at h
    rw [if_neg hsplat, h.hasKind_patched hp.unknown fun h => absurd h hsplat, if_neg hsplat]
    exact .map _ (hp.expr (.inl rfl) h)

variable (h : Inside V new (m + 1) r t hole)

include h

omit hp in
/-- What is built of each of the trees from a slot on. -/
theorem treesFrom_follows {α : Type} (start : Nat) {f g : Tree → Builder α}
    (hf : ∀ i u, start ≤ i → t.tree? i = some u →
      Follows S new (hole.below i).isSome (f u) (g (u.patched (hole.below i) new))) :
    Follows S new ((t.spots hole start).any (·.2.isSome)) ((t.treesFrom start).mapM f)
      (((t.patched hole new).treesFrom start).mapM g) := by
  rw [t.treesFrom_eq hole, Tree.treesFrom_patched h.ne]
  refine .mapM fun z hz => ?_
  obtain ⟨i, hi, hu, hz⟩ := Tree.mem_spots.mp hz
  rw [hz]
  exact hf i z.1 hi hu

theorem items_follows (start : Nat) (hi : ∀ i u, start ≤ i → r.slot t i u = some (.item u)) :
    Follows S new ((t.spots hole start).any (·.2.isSome)) (items b t start)
      (items b' (t.patched hole new) start) := by
  refine treesFrom_follows h start fun i u hstart hu => ?_
  have hpart := h.child hp hu (hi i u hstart)
  by_cases hpass : u.hasKind .blockPass = true
  · rw [if_pos hpass]
    exact .malformed (hp.malformed hpart.built rfl) _
  · rw [if_neg hpass, hpart.hasKind_patched hp.unknown fun h => absurd h hpass, if_neg hpass]
    exact item_follows hp hpart

/-- The arguments of a call. -/
theorem arguments_follows (start : Nat) (block : BlockArg Expr)
    (hi : ∀ i u, start ≤ i → r.slot t i u = some (.argument u)) :
    Follows S new ((t.spots hole start).any (·.2.isSome)) (arguments b t start block)
      (arguments b' (t.patched hole new) start block) := by
  unfold arguments
  rw [t.treesFrom_eq hole, Tree.treesFrom_patched h.ne]
  have hparts : ∀ z ∈ t.spots hole start, Part V new m (.argument z.1) z.1 z.2 := by
    intro z hz
    obtain ⟨i, hstart, hu, hz⟩ := Tree.mem_spots.mp hz
    rw [hz]
    exact h.child hp hu (hi i z.1 hstart)
  generalize t.spots hole start = zs at hparts
  induction zs with
  | nil => exact .pure _
  | cons z zs ih =>
    obtain ⟨hz, hzs⟩ := List.forall_mem_cons.mp hparts
    simp only [List.map_cons, List.any_cons, argumentsOf]
    by_cases hpass : z.1.hasKind .blockPass = true
    · have hargument : Role.argument z.1 = .wrapped := if_pos hpass
      rw [hargument] at hz
      have hin := hz.inside nofun
      simp only [Tree.hasKind_patched hin.ne, hpass, List.isEmpty_map, Bool.not_true,
        Bool.false_eq_true, if_false]
      cases zs with
      | cons => exact .malformed (hp.malformed h.built rfl) _
      | nil =>
        rw [List.isEmpty_nil, Bool.not_true, if_neg Bool.false_ne_true,
          if_neg Bool.false_ne_true]
        cases block with
        | none =>
          have hcovered := hin.covered_row [(0, .expr)] fun _ _ => rfl
          refine .congr (.bind (optional_follows hp hin 0 fun _ => rfl) fun e =>
            (?_ : Follows S new false _ _)) (by simpa using hcovered)
          cases e <;> exact .pure _
        | _ => exact .malformed (hp.malformed h.built rfl) _
    · have hargument : Role.argument z.1 = .item z.1 := if_neg hpass
      rw [hargument] at hz
      rw [hz.hasKind_patched hp.unknown fun h => absurd h hpass]
      simp only [hpass, Bool.not_false, if_true]
      refine .congr (.bind (item_follows hp hz) fun x => .bind (ih hzs) fun a => .pure _) ?_
      rw [Bool.or_false]

end

end Build

end Garnet
