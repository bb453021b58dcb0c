import Garnet.Program.Build.Targets
import Garnet.Proofs.Jumps.Placed
import Garnet.Proofs.Trees.Reread

/-!
# What builders give

A builder knows the innermost loop or block around what it builds. When the trees below are built
with `next` in its place, so are slots, arguments, parameters and targets. They assign the globals
that the nodes of the tree assign.
-/

namespace Garnet

/-! ## Globals that a tree assigns -/

namespace Child

variable {c d : Child} {cs : List Child}

theorem self_mem_parts (c : Child) : c ∈ c.parts := by
  cases c <;> simp [parts]

theorem mem_partsAll_of_mem (hc : c ∈ cs) (hd : d ∈ c.parts) : d ∈ partsAll cs := by
  induction cs with
  | nil => cases hc
  | cons e cs ih =>
    rw [partsAll, List.mem_append]
    rcases List.mem_cons.mp hc with rfl | hc
    · exact .inl hd
    · exact .inr (ih hc)

theorem eq_toChild_of_tree? {u : Tree} (h : c.tree? = some u) : c = u.toChild := by
  cases c <;> cases h
  rfl

end Child

namespace Tree

/-- The global that a node assigns itself. -/
def assigned? (t : Tree) : Option String := if t.hasKind .gvasgn then t.text? 0 else none

/-- Every node of the tree that assigns a global assigns one of `A`. -/
def AssignsOnly (A : String → Prop) (t : Tree) : Prop :=
  ∀ c ∈ t.toChild.parts, ∀ u ∈ c.tree?, ∀ n ∈ u.assigned?, A n

instance (A : String → Prop) [DecidablePred A] (t : Tree) : Decidable (t.AssignsOnly A) :=
  inferInstanceAs (Decidable (∀ c ∈ t.toChild.parts, ∀ u ∈ c.tree?, ∀ n ∈ u.assigned?, A n))

variable {A : String → Prop} {t u : Tree} {i : Nat} {n : String}

namespace AssignsOnly

theorem of_mem (h : t.AssignsOnly A) (hu : u.toChild ∈ t.children) : u.AssignsOnly A :=
  fun v hv => h v (List.mem_cons_of_mem _ (Child.mem_partsAll_of_mem hu hv))

theorem of_node {tag : String} {cs : List Child} (h : t.AssignsOnly A)
    (hc : .node tag cs ∈ t.children) : AssignsOnly A ⟨tag, cs⟩ :=
  h.of_mem (u := ⟨tag, cs⟩) hc

theorem of_child? {tag : String} {cs : List Child} (h : t.AssignsOnly A)
    (hc : t.child? i = some (.node tag cs)) : AssignsOnly A ⟨tag, cs⟩ :=
  h.of_node (List.mem_of_getElem? hc)

theorem of_tree? (h : t.AssignsOnly A) (hu : t.tree? i = some u) : u.AssignsOnly A := by
  obtain ⟨c, hc, hcu⟩ := Option.bind_eq_some_iff.mp hu
  exact h.of_mem (Child.eq_toChild_of_tree? hcu ▸ List.mem_of_getElem? hc)

theorem of_mem_treesFrom (h : t.AssignsOnly A) (hu : u ∈ t.treesFrom i) : u.AssignsOnly A := by
  obtain ⟨c, hc, hcu⟩ := List.mem_filterMap.mp hu
  exact h.of_mem (Child.eq_toChild_of_tree? hcu ▸ List.mem_of_mem_drop hc)

/-- The name in a node that assigns a global. -/
theorem name (h : t.AssignsOnly A) (hk : t.kind = some .gvasgn) (hn : t.text? 0 = some n) :
    A n := by
  refine h _ (Child.self_mem_parts _) t rfl n ?_
  rw [assigned?, hasKind, hk]
  exact hn

end AssignsOnly

end Tree

namespace Build

variable {α β : Type} {site : Option Nat}

/-- What comes out of a builder inside of `site` satisfies `Q`. -/
def Gives (site : Option Nat) (Q : α → Prop) (x : Builder α) : Prop :=
  ∀ n a n', x site n = .ok (a, n') → Q a

namespace Gives

variable {P : β → Prop} {Q : α → Prop}

theorem pure {a : α} (h : Q a) : Gives site Q (Pure.pure a) := by
  intro n a' n' ha
  cases ha
  exact h

theorem bind {x : Builder β} {f : β → Builder α} (hx : Gives site P x)
    (hf : ∀ a, P a → Gives site Q (f a)) : Gives site Q (x >>= f) := by
  intro n a n' h
  have hrun : (x >>= f) site n = x site n >>= fun r => f r.1 site r.2 := rfl
  rw [hrun] at h
  cases hr : x site n with
  | error fault => rw [hr] at h; cases h
  | ok r =>
    obtain ⟨c, k⟩ := r
    rw [hr] at h
    exact hf c (hx n c k hr) k a n' h

theorem map {x : Builder β} {f : β → α} (hx : Gives site P x) (hf : ∀ a, P a → Q (f a)) :
    Gives site Q (f <$> x) :=
  bind hx fun a ha => pure (hf a ha)

theorem any (x : Builder α) : Gives site (fun _ => True) x := fun _ _ _ _ => trivial

theorem malformed (t : Tree) (reason : Reason) : Gives site Q (malformed t reason) := nofun

theorem unsupported (t : Tree) : Gives site Q (unsupported t) := nofun

theorem read : Gives site (· = site) (MonadReader.read : Builder (Option Nat)) := by
  intro n a n' h
  cases h
  rfl

theorem within {n : Nat} {x : Builder α} (h : Gives (some n) Q x) : Gives site Q (within n x) :=
  fun k a k' hx => h k a k' hx

theorem detached {x : Builder α} (h : Gives none Q x) : Gives site Q (detached x) :=
  fun k a k' hx => h k a k' hx

theorem mapM {f : α → Builder β} {as : List α} (h : ∀ a ∈ as, Gives site P (f a)) :
    Gives site (fun bs => ∀ b ∈ bs, P b) (as.mapM f) := by
  induction as with
  | nil =>
    rw [List.mapM_nil]
    exact pure fun _ hb => absurd hb List.not_mem_nil
  | cons a as ih =>
    obtain ⟨ha, has⟩ := List.forall_mem_cons.mp h
    rw [List.mapM_cons]
    exact bind ha fun _ hb => bind (ih has) fun _ hbs =>
      pure (List.forall_mem_cons.mpr ⟨hb, hbs⟩)

theorem foldlM {f : β → α → Builder β} {as : List α}
    (h : ∀ st, ∀ a ∈ as, P st → Gives site P (f st a)) {st : β} (hst : P st) :
    Gives site P (as.foldlM f st) := by
  induction as generalizing st with
  | nil => exact pure hst
  | cons a as ih =>
    exact bind (h st a List.mem_cons_self hst) fun _ hst =>
      ih (fun st b hb => h st b (List.mem_cons_of_mem _ hb)) hst

end Gives

variable {A : String → Prop} {below : Below} {t : Tree}

theorem treeAt_assignsOnly (ht : t.AssignsOnly A) (i : Nat) :
    Gives site (·.AssignsOnly A) (treeAt t i) := by
  unfold treeAt
  split
  · exact .pure (ht.of_tree? ‹_›)
  · exact .malformed _ _

theorem nameAt_text? (i : Nat) : Gives site (fun n => t.text? i = some n) (nameAt t i) := by
  unfold nameAt
  split
  · exact .pure ‹_›
  · exact .malformed _ _

/-- What is built below is placed. -/
structure Below.Placed (A : String → Prop) (below : Below) : Prop where
  expr : ∀ t site, t.AssignsOnly A → Gives site (·.Placed A site.isSome) (below.expr t)
  target : ∀ t site, t.AssignsOnly A → Gives site (·.Placed A site.isSome) (below.target t)

/-! ## Slots -/

theorem optional_placed (hb : below.Placed A) (ht : t.AssignsOnly A) (i : Nat) :
    Gives site (fun e => PlacedAll A site.isSome e.toList) (optional below t i) := by
  unfold optional
  split
  · exact .pure placedAll_nil
  · exact .pure placedAll_nil
  · exact .map (hb.expr _ _ (ht.of_child? ‹_›)) fun _ he =>
      placedAll_cons.mpr ⟨he, placedAll_nil⟩
  · exact .malformed _ _

theorem placed_nil {b : Bool} : Expr.nil.Placed A b := .of_parts rfl rfl placedParts_nil

theorem slot_placed (hb : below.Placed A) (ht : t.AssignsOnly A) (i : Nat) :
    Gives site (·.Placed A site.isSome) (slot below t i) := by
  refine .bind (optional_placed hb ht i) fun e he => .pure ?_
  cases e with
  | none => exact placed_nil
  | some e => exact (placedAll_cons.mp he).1

theorem assigned_placed (hb : below.Placed A) (ht : t.AssignsOnly A) (i : Nat) :
    Gives site (·.Placed A site.isSome) (assigned below t i) := by
  refine .bind (optional_placed hb ht i) fun e he => ?_
  cases e with
  | none => exact .malformed _ _
  | some e => exact .pure (placedAll_cons.mp he).1

theorem constPath_placed (hb : below.Placed A) (ht : t.AssignsOnly A) (i : Nat) :
    Gives site (fun p => PlacedAll A site.isSome p.parts) (constPath below t i) := by
  unfold constPath
  split
  · exact .pure placedAll_nil
  · split
    · exact .pure placedAll_nil
    · exact .map (hb.expr _ _ (ht.of_tree? ‹_›)) fun _ he =>
        placedAll_cons.mpr ⟨he, placedAll_nil⟩

/-! ## Arguments and parameters -/

theorem item_placed (hb : below.Placed A) (ht : t.AssignsOnly A) :
    Gives site (fun x => PlacedAll A site.isSome x.parts) (item below t) := by
  unfold item
  split
  · exact .map (slot_placed hb ht 0) fun _ he => placedAll_cons.mpr ⟨he, placedAll_nil⟩
  · exact .map (hb.expr _ _ ht) fun _ he => placedAll_cons.mpr ⟨he, placedAll_nil⟩

theorem placedAll_flatMap {b : Bool} {f : α → List Expr} {xs : List α}
    (h : ∀ x ∈ xs, PlacedAll A b (f x)) : PlacedAll A b (xs.flatMap f) := by
  intro e he
  obtain ⟨x, hx, hex⟩ := List.mem_flatMap.mp he
  exact h x hx e hex

theorem items_placed (hb : below.Placed A) (ht : t.AssignsOnly A) (start : Nat) :
    Gives site (fun xs => PlacedAll A site.isSome (xs.flatMap Item.parts))
      (items below t start) := by
  have hitem (u : Tree) (hu : u ∈ t.treesFrom start) :
      Gives site (fun x => PlacedAll A site.isSome x.parts)
        (if u.hasKind .blockPass then Build.malformed u .blockOutsideCall else item below u) := by
    split
    · exact .malformed _ _
    · exact item_placed hb (ht.of_mem_treesFrom hu)
  intro n xs n' h
  exact placedAll_flatMap (Gives.mapM hitem n xs n' h)

theorem argumentsOf_placed (hb : below.Placed A) {block : BlockArg Expr}
    (hblock : PlacedParts A site.isSome block.parts) {us : List Tree}
    (hus : ∀ u ∈ us, u.AssignsOnly A) :
    Gives site (fun r => PlacedAll A site.isSome (r.1.flatMap Item.parts) ∧
      PlacedParts A site.isSome r.2.parts) (argumentsOf below t block us) := by
  induction us with
  | nil => exact .pure ⟨placedAll_nil, hblock⟩
  | cons u us ih =>
    obtain ⟨hu, hus⟩ := List.forall_mem_cons.mp hus
    unfold argumentsOf
    split
    · refine .bind (item_placed hb hu) fun x hx => .bind (ih hus) fun r hr => .pure ⟨?_, hr.2⟩
      rw [List.flatMap_cons, placedAll_append]
      exact ⟨hx, hr.1⟩
    · split
      · exact .malformed _ _
      · cases block with
        | none =>
          refine .bind (optional_placed hb hu 0) fun e he => ?_
          cases e with
          | some e =>
            have he := (placedAll_cons.mp he).1
            exact .pure ⟨placedAll_nil, placedParts_cons.mpr ⟨he, placedParts_nil⟩⟩
          | none => exact .pure ⟨placedAll_nil, placedParts_nil⟩
        | _ => exact .malformed _ _

theorem arguments_placed (hb : below.Placed A) (ht : t.AssignsOnly A) {block : BlockArg Expr}
    (hblock : PlacedParts A site.isSome block.parts) (start : Nat) :
    Gives site (fun r => PlacedAll A site.isSome (r.1.flatMap Item.parts) ∧
      PlacedParts A site.isSome r.2.parts) (arguments below t start block) :=
  argumentsOf_placed hb hblock fun _ hu => ht.of_mem_treesFrom hu

theorem addRequired_parts (p : Params Expr) (pattern : Pattern) :
    (addRequired p pattern).parts = p.parts := by
  unfold addRequired
  split
  · rfl
  · rfl

theorem addParam_placed (hb : below.Placed A) {u : Tree} (hu : u.AssignsOnly A) (p : Params Expr)
    (hp : PlacedAll A site.isSome p.parts) :
    Gives site (fun p => PlacedAll A site.isSome p.parts) (addParam below t p u) := by
  have hrequired (p' : Params Expr) (pattern : Pattern) (h : p'.parts = p.parts) :
      PlacedAll A site.isSome (addRequired p' pattern).parts := by
    rw [addRequired_parts, h]
    exact hp
  unfold addParam
  split
  · exact .bind (.any _) fun n _ => .pure (hrequired p _ rfl)
  · exact .bind (.any _) fun ps _ => .pure (hrequired p _ rfl)
  · exact .bind (.any _) fun x _ => .pure (hrequired { p with single := true } x rfl)
  · refine .bind (.any _) fun n _ => .bind (treeAt_assignsOnly hu 1) fun d hd => ?_
    refine .bind (hb.expr d _ hd) fun e he => .pure ?_
    rw [Params.parts, List.map_append, placedAll_append]
    exact ⟨hp, placedAll_cons.mpr ⟨he, placedAll_nil⟩⟩
  · split
    · exact .pure hp
    · exact .pure hp
  · exact .pure hp
  · exact .malformed _ _
  · exact .malformed _ _
  · exact .malformed _ _

theorem params_placed (hb : below.Placed A) (ht : t.AssignsOnly A) :
    Gives site (fun p => PlacedAll A site.isSome p.parts) (params below t) := by
  unfold params
  split
  · exact .foldlM (fun p u hu => addParam_placed hb (ht.of_mem_treesFrom hu) p) placedAll_nil
  · exact .malformed _ _

/-! ## Targets -/

theorem slotsOf_placed (hb : below.Placed A) {us : List Tree} (hus : ∀ u ∈ us, u.AssignsOnly A)
    (seen : Bool) :
    Gives site (fun slots => (Target.many slots).Placed A site.isSome)
      (slotsOf below t seen us) := by
  induction us generalizing seen with
  | nil => exact .pure Target.placed_many_nil
  | cons u us ih =>
    obtain ⟨hu, hus⟩ := List.forall_mem_cons.mp hus
    unfold slotsOf
    split
    · split
      · exact .malformed _ _
      · split
        · refine .bind (.map (Q := fun x => ∃ v ∈ x, v.Placed A site.isSome)
            (hb.target _ _ (hu.of_tree? ‹_›)) fun v hv => ⟨v, rfl, hv⟩) fun inner hinner => ?_
          obtain ⟨v, rfl, hv⟩ := hinner
          exact .bind (ih hus true) fun rest hrest =>
            .pure (Target.placed_many_rest.mpr ⟨hv, hrest⟩)
        · refine .bind (.pure (Q := fun x => x = none) rfl) fun inner hinner => ?_
          subst hinner
          exact .bind (ih hus true) fun rest hrest =>
            .pure (Target.placed_many_rest_none.mpr hrest)
    · refine .bind (hb.target _ _ hu) fun x hx => .bind (ih hus seen) fun rest hrest => ?_
      exact .pure (Target.placed_many_one.mpr ⟨hx, hrest⟩)

theorem manyTargets_placed (hb : below.Placed A) (ht : t.AssignsOnly A) :
    Gives site (·.Placed A site.isSome) (manyTargets below t) :=
  .map (slotsOf_placed hb (fun _ hu => ht.of_mem_treesFrom hu) false) fun _ h => h

theorem target_placed (hb : below.Placed A) (ht : t.AssignsOnly A) :
    Gives site (·.Placed A site.isSome) (target below t) := by
  have hattribute : Gives site (·.Placed A site.isSome) (do
      let recv ← optional below t 0
      let n ← nameAt t 1
      let args ← items below t 2
      Pure.pure (Target.attribute recv (setterName n) args (t.hasKind .csend))) := by
    refine .bind (optional_placed hb ht 0) fun recv hrecv => .bind (.any _) fun n _ => ?_
    refine .bind (items_placed hb ht 2) fun args hargs => .pure (.of_parts rfl ?_)
    rw [Target.parts, placedAll_append]
    exact ⟨hrecv, hargs⟩
  unfold target
  split
  · exact .map (.any _) fun _ _ => .of_parts rfl (by simp [Target.parts])
  · exact .map (.any _) fun _ _ => .of_parts rfl (by simp [Target.parts])
  · refine .map (nameAt_text? 0) fun n hn => ⟨by simp [Target.parts], ?_⟩
    rw [Target.globals, List.forall_mem_singleton]
    exact ht.name ‹_› hn
  · exact .map (.any _) fun _ _ => .of_parts rfl (by simp [Target.parts])
  · refine .bind (constPath_placed hb ht 0) fun path hpath => ?_
    refine .map (.any _) fun _ _ => .of_parts rfl ?_
    rw [Target.parts]
    exact hpath
  · exact hattribute
  · exact hattribute
  · refine .bind (slot_placed hb ht 0) fun recv hrecv => ?_
    refine .bind (items_placed hb ht 1) fun args hargs => .pure (.of_parts rfl ?_)
    rw [Target.parts, placedAll_cons]
    exact ⟨hrecv, hargs⟩
  · exact manyTargets_placed hb ht
  · exact .malformed _ _

theorem place_placed (hb : below.Placed A) (ht : t.AssignsOnly A) :
    Gives site (fun p => PlacedAll A site.isSome p.parts ∧ ∀ n ∈ p.globals, A n)
      (place below t) := by
  -- a place that is not a global variable assigns none
  have hnone : ∀ n ∈ ([] : List String), A n := fun _ h => absurd h List.not_mem_nil
  have hindex (i : Nat) : Gives site (fun p => PlacedAll A site.isSome p.parts ∧
      ∀ n ∈ p.globals, A n) (do
      let recv ← slot below t 0
      let args ← items below t i
      Pure.pure (Place.index recv args)) :=
    .bind (slot_placed hb ht 0) fun recv hrecv => .bind (items_placed hb ht i) fun args hargs =>
      .pure ⟨placedAll_cons.mpr ⟨hrecv, hargs⟩, hnone⟩
  have hattribute : Gives site (fun p => PlacedAll A site.isSome p.parts ∧
      ∀ n ∈ p.globals, A n) (do
      let reader := readerName (← nameAt t 1)
      let recv ← optional below t 0
      Pure.pure (Place.attribute recv reader (setterName reader) (t.hasKind .csend))) :=
    .bind (.any _) fun _ _ => .bind (optional_placed hb ht 0) fun recv hrecv =>
      .pure ⟨hrecv, hnone⟩
  unfold place
  split
  · exact .map (.any _) fun _ _ => ⟨placedAll_nil, hnone⟩
  · exact .map (.any _) fun _ _ => ⟨placedAll_nil, hnone⟩
  · exact .map (nameAt_text? 0) fun n hn =>
      ⟨placedAll_nil, List.forall_mem_singleton.mpr (ht.name ‹_› hn)⟩
  · exact .map (.any _) fun _ _ => ⟨placedAll_nil, hnone⟩
  · exact .bind (constPath_placed hb ht 0) fun path hpath => .map (.any _) fun _ _ =>
      ⟨hpath, hnone⟩
  · exact hindex 1
  · exact hindex 1
  · split
    · exact hindex 2
    · exact hattribute
  · split
    · exact hindex 2
    · exact hattribute
  · exact .malformed _ _

end Build

end Garnet
