import Garnet.Proofs.Hierarchy.Sessions
import Garnet.Proofs.Hierarchy.Walks

/-!
# Lookup as a flat list

Where no module leads back to itself, the tables that a lookup passes form a list that can be
written down with no bound: what the receiver itself and, for a class, the classes above it have of
their own and from extensions, and then the classes of the receiver, each with its modules depth
first. A lookup answers with the first of these tables that shows the name.
-/

namespace Garnet.Store

open Relation

variable {s : Store} {c d m recv : Value} {name : String} {access : Access}

/-! ## Hierarchies where only inclusions could lead back -/

/-- `d` is a module that `c` includes. -/
def Includes (s : Store) (c d : Value) : Prop := d ∈ s.included c

theorem Hierarchy.transGen_includes (hs : s.Hierarchy) (hc : s.isModule c)
    (h : TransGen s.Above c d) : TransGen s.Includes c d := by
  have hboth : TransGen s.Includes c d ∧ s.isModule d := by
    induction h with
    | single h =>
      have hd := hs.mem_included_of_above hc h
      exact ⟨.single hd, hs.included_isModule hd⟩
    | tail _ h ih =>
      have hd := hs.mem_included_of_above ih.2 h
      exact ⟨ih.1.tail hd, hs.included_isModule hd⟩
  exact hboth.1

/-- A cycle is one of inclusions. -/
theorem Hierarchy.acyclic_of_includes (hs : s.Hierarchy)
    (hi : ∀ m, ¬TransGen s.Includes m m) : s.Acyclic :=
  fun m hm => hi m (hs.transGen_includes (hs.isModule_of_cycle hm) hm)

theorem Hierarchy.wellFounded_above (hs : s.Hierarchy) (hi : ∀ m, ¬TransGen s.Includes m m) :
    WellFounded fun d c => s.Above c d :=
  hs.wellFounded_iff.mpr (hs.acyclic_of_includes hi)

/-! ## The list -/

/-- A module and the modules that it includes, depth first, the most recent first. -/
def depthFirst (s : Store) (h : WellFounded fun d c => s.Above c d) (m : Value) : List Value :=
  m :: (s.included m).reverse.attach.flatMap fun d => s.depthFirst h d.1
termination_by WellFounded.wrap h m
decreasing_by exact .inr (List.mem_reverse.mp d.2)

theorem depthFirst_eq (h : WellFounded fun d c => s.Above c d) (m : Value) :
    s.depthFirst h m = m :: (s.included m).reverse.flatMap (s.depthFirst h) := by
  rw [depthFirst]
  simp only [List.flatMap_subtype, List.unattach_attach]

/-- A class and the classes above it. -/
def upward (s : Store) (h : WellFounded fun d c => s.Above c d) (c : Value) : List Value :=
  match _hb : s.base? c with
  | some b => c :: s.upward h b
  | none => [c]
termination_by WellFounded.wrap h c
decreasing_by exact .inl _hb

/-- The tables of a module and of the modules that it includes. -/
def modulesOf (s : Store) (h : WellFounded fun d c => s.Above c d) (extended : Bool) (m : Value) :
    List Step :=
  (s.depthFirst h m).map fun d => ⟨.instances d, extended⟩

/-- The receiver, with the classes above it when it is one, each followed by its extensions; then
the classes of the receiver. -/
def flatChain (s : Store) (h : WellFounded fun d c => s.Above c d) (recv : Value) : List Step :=
  ((if s.isClass recv then s.upward h recv else [recv]).flatMap fun v =>
    ⟨.own v, false⟩ :: (s.object v).extended.flatMap (s.modulesOf h true)) ++
  (s.upward h (s.classOf recv)).flatMap (s.modulesOf h false)

/-! ## The walks go through it -/

section Walks

variable (hs : s.Hierarchy) (ha : s.Acyclic) (h : WellFounded fun d c => s.Above c d)

include hs ha

theorem moduleSteps_eq_modulesOf (extended : Bool) (m : Value) :
    s.moduleSteps extended s.objects.size m = s.modulesOf h extended m := by
  induction m using WellFounded.induction h with
  | h m ih =>
    -- one more level visits the same tables, and takes the first step off
    rw [← moduleSteps_of_size_le hs ha (Nat.le_succ _), moduleSteps, modulesOf, depthFirst_eq,
      List.map_cons, List.map_flatMap]
    refine congrArg _ (List.flatMap_congr fun d hd => ?_)
    exact ih d (.inr (List.mem_reverse.mp hd))

theorem instanceSteps_eq_flatMap (c : Value) :
    s.instanceSteps s.objects.size c = (s.upward h c).flatMap (s.modulesOf h false) := by
  induction c using WellFounded.induction h with
  | h c ih =>
    rw [← instanceSteps_of_size_le hs ha (Nat.le_succ _), instanceSteps,
      moduleSteps_eq_modulesOf hs ha h, upward]
    split
    · rename_i b hb
      rw [hb, List.flatMap_cons]
      exact congrArg _ (ih b (.inl hb))
    · rename_i hb
      rw [hb, List.flatMap_cons]
      rfl

theorem ownSteps_eq_flatMap (v : Value) :
    s.ownSteps s.objects.size v =
      (if s.isClass v then s.upward h v else [v]).flatMap fun v =>
        ⟨.own v, false⟩ :: (s.object v).extended.flatMap (s.modulesOf h true) := by
  induction v using WellFounded.induction h with
  | h v ih =>
    rw [← ownSteps_of_size_le hs ha (Nat.le_succ _), ownSteps,
      funext (moduleSteps_eq_modulesOf hs ha h true)]
    by_cases hv : s.isClass v
    · rw [if_pos hv, if_pos hv, upward]
      split
      · rename_i b hb
        have hclass : s.isClass b := hs.base_isClass hb
        rw [hb, List.flatMap_cons]
        have hrest := ih b (.inl hb)
        rw [if_pos hclass] at hrest
        exact congrArg _ (congrArg _ hrest)
      · rename_i hb
        rw [hb, List.flatMap_cons]
        rfl
    · rw [if_neg hv, if_neg hv, List.flatMap_cons]
      rfl

theorem chain_eq_flatChain (recv : Value) : s.chain recv = s.flatChain h recv := by
  rw [chain, flatChain, ownSteps_eq_flatMap hs ha h, instanceSteps_eq_flatMap hs ha h]

end Walks

/-! ## What a lookup answers -/

/-- A table shows a caller with this access a method of the name: every method that the access
allows, and only public ones where it was reached through an extension. -/
structure Shows (s : Store) (name : String) (access : Access) (step : Step) (r : Resolved) :
    Prop where
  entry : (s.tableOf step.holder).lookup name = some (r.method, r.visibility)
  holder : r.holder = step.holder
  visible : if step.extended then r.visibility = .pub else access.allows r.visibility = true

theorem visible_iff {extended : Bool} {v : Visibility} :
    (access.allows v && !(extended && v != .pub)) = true ↔
      if extended then v = .pub else access.allows v = true := by
  cases extended <;> cases v <;> simp [Access.allows]

theorem shown_eq_some {step : Step} {r : Resolved} :
    s.shown name access step = some r ↔ s.Shows name access step r := by
  unfold shown
  constructor
  · intro h
    obtain ⟨⟨m, v⟩, hentry, hv⟩ := Option.bind_eq_some_iff.mp h
    dsimp only at hv
    split at hv
    · rename_i hvisible
      cases hv
      exact ⟨hentry, rfl, visible_iff.mp hvisible⟩
    · cases hv
  · rintro ⟨hentry, hholder, hvisible⟩
    rw [hentry, Option.bind_some]
    dsimp only
    rw [if_pos (visible_iff.mpr hvisible), ← hholder]

theorem shown_eq_none {step : Step} :
    s.shown name access step = none ↔ ∀ r, ¬s.Shows name access step r := by
  simp only [← shown_eq_some, ← Option.eq_none_iff_forall_ne_some]

theorem shown_eq_none_of_visibilityAt {step : Step} (h : s.visibilityAt name step = none) :
    s.shown name access step = none := by
  rw [shown, Option.map_eq_none_iff.mp h]
  rfl

theorem findMethod_eq_ok {r : Resolved} :
    s.findMethod recv name access = .ok r ↔
      (s.chain recv).findSome? (s.shown name access) = some r := by
  rw [findMethod_eq]
  cases (s.chain recv).findSome? (s.shown name access) with
  | some r' => simp
  | none => cases (s.chain recv).findSome? (s.visibilityAt name) <;> simp

theorem findMethod_eq_hidden {v : Visibility} :
    s.findMethod recv name access = .error (.hidden v) ↔
      (s.chain recv).findSome? (s.shown name access) = none ∧
        (s.chain recv).findSome? (s.visibilityAt name) = some v := by
  rw [findMethod_eq]
  cases (s.chain recv).findSome? (s.shown name access) with
  | some r' => simp
  | none => cases (s.chain recv).findSome? (s.visibilityAt name) <;> simp

theorem findMethod_eq_undefined :
    s.findMethod recv name access = .error .undefined ↔
      (s.chain recv).findSome? (s.visibilityAt name) = none := by
  have hnone : (s.chain recv).findSome? (s.visibilityAt name) = none →
      (s.chain recv).findSome? (s.shown name access) = none := by
    simp only [List.findSome?_eq_none_iff]
    exact fun h x hx => shown_eq_none_of_visibilityAt (h x hx)
  rw [findMethod_eq]
  cases hshown : (s.chain recv).findSome? (s.shown name access) with
  | some r =>
    have hsome : (s.chain recv).findSome? (s.visibilityAt name) ≠ none := fun h =>
      nomatch hshown.symm.trans (hnone h)
    exact iff_of_false nofun hsome
  | none => cases (s.chain recv).findSome? (s.visibilityAt name) <;> simp

/-- Where no module leads back to itself, a lookup finds the method that the first table of the flat
list shows. Where none shows one, it fails with the visibility of the first method of that name at
all. -/
theorem findMethod_flatChain (hs : s.Hierarchy) (hi : ∀ m, ¬TransGen s.Includes m m)
    (recv : Value) (name : String) (access : Access) :
    let steps := s.flatChain (hs.wellFounded_above hi) recv
    (∀ r, s.findMethod recv name access = .ok r ↔
      ∃ before step after, steps = before ++ step :: after ∧ s.Shows name access step r ∧
        ∀ x ∈ before, ∀ r', ¬s.Shows name access x r') ∧
    (∀ v, s.findMethod recv name access = .error (.hidden v) ↔
      (∀ x ∈ steps, ∀ r, ¬s.Shows name access x r) ∧
      ∃ before step after, steps = before ++ step :: after ∧ s.visibilityAt name step = some v ∧
        ∀ x ∈ before, s.visibilityAt name x = none) ∧
    (s.findMethod recv name access = .error .undefined ↔
      ∀ x ∈ steps, s.visibilityAt name x = none) := by
  intro steps
  have hchain : s.chain recv = steps :=
    chain_eq_flatChain hs (hs.acyclic_of_includes hi) (hs.wellFounded_above hi) recv
  refine ⟨fun r => ?_, fun v => ?_, ?_⟩
  · rw [findMethod_eq_ok, hchain, List.findSome?_eq_some_iff]
    simp only [shown_eq_some, shown_eq_none]
  · rw [findMethod_eq_hidden, hchain, List.findSome?_eq_none_iff, List.findSome?_eq_some_iff]
    simp only [shown_eq_none]
  · rw [findMethod_eq_undefined, hchain, List.findSome?_eq_none_iff]

/-- An instance of a class that includes two modules, the second of which includes a third; the
instance is extended by the second. The second defines `m` as private, the other two as public. -/
def extendedInstance : Store :=
  let answering := fun v text => ({} : MethodTable).insert "m" ⟨"m", .answer text, true⟩ v
  let module := fun name included methods =>
    ({ name, isModule := true, base := none, alloc := .none, included, methods } : ModuleInfo)
  let mixed : ModuleInfo :=
    { name := "A", isModule := false, base := none, alloc := .object, included := [⟨1⟩, ⟨2⟩] }
  { config := {}
    objects :=
      #[{ cls := ⟨0⟩, payload := .module mixed },
        { cls := ⟨0⟩, payload := .module (module "M" [] (answering .pub "m")) },
        { cls := ⟨0⟩, payload := .module (module "N" [⟨3⟩] (answering .priv "n")) },
        { cls := ⟨0⟩, payload := .module (module "P" [] (answering .pub "p")) },
        { cls := ⟨0⟩, payload := .object, extended := [⟨2⟩] }]
    scopes := #[{ kind := .top, parent := none }]
    frames := [.outermost]
    scopeStack := [⟨0⟩] }

/-- Every module of it stands behind what includes it. -/
theorem link?_extendedInstance :
    ∀ i < 5, ∀ l ∈ extendedInstance.link? ⟨i⟩, l.base = none ∧
      ∀ m ∈ l.included, extendedInstance.isModule m ∧ i < m.index := by
  decide

theorem extendedInstance_link {c : Value} {l : Link} (h : extendedInstance.link? c = some l) :
    l.base = none ∧ ∀ m ∈ l.included, extendedInstance.isModule m ∧ c.index < m.index :=
  link?_extendedInstance c.index (index_lt_of_link? (Option.isSome_of_eq_some h)) l h

theorem extendedInstance_hierarchy : extendedInstance.Hierarchy := by
  refine ⟨by decide, fun h => ⟨fun hb => ?_, fun _ => (extendedInstance_link h).1, fun hm => ?_⟩,
    fun h hb => ?_⟩
  · cases (extendedInstance_link h).1.symm.trans hb
  · exact ((extendedInstance_link h).2 _ hm).1
  · cases (extendedInstance_link h).1.symm.trans hb

theorem extendedInstance_lt {c d : Value} (h : TransGen extendedInstance.Includes c d) :
    c.index < d.index := by
  have hlt : ∀ {c d}, extendedInstance.Includes c d → c.index < d.index := fun h =>
    have ⟨_, hl, hd⟩ := mem_included.mp h
    ((extendedInstance_link hl).2 _ hd).2
  exact TransGen.trans_induction_on (motive := fun {c d} _ => c.index < d.index) h hlt
    fun _ _ => Nat.lt_trans

theorem extendedInstance_includes (m : Value) : ¬TransGen extendedInstance.Includes m m :=
  fun hm => Nat.lt_irrefl _ (extendedInstance_lt hm)

theorem findMethod_flatChain_extended :
    extendedInstance.Hierarchy ∧ (∀ m, ¬TransGen extendedInstance.Includes m m) ∧
      extendedInstance.findMethod ⟨4⟩ "m" .all =
        .ok ⟨⟨"m", .answer "p", true⟩, .instances ⟨3⟩, .pub⟩ := by
  have hs : extendedInstance.Hierarchy := extendedInstance_hierarchy
  have hi : ∀ m, ¬TransGen extendedInstance.Includes m m := extendedInstance_includes
  refine ⟨hs, hi, ((findMethod_flatChain hs hi ⟨4⟩ "m" .all).1 _).mpr ?_⟩
  rw [← chain_eq_flatChain hs (hs.acyclic_of_includes hi)]
  -- the extension itself defines the name, but not as public
  refine ⟨[⟨.own ⟨4⟩, false⟩, ⟨.instances ⟨2⟩, true⟩], ⟨.instances ⟨3⟩, true⟩,
    [⟨.instances ⟨0⟩, false⟩, ⟨.instances ⟨2⟩, false⟩, ⟨.instances ⟨3⟩, false⟩,
      ⟨.instances ⟨1⟩, false⟩], by decide, ?_, ?_⟩
  · exact shown_eq_some.mp rfl
  · have hnone : ∀ x ∈ [(⟨.own ⟨4⟩, false⟩ : Step), ⟨.instances ⟨2⟩, true⟩],
        (extendedInstance.shown "m" .all x).isNone := by decide
    exact fun x hx => shown_eq_none.mp (Option.isNone_iff_eq_none.mp (hnone x hx))

end Garnet.Store
