import Garnet.Proofs.Hierarchy.Order
import Garnet.Proofs.Lookup.Tables

/-!
# Kinds and inclusions

A value is of the kinds that a lookup on it comes to, and an inclusion adds kinds to it.
-/

/-!
## The methods of a kind

The kinds of a value are its class, its extensions and what is above them. A lookup on the value
comes to the instance methods of each of its kinds, so that a public method of a kind is answered,
by itself or by one that is nearer.
-/

namespace Garnet.Store

open Relation

variable {s : Store} {v m : Value} {name : String} {d : MethodDef}

theorem mem_modulesOf (h : WellFounded fun d c => s.Above c d) {extended : Bool} {c : Value} :
    ⟨.instances m, extended⟩ ∈ s.modulesOf h extended c ↔ ReflTransGen s.Includes c m := by
  rw [modulesOf, List.mem_map, ← mem_depthFirst h]
  simp only [Step.mk.injEq, Holder.instances.injEq, and_true, exists_eq_right]

/-- What is above a module are the modules that inclusions lead to. -/
theorem Hierarchy.reflTransGen_above_iff (hs : s.Hierarchy) {e : Value} (he : s.isModule e) :
    ReflTransGen s.Above e m ↔ ReflTransGen s.Includes e m := by
  refine ⟨fun h => ?_, ReflTransGen.mono (fun _ _ => .inr) _ _⟩
  rcases reflTransGen_iff_eq_or_transGen.mp h with rfl | h
  · exact .refl
  · exact (hs.transGen_includes he h).to_reflTransGen

/-- The kinds of a value are the classes and modules whose instance methods a lookup comes to by way
of the extensions of the value or by way of its class. -/
theorem isA_iff_mem_modulesOf (hs : s.Hierarchy) (ha : s.Acyclic)
    (h : WellFounded fun d c => s.Above c d)
    (hmodules : ∀ e ∈ (s.object v).extended, s.isModule e) :
    s.isA v m ↔
      ⟨.instances m, true⟩ ∈ (s.object v).extended.flatMap (s.modulesOf h true) ∨
      ⟨.instances m, false⟩ ∈ (s.upward h (s.classOf v)).flatMap (s.modulesOf h false) := by
  rw [isA_iff hs ha, inherits_iff hs ha, hs.reflTransGen_above, or_comm, List.mem_flatMap,
    List.mem_flatMap]
  simp only [mem_modulesOf, mem_upward]
  refine or_congr (exists_congr fun e => and_congr_right fun he => ?_) Iff.rfl
  rw [inherits_iff hs ha, hs.reflTransGen_above_iff (hmodules e he)]

/-- A lookup on a value comes to the instance methods of each of its kinds. -/
theorem exists_mem_flatChain_of_isA (hs : s.Hierarchy) (ha : s.Acyclic)
    (h : WellFounded fun d c => s.Above c d) (hmodules : ∀ e ∈ (s.object v).extended, s.isModule e)
    (hkind : s.isA v m) : ∃ step ∈ s.flatChain h v, step.holder = .instances m := by
  rcases (isA_iff_mem_modulesOf hs ha h hmodules).mp hkind with hext | hcls
  · refine ⟨⟨.instances m, true⟩, List.mem_append_left _ (List.mem_flatMap.mpr ⟨v, ?_, ?_⟩), rfl⟩
    · split
      · exact (mem_upward h).mpr .refl
      · exact List.mem_singleton_self v
    · exact List.mem_cons_of_mem _ hext
  · exact ⟨⟨.instances m, false⟩, List.mem_append_right _ hcls, rfl⟩

/-- A public method is shown to every caller, also through an extension. -/
theorem shows_of_pub {step : Step} (access : Access)
    (hentry : (s.tableOf step.holder).lookup name = some (d, .pub)) :
    s.Shows name access step ⟨d, step.holder, .pub⟩ := by
  refine ⟨hentry, rfl, ?_⟩
  split <;> rfl

/-- Where no module leads back to itself, a public method of a kind of a value is found by a public
call on the value, unless a nearer table has a public method of that name, which is found then. -/
theorem findMethod_of_isA (hs : s.Hierarchy) (hi : ∀ m, ¬TransGen s.Includes m m)
    (hmodules : ∀ e ∈ (s.object v).extended, s.isModule e) (hkind : s.isA v m)
    (hentry : (s.tableOf (.instances m)).lookup name = some (d, .pub)) :
    ∃ r, s.findMethod v name .onlyPublic = .ok r ∧
      ∃ before step after, s.flatChain (hs.wellFounded_above hi) v = before ++ step :: after ∧
        s.Shows name .onlyPublic step r ∧
        .instances m ∈ (step :: after).map (·.holder) ∧
        ∀ x ∈ before, x.holder ≠ .instances m ∧ ∀ r', ¬s.Shows name .onlyPublic x r' := by
  have ha : s.Acyclic := hs.acyclic_of_includes hi
  have h := hs.wellFounded_above hi
  obtain ⟨x, hx, hholder⟩ := exists_mem_flatChain_of_isA hs ha h hmodules hkind
  have hshown {y : Step} (hy : y.holder = .instances m) : ∃ r, s.Shows name .onlyPublic y r := by
    rw [← hy] at hentry
    exact ⟨_, shows_of_pub _ hentry⟩
  have hsome : ((s.flatChain h v).findSome? (s.shown name .onlyPublic)).isSome := by
    obtain ⟨r, hr⟩ := hshown hholder
    exact List.findSome?_isSome_iff.mpr ⟨x, hx, Option.isSome_of_eq_some (shown_eq_some.mpr hr)⟩
  obtain ⟨r, hr⟩ := Option.isSome_iff_exists.mp hsome
  obtain ⟨before, step, after, hsteps, hstep, hbefore⟩ := List.findSome?_eq_some_iff.mp hr
  have hnone : ∀ y ∈ before, y.holder ≠ .instances m ∧ ∀ r', ¬s.Shows name .onlyPublic y r' := by
    intro y hy
    have hy := shown_eq_none.mp (hbefore y hy)
    refine ⟨fun hm => ?_, hy⟩
    obtain ⟨r', hr'⟩ := hshown hm
    exact hy r' hr'
  refine ⟨r, ?_, before, step, after, hsteps, shown_eq_some.mp hstep, ?_, hnone⟩
  · rw [findMethod_eq_ok, chain_eq_flatChain hs ha h, hr]
  · rw [hsteps, List.mem_append] at hx
    exact List.mem_map.mpr ⟨x, hx.resolve_left fun hx => (hnone x hx).1 hholder, hholder⟩

/-- The extension of the instance hides the name; the module that it includes defines it for all. -/
theorem findMethod_of_isA_extended :
    extendedInstance.isA ⟨4⟩ ⟨3⟩ ∧
      ∃ r, extendedInstance.findMethod ⟨4⟩ "m" .onlyPublic = .ok r := by
  have hs : extendedInstance.Hierarchy := extendedInstance_hierarchy
  have hkind : extendedInstance.isA ⟨4⟩ ⟨3⟩ := by decide +kernel
  have hmodules : ∀ e ∈ (extendedInstance.object ⟨4⟩).extended, extendedInstance.isModule e := by
    decide
  have hentry : (extendedInstance.tableOf (.instances ⟨3⟩)).lookup "m" =
      some (⟨"m", .answer "p", true⟩, .pub) := rfl
  obtain ⟨r, hr, _⟩ := findMethod_of_isA hs extendedInstance_includes hmodules hkind hentry
  exact ⟨hkind, r, hr⟩

end Garnet.Store

/-!
## What an inclusion does to the order of a lookup

A module that is included comes right after the class or module that includes it, together with the
modules that it includes itself, wherever a lookup comes to that class or module. The other tables
keep their order.
-/

namespace Garnet.Store

open Relation

variable {s t : Store} {c d m v x : Value} {name : String} {access : Access}

/-! ### The tables that a walk visits -/

/-- Keeps every table that a walk comes to, and ends no walk. -/
def collect (seen : List Step) (step : Step) : Except Empty (List Step) := .ok (seen ++ [step])

def collected : Except Empty (List Step) → List Holder
  | .ok steps => steps.map (·.holder)

/-- The tables that a walk over a module visits, in order. -/
def moduleHolders (s : Store) (m : Value) : List Holder :=
  collected (s.walkModule collect false s.objects.size m [])

/-- The tables that a walk over the instance methods of a class visits, in order. -/
def instanceHolders (s : Store) (c : Value) : List Holder :=
  collected (s.walkInstances collect s.objects.size c [])

theorem collected_foldlM (steps : List Step) :
    collected (steps.foldlM collect []) = steps.map (·.holder) :=
  congrArg collected (foldlM_collect steps [])

section Flat

variable (hs : s.Hierarchy) (ha : s.Acyclic) (h : WellFounded fun d c => s.Above c d)

theorem holders_modulesOf (extended : Bool) (m : Value) :
    (s.modulesOf h extended m).map (·.holder) = (s.depthFirst h m).map .instances := by
  rw [modulesOf, List.map_map]
  rfl

include hs ha

theorem moduleHolders_eq (m : Value) : s.moduleHolders m = (s.depthFirst h m).map .instances := by
  rw [moduleHolders, walkModule_eq_foldlM, collected_foldlM, moduleSteps_eq_modulesOf hs ha h,
    holders_modulesOf]

theorem instanceHolders_eq (c : Value) :
    s.instanceHolders c = (s.upward h c).flatMap s.moduleHolders := by
  rw [instanceHolders, walkInstances_eq_foldlM, collected_foldlM, instanceSteps_eq_flatMap hs ha h,
    List.map_flatMap, funext (moduleHolders_eq hs ha h)]
  simp only [holders_modulesOf]

omit h

theorem moduleHolders_cons (m : Value) :
    s.moduleHolders m = .instances m :: (s.included m).reverse.flatMap s.moduleHolders := by
  have h := hs.wellFounded_iff.mpr ha
  rw [moduleHolders_eq hs ha h, depthFirst_eq, List.map_cons, List.map_flatMap,
    funext (moduleHolders_eq hs ha h)]

theorem instanceHolders_append (c : Value) :
    s.instanceHolders c =
      s.moduleHolders c ++ ((s.base? c).map s.instanceHolders).getD [] := by
  have h := hs.wellFounded_iff.mpr ha
  rw [instanceHolders_eq hs ha h, upward]
  split
  · rename_i b hb
    rw [hb, List.flatMap_cons, ← instanceHolders_eq hs ha h]
    rfl
  · rename_i hb
    rw [hb, List.flatMap_cons]
    rfl

theorem mem_moduleHolders : .instances d ∈ s.moduleHolders m ↔ ReflTransGen s.Includes m d := by
  have h := hs.wellFounded_iff.mpr ha
  rw [moduleHolders_eq hs ha h, List.mem_map_of_injective fun _ _ => Holder.instances.inj,
    mem_depthFirst]

theorem mem_instanceHolders :
    .instances d ∈ s.instanceHolders c ↔ ReflTransGen s.Above c d := by
  have h := hs.wellFounded_iff.mpr ha
  rw [instanceHolders_eq hs ha h, List.mem_flatMap, hs.reflTransGen_above]
  simp only [mem_upward, mem_moduleHolders hs ha]

/-- A class or module comes once only on its own way up. -/
theorem not_mem_above (c : Value) :
    .instances c ∉ (s.included c).reverse.flatMap s.moduleHolders ++
      ((s.base? c).map s.instanceHolders).getD [] := by
  intro hmem
  rcases List.mem_append.mp hmem with hmem | hmem
  · obtain ⟨d, hd, hmem⟩ := List.mem_flatMap.mp hmem
    have hcd : s.Above c d := .inr (List.mem_reverse.mp hd)
    have hdc : ReflTransGen s.Above d c :=
      ReflTransGen.mono (fun _ _ => .inr) _ _ ((mem_moduleHolders hs ha).mp hmem)
    exact ha c (.head' hcd hdc)
  · cases hb : s.base? c with
    | none =>
      rw [hb] at hmem
      cases hmem
    | some b =>
      rw [hb] at hmem
      exact ha c (.head' (.inl hb) ((mem_instanceHolders hs ha).mp hmem))

end Flat

/-! ### Lists with something put in after some members -/

section Insertion

variable {α : Type} {f : α → List α} {before after : List α} {a : α}

theorem flatMap_insert_of_forall (h : ∀ x ∈ before, f x = []) :
    (before.flatMap fun x => x :: f x) = before := by
  rw [List.flatMap_congr (g := fun x => [x]) fun x hx => congrArg (x :: ·) (h x hx),
    List.flatMap_singleton']

theorem flatMap_insert_split (h : ∀ x ∈ before, f x = []) :
    ((before ++ a :: after).flatMap fun x => x :: f x) =
      before ++ a :: (f a ++ after.flatMap fun x => x :: f x) := by
  rw [List.flatMap_append, flatMap_insert_of_forall h, List.flatMap_cons, List.cons_append]

end Insertion

/-! ### An inclusion -/

/-- The second store is the first after `c` has included `m`, which it did not include before. -/
structure Included (s t : Store) (c m : Value) : Prop where
  included : ∀ v, t.included v = if v = c then s.included c ++ [m] else s.included v
  base? : ∀ v, t.base? v = s.base? v
  isClass : ∀ v, t.isClass v = s.isClass v
  extended : ∀ v, (t.object v).extended = (s.object v).extended
  classOf : ∀ v, t.classOf v = s.classOf v
  tableOf : ∀ h, t.tableOf h = s.tableOf h

theorem included_of_module? {i : ModuleInfo} (hc : s.module? c = some i) :
    s.included c = i.included := by
  rw [included, hc]
  rfl

theorem includeModule_of_mem (hs : s.Hierarchy) (hm : m ∈ s.included c) :
    s.includeModule c m = .ok s := by
  have hmodule : s.isModule m = true := hs.included_isModule hm
  obtain ⟨l, hl, -⟩ := mem_included.mp hm
  obtain ⟨i, hi⟩ :=
    Option.isSome_iff_exists.mp (module?_isSome.trans (Option.isSome_of_eq_some hl))
  rw [included_of_module? hi, ← List.contains_iff_mem] at hm
  simp only [includeModule, hi, hmodule, hm, Bool.not_true, Bool.false_eq_true, if_false, if_true]

theorem included_modifyModule {i : ModuleInfo} (hi : s.module? c = some i) :
    Included s (s.modifyModule c fun i => { i with included := i.included ++ [m] }) c m := by
  have hmodule (v : Value) := module?_modifyModule (s := s) (c := c) (v := v)
    fun i => { i with included := i.included ++ [m] }
  have hkept {β : Type} (g : Object → β) (hg : ∀ o payload, g { o with payload } = g o)
      (v : Value) :
      g ((s.modifyModule c fun i => { i with included := i.included ++ [m] }).object v) =
        g (s.object v) := by
    refine keep_modifyObject g ?_
    split
    · exact hg _ _
    · rfl
  -- what is read of the class, apart from what it includes, is as it was
  have hread {β : Type} (g : Option ModuleInfo → β)
      (hg : g (some { i with included := i.included ++ [m] }) = g (some i)) (v : Value) :
      g ((s.modifyModule c fun i => { i with included := i.included ++ [m] }).module? v) =
        g (s.module? v) := by
    rw [hmodule, hi]
    split
    · rename_i hv
      rw [hv, hi]
      exact hg
    · rfl
  refine ⟨fun v => ?_, hread (·.bind (·.base)) rfl, fun v => ?_, hkept (·.extended) fun _ _ => rfl,
    hkept (·.cls) fun _ _ => rfl, fun h => ?_⟩
  · rw [Store.included, hmodule, hi]
    split
    · rw [included_of_module? hi]
      rfl
    · rfl
  · rw [isClass_eq_link?, isClass_eq_link?, ← module?_map_link, ← module?_map_link]
    exact hread (fun i => (i.map (·.link)).any (!·.isModule)) rfl v
  · cases h with
    | own v => exact hkept (·.own) (fun _ _ => rfl) v
    | instances v => exact hread (fun i => (i.map (·.methods)).getD {}) rfl v

theorem exists_includeModule (hc : s.isModuleLike c) (hm : s.isModule m) (hnew : m ∉ s.included c) :
    ∃ t, s.includeModule c m = .ok t ∧ Included s t c m := by
  obtain ⟨i, hi⟩ := Option.isSome_iff_exists.mp hc
  have hcontains : i.included.contains m = false := by
    rw [Bool.eq_false_iff, Ne, List.contains_iff_mem, ← included_of_module? hi]
    exact hnew
  refine ⟨_, ?_, included_modifyModule hi⟩
  simp only [includeModule, hi, hm, hcontains, Bool.not_true, Bool.false_eq_true, if_false]

namespace Included

variable (hst : Included s t c m)

include hst

theorem shown : t.shown name access = s.shown name access := by
  funext step
  rw [Store.shown, Store.shown, hst.tableOf]

section Flat

variable (h : WellFounded fun d c => s.Above c d) (h' : WellFounded fun d c => t.Above c d)

theorem upward (d : Value) : t.upward h' d = s.upward h d := by
  induction d using WellFounded.induction h with
  | h d ih =>
    rw [Store.upward, Store.upward, hst.base?]
    cases hb : s.base? d with
    | none => rfl
    | some b => exact congrArg _ (ih b (.inl hb))

/-- A module that does not lead to `c` leads to the same modules as before. -/
theorem depthFirst_of_not_reaches (hx : ¬ReflTransGen s.Includes x c) :
    t.depthFirst h' x = s.depthFirst h x := by
  induction x using WellFounded.induction h with
  | h x ih =>
    have hne : x ≠ c := fun he => hx (he ▸ .refl)
    rw [depthFirst_eq, depthFirst_eq, hst.included, if_neg hne]
    refine congrArg _ (List.flatMap_congr fun d hd => ?_)
    have hxd : s.Includes x d := List.mem_reverse.mp hd
    exact ih d (.inr hxd) fun hdc => hx (.head hxd hdc)

/-- After each `c` on the way come `m` and the modules that it includes. -/
theorem depthFirst (hreach : ¬ReflTransGen s.Includes m c) (d : Value) :
    t.depthFirst h' d =
      (s.depthFirst h d).flatMap fun x => x :: if x = c then s.depthFirst h m else [] := by
  induction d using WellFounded.induction h with
  | h d ih =>
    have hrest : (s.included d).reverse.flatMap (t.depthFirst h') =
        ((s.included d).reverse.flatMap (s.depthFirst h)).flatMap
          fun x => x :: if x = c then s.depthFirst h m else [] := by
      rw [List.flatMap_assoc]
      exact List.flatMap_congr fun x hx => ih x (.inr (List.mem_reverse.mp hx))
    rw [depthFirst_eq h' d, depthFirst_eq h d, List.flatMap_cons, ← hrest, hst.included]
    split
    · rename_i hd
      rw [hd, List.reverse_append, List.reverse_singleton, List.singleton_append, List.flatMap_cons,
        hst.depthFirst_of_not_reaches h h' hreach, List.cons_append]
    · rfl

theorem modulesOf (hreach : ¬ReflTransGen s.Includes m c) (extended : Bool) (d : Value) :
    t.modulesOf h' extended d = (s.modulesOf h extended d).flatMap fun step =>
      step :: if step.holder = .instances c then s.modulesOf h step.extended m else [] := by
  rw [Store.modulesOf, Store.modulesOf, hst.depthFirst h h' hreach, List.map_flatMap,
    List.flatMap_map]
  refine List.flatMap_congr fun x _ => ?_
  by_cases hx : x = c
  · simp only [hx, if_true, List.map_cons, Store.modulesOf]
  · simp only [hx, if_false, List.map_cons, List.map_nil, Holder.instances.injEq]

/-- The same holds of every table that a lookup passes; those of an extension show public methods
only, and so do those that come after it. -/
theorem flatChain (hreach : ¬ReflTransGen s.Includes m c) (v : Value) :
    t.flatChain h' v = (s.flatChain h v).flatMap fun step =>
      step :: if step.holder = .instances c then s.modulesOf h step.extended m else [] := by
  rw [Store.flatChain, Store.flatChain, hst.isClass, hst.classOf, hst.upward h h', hst.upward h h',
    List.flatMap_append, List.flatMap_assoc, List.flatMap_assoc]
  congr 1
  · refine List.flatMap_congr fun w _ => ?_
    rw [List.flatMap_cons, if_neg Holder.own_ne_instances, hst.extended, List.flatMap_assoc]
    refine congrArg _ (List.flatMap_congr fun e _ => ?_)
    exact hst.modulesOf h h' hreach true e
  · exact List.flatMap_congr fun w _ => hst.modulesOf h h' hreach false w

end Flat

/-- The tables of instance methods, with those of the new module after each table of `c`. -/
theorem instanceHolders (hs : s.Hierarchy) (ha : s.Acyclic) (ht : t.Hierarchy) (ha' : t.Acyclic)
    (hreach : ¬ReflTransGen s.Includes m c) (d : Value) :
    t.instanceHolders d = (s.instanceHolders d).flatMap fun h =>
      h :: if h = .instances c then s.moduleHolders m else [] := by
  have h := hs.wellFounded_iff.mpr ha
  have h' := ht.wellFounded_iff.mpr ha'
  rw [instanceHolders_eq hs ha h, instanceHolders_eq ht ha' h', hst.upward h h', List.flatMap_assoc]
  refine List.flatMap_congr fun b _ => ?_
  rw [moduleHolders_eq ht ha' h', moduleHolders_eq hs ha h, moduleHolders_eq hs ha h,
    hst.depthFirst h h' hreach, List.map_flatMap, List.flatMap_map]
  refine List.flatMap_congr fun x _ => ?_
  by_cases hx : x = c
  · simp only [hx, if_true, List.map_cons]
  · simp only [hx, if_false, List.map_cons, List.map_nil, Holder.instances.injEq]

/-- What a lookup finds in the table of `c` it finds there afterwards. Where a lookup also comes to
`c` through an extension, this is so for public methods. -/
theorem findMethod (hs : s.Hierarchy) (ha : s.Acyclic) (ht : t.Hierarchy) (ha' : t.Acyclic)
    (hreach : ¬ReflTransGen s.Includes m c) {r : Resolved}
    (hfind : s.findMethod v name access = .ok r) (hholder : r.holder = .instances c)
    (hvisible : r.visibility = .pub ∨
      ∀ step ∈ s.chain v, step.holder = .instances c → step.extended = false) :
    t.findMethod v name access = .ok r := by
  have h := hs.wellFounded_iff.mpr ha
  have h' := ht.wellFounded_iff.mpr ha'
  rw [findMethod_eq_ok] at hfind ⊢
  obtain ⟨before, step, after, hsteps, hstep, hbefore⟩ := List.findSome?_eq_some_iff.mp hfind
  have hshows := shown_eq_some.mp hstep
  -- no table of `c` comes before the one that shows the method
  have hnone : ∀ x ∈ before, x.holder ≠ .instances c := by
    intro x hx hxc
    have hsame : x.holder = step.holder := hxc.trans (hholder.symm.trans hshows.holder)
    refine shown_eq_none.mp (hbefore x hx) r
      ⟨hsame ▸ hshows.entry, hshows.holder.trans hsame.symm, ?_⟩
    rcases hvisible with hpub | hplain
    · rw [hpub]
      split <;> rfl
    · have hmem : ∀ y ∈ before ++ step :: after, y.holder = .instances c → y.extended = false :=
        hsteps ▸ hplain
      have hv := hshows.visible
      rw [hmem step (by simp) (hsame ▸ hxc)] at hv
      rw [hmem x (List.mem_append_left _ hx) hxc]
      exact hv
  rw [hst.shown, chain_eq_flatChain ht ha' h', hst.flatChain h h' hreach,
    ← chain_eq_flatChain hs ha h, hsteps, flatMap_insert_split fun x hx => if_neg (hnone x hx),
    List.findSome?_append, List.findSome?_eq_none_iff.mpr hbefore, List.findSome?_cons, hstep]
  rfl

end Included

/-! ### Where the module comes to stand -/

/-- Where no module leads back to itself, a class or module that includes another module, which does
not lead to it, has it right behind itself in every lookup, with what that module includes, and
everything else stays in order. So its own methods stay in front of those of the new module, which
come before the modules that it had included before and the class above it. To include a module
again changes nothing. -/
theorem instanceHolders_includeModule (hs : s.Hierarchy) (hi : ∀ m, ¬TransGen s.Includes m m)
    (hc : s.isModuleLike c) (hm : s.isModule m) (hnew : m ∉ s.included c)
    (hreach : ¬ReflTransGen s.Includes m c) :
    (∀ d ∈ s.included c, s.includeModule c d = .ok s) ∧
    s.moduleHolders m = .instances m :: (s.included m).reverse.flatMap s.moduleHolders ∧
    ∃ t, s.includeModule c m = .ok t ∧
      (∀ d, t.instanceHolders d = (s.instanceHolders d).flatMap fun h =>
        h :: if h = .instances c then s.moduleHolders m else []) ∧
      t.instanceHolders c = .instances c :: (s.moduleHolders m ++
        ((s.included c).reverse.flatMap s.moduleHolders ++
          ((s.base? c).map s.instanceHolders).getD [])) ∧
      (∀ d (p : MethodTable → Bool),
        (s.instanceHolders d).find? (fun h => p (s.tableOf h)) = some (.instances c) →
        (t.instanceHolders d).find? (fun h => p (t.tableOf h)) = some (.instances c)) ∧
      ∀ v name access r, s.findMethod v name access = .ok r → r.holder = .instances c →
        (r.visibility = .pub ∨
          ∀ step ∈ s.chain v, step.holder = .instances c → step.extended = false) →
        t.findMethod v name access = .ok r := by
  have ha : s.Acyclic := hs.acyclic_of_includes hi
  obtain ⟨t, ht, hst⟩ := exists_includeModule hc hm hnew
  have hlinked := relinked_includeModule ht
  have hht : t.Hierarchy := hlinked.hierarchy hs
  have hat : t.Acyclic := by
    refine (hlinked.acyclic_iff hs).mpr ⟨ha, fun target module he => ?_⟩
    cases he
    exact fun h => hreach ((hs.reflTransGen_above_iff hm).mp h)
  have hsplice := hst.instanceHolders hs ha hht hat hreach
  refine ⟨fun d hd => includeModule_of_mem hs hd, moduleHolders_cons hs ha m, t, ht, hsplice, ?_,
    fun d p hp => ?_, fun v name access r hr hholder hvisible =>
      hst.findMethod hs ha hht hat hreach hr hholder hvisible⟩
  · have hfirst : s.instanceHolders c = .instances c ::
        ((s.included c).reverse.flatMap s.moduleHolders ++
          ((s.base? c).map s.instanceHolders).getD []) := by
      rw [instanceHolders_append hs ha, moduleHolders_cons hs ha c, List.cons_append]
    rw [hsplice, hfirst, List.flatMap_cons, if_pos rfl, List.cons_append, flatMap_insert_of_forall]
    intro h hh
    refine if_neg fun he => not_mem_above hs ha c ?_
    rw [← he]
    exact hh
  · obtain ⟨hpc, before, after, hd, hbefore⟩ := List.find?_eq_some_iff_append.mp hp
    have hnone : ∀ h ∈ before, (if h = .instances c then s.moduleHolders m else []) = [] := by
      refine fun h hh => if_neg fun he => ?_
      have hfalse := hbefore h hh
      rw [he, hpc] at hfalse
      cases hfalse
    rw [funext hst.tableOf, hsplice, hd, flatMap_insert_split hnone]
    exact List.find?_eq_some_iff_append.mpr ⟨hpc, before, _, rfl, hbefore⟩

/-- A module of the class includes another module of the class, which includes a third. -/
theorem instanceHolders_includeModule_extended :
    ∃ t, extendedInstance.includeModule ⟨1⟩ ⟨2⟩ = .ok t ∧
      extendedInstance.instanceHolders ⟨0⟩ = [⟨0⟩, ⟨2⟩, ⟨3⟩, ⟨1⟩].map .instances ∧
      t.instanceHolders ⟨0⟩ = [⟨0⟩, ⟨2⟩, ⟨3⟩, ⟨1⟩, ⟨2⟩, ⟨3⟩].map .instances := by
  have hreach : ¬ReflTransGen extendedInstance.Includes ⟨2⟩ ⟨1⟩ := by
    intro h
    rcases reflTransGen_iff_eq_or_transGen.mp h with he | h
    · cases he
    · exact absurd (extendedInstance_lt h) (by decide)
  obtain ⟨-, -, t, ht, hsplice, -⟩ := instanceHolders_includeModule extendedInstance_hierarchy
    extendedInstance_includes (c := ⟨1⟩) (m := ⟨2⟩) rfl rfl (by decide) hreach
  refine ⟨t, ht, rfl, ?_⟩
  rw [hsplice]
  rfl

end Garnet.Store
