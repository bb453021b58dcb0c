import Garnet.Proofs.Heap
import Garnet.Proofs.Lookup.Chain

/-!
# The links between classes

A lookup goes from a class to its base and to the modules it includes. These links are all that it
reads of a class apart from the table of methods, so that stores with the same links have the same
walks. Most changes of an object leave its link alone.
-/

namespace Garnet

/-- Where a lookup goes from a class or module. -/
structure Link where
  isModule : Bool
  base : Option Value
  included : List Value
  deriving DecidableEq

def ModuleInfo.link (m : ModuleInfo) : Link := ⟨m.isModule, m.base, m.included⟩

def Payload.link? : Payload → Option Link
  | .module m => some m.link
  | _ => none

namespace Store

def link? (s : Store) (v : Value) : Option Link := (s.payload v).link?

variable {s t : Store} {v c : Value}

theorem module?_map_link : (s.module? v).map (·.link) = s.link? v := by
  unfold module? link?
  cases s.payload v <;> rfl

theorem module?_isSome : (s.module? v).isSome = (s.link? v).isSome := by
  rw [← module?_map_link, Option.isSome_map]

/-! ## What is read off a link -/

theorem included_eq_link? : s.included v = ((s.link? v).map (·.included)).getD [] := by
  unfold included module? link?
  cases s.payload v <;> rfl

theorem base?_eq_link? : s.base? v = (s.link? v).bind (·.base) := by
  unfold base? module? link?
  cases s.payload v <;> rfl

theorem isModule_eq_link? : s.isModule v = (s.link? v).any (·.isModule) := by
  unfold isModule module? link?
  cases s.payload v <;> rfl

theorem isClass_eq_link? : s.isClass v = (s.link? v).any (!·.isModule) := by
  unfold isClass module? link?
  cases s.payload v <;> rfl

theorem isModuleLike_eq_link? : s.isModuleLike v = (s.link? v).isSome := by
  unfold isModuleLike module? link?
  cases s.payload v <;> rfl

theorem index_lt_of_link? (h : (s.link? v).isSome) : v.index < s.objects.size := by
  rcases Nat.lt_or_ge v.index s.objects.size with hlt | hge
  · exact hlt
  · rw [link?, payload, object_of_size_le hge] at h
    cases h

theorem link?_isSome_of_isModule (h : s.isModule v) : (s.link? v).isSome := by
  rw [isModule_eq_link?] at h
  cases hl : s.link? v with
  | none => rw [hl] at h; cases h
  | some l => rfl

theorem link?_isSome_of_isClass (h : s.isClass v) : (s.link? v).isSome := by
  rw [isClass_eq_link?] at h
  cases hl : s.link? v with
  | none => rw [hl] at h; cases h
  | some l => rfl

/-! ## Links after a change of the heap -/

theorem link?_of_objects (h : t.objects = s.objects) : t.link? v = s.link? v := by
  rw [link?, link?, payload, payload, object, object, h]

theorem link?_alloc (o : Object) :
    (s.alloc o).2.link? v = if v = ⟨s.objects.size⟩ then o.payload.link? else s.link? v := by
  split
  · rename_i h
    rw [h, link?, payload, object_alloc]
  · rename_i h
    rw [link?, link?, payload, payload, object_alloc_of_ne s o h]

/-- What a new object has like an absent one, no object has differently. -/
theorem keep_alloc {β : Type} (g : Object → β) {o : Object} (ho : g o = g default) :
    g ((s.alloc o).2.object v) = g (s.object v) := by
  by_cases hv : v = ⟨s.objects.size⟩
  · have hnew : s.object ⟨s.objects.size⟩ = default := object_of_size_le (Nat.le_refl _)
    rw [hv, object_alloc, ho, hnew]
  · rw [object_alloc_of_ne s o hv]

theorem keep_append {β : Type} (g : Object → β) {os : Array Object}
    (ht : t.objects = s.objects ++ os) (hos : ∀ o ∈ os, g o = g default) :
    g (t.object v) = g (s.object v) := by
  simp only [object, ht, Array.getD_eq_getD_getElem?, Array.getElem?_append]
  split
  · rfl
  · rename_i hge
    rw [Array.getElem?_eq_none (Nat.le_of_not_lt hge)]
    cases ho : os[v.index - s.objects.size]? with
    | none => rfl
    | some o => exact hos o (Array.mem_of_getElem? ho)

/-- An object without a link changes no link. -/
theorem link?_alloc_plain {o : Object} (ho : o.payload.link? = none) :
    (s.alloc o).2.link? v = s.link? v :=
  keep_alloc (·.payload.link?) ho

theorem module?_alloc_plain {o : Object} (ho : o.payload.link? = none) :
    (s.alloc o).2.module? v = s.module? v := by
  refine keep_alloc (fun o => match o.payload with | .module m => some m | _ => none) ?_
  cases hp : o.payload with
  | module m => rw [hp] at ho; cases ho
  | _ => rfl

/-- What the change of an object keeps of it, it keeps of every object. -/
theorem keep_modifyObject {β : Type} (g : Object → β) {f : Object → Object}
    (hf : g (f (s.object c)) = g (s.object c)) :
    g ((s.modifyObject c f).object v) = g (s.object v) := by
  rw [object_modifyObject]
  split
  · rename_i h
    rw [h.1, hf]
  · rfl

theorem link?_modifyObject {f : Object → Object}
    (hf : (f (s.object c)).payload.link? = (s.object c).payload.link?) :
    (s.modifyObject c f).link? v = s.link? v :=
  keep_modifyObject (·.payload.link?) hf

theorem module?_modifyModule (f : ModuleInfo → ModuleInfo) :
    (s.modifyModule c f).module? v = if v = c then (s.module? c).map f else s.module? v := by
  unfold modifyModule module? payload
  rw [object_modifyObject]
  by_cases hv : v = c
  · subst hv
    by_cases hlt : v.index < s.objects.size
    · simp only [hlt, and_self, if_true]
      cases h : (s.object v).payload <;> simp only [h, Option.map_some, Option.map_none]
    · simp only [hlt, and_false, if_false, if_true, object_of_size_le (Nat.le_of_not_lt hlt)]
      rfl
  · simp only [hv, false_and, if_false]

/-- A change that keeps the link of the class it is made to keeps all links. -/
theorem link?_modifyModule {f : ModuleInfo → ModuleInfo} (hf : ∀ m, (f m).link = m.link) :
    (s.modifyModule c f).link? v = s.link? v := by
  rw [← module?_map_link, ← module?_map_link, module?_modifyModule]
  split
  · rename_i h
    rw [h]
    cases s.module? c with
    | none => rfl
    | some m => exact congrArg some (hf m)
  · rfl

/-! ## Walks over the same links -/

/-- Everything that a walk reads of the objects. -/
structure SameLinks (s t : Store) : Prop where
  link : ∀ v, t.link? v = s.link? v
  extended : ∀ v, (t.object v).extended = (s.object v).extended

namespace SameLinks

theorem included (h : SameLinks s t) : t.included v = s.included v := by
  rw [included_eq_link?, included_eq_link?, h.link]

theorem base? (h : SameLinks s t) : t.base? v = s.base? v := by
  rw [base?_eq_link?, base?_eq_link?, h.link]

theorem isClass (h : SameLinks s t) : t.isClass v = s.isClass v := by
  rw [isClass_eq_link?, isClass_eq_link?, h.link]

theorem moduleSteps (h : SameLinks s t) (extended : Bool) (n : Nat) (m : Value) :
    t.moduleSteps extended n m = s.moduleSteps extended n m := by
  induction n generalizing m with
  | zero => rfl
  | succ n ih => rw [Store.moduleSteps, Store.moduleSteps, h.included, funext ih]

/-- The heaps may differ in size where the walks over modules do not depend on it. -/
theorem instanceSteps (h : SameLinks s t)
    (hmodules : ∀ m, t.moduleSteps false t.objects.size m = s.moduleSteps false s.objects.size m)
    (n : Nat) (c : Value) : t.instanceSteps n c = s.instanceSteps n c := by
  induction n generalizing c with
  | zero => rfl
  | succ n ih => simp only [Store.instanceSteps, hmodules, h.base?, ih]

theorem ownSteps (h : SameLinks s t)
    (hmodules : ∀ m, t.moduleSteps true t.objects.size m = s.moduleSteps true s.objects.size m)
    (n : Nat) (v : Value) : t.ownSteps n v = s.ownSteps n v := by
  induction n generalizing v with
  | zero => rfl
  | succ n ih =>
    simp only [Store.ownSteps, funext hmodules, h.extended, h.isClass, h.base?, ih]

/-- Heaps of the same size. -/
theorem chain (h : SameLinks s t) (hsize : t.objects.size = s.objects.size) {recv : Value}
    (hclass : t.classOf recv = s.classOf recv) : t.chain recv = s.chain recv := by
  have hmodules (extended : Bool) (m : Value) :
      t.moduleSteps extended t.objects.size m = s.moduleSteps extended s.objects.size m := by
    rw [hsize]
    exact h.moduleSteps extended s.objects.size m
  rw [Store.chain, Store.chain, h.ownSteps (hmodules true), h.instanceSteps (hmodules false), hsize,
    hclass]

end SameLinks

end Store

end Garnet
