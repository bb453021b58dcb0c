import Garnet.Proofs.Control.Later
import Garnet.Proofs.Hierarchy.Sessions

/-!
# What objects refer to

At every moment of a session an object has a class that is there, and the modules that extend it are
there. A lookup therefore goes through places of the heap only, and never comes to an object that
is made later.
-/

namespace Garnet

open Relation

/-- The class of the object is there, and so are the modules that extend it. -/
structure Object.Grounded (s : Store) (o : Object) : Prop where
  cls : (s.link? o.cls).isSome
  extended : ∀ m ∈ o.extended, s.isModule m

theorem Object.Grounded.mono {s t : Store} {o : Object} (ho : o.Grounded s) (h : s.Grown t) :
    o.Grounded t :=
  ⟨h.link?_isSome ho.cls, fun m hm => h.isModule (ho.extended m hm)⟩

namespace Store

variable {s t : Store} {v : Value}

/-- Bases and inclusions lead to classes and modules that are there, and so does every object. -/
structure Grounded (s : Store) : Prop where
  hierarchy : s.Hierarchy
  core : ∀ c : CoreClass, (s.link? c.value).isSome
  object : ∀ v, (s.object v).Grounded s

/-! ## After a change -/

/-- The objects of the second store refer to what is there in the first. -/
def Refers (s t : Store) : Prop := ∀ v, (t.object v).Grounded s

namespace Refers

theorem alloc (h : Refers s t) {o : Object} (ho : o.Grounded s) : Refers s (t.alloc o).2 := by
  intro v
  by_cases hv : v = ⟨t.objects.size⟩
  · rw [hv, object_alloc]
    exact ho
  · rw [object_alloc_of_ne t o hv]
    exact h v

theorem modifyObject (h : Refers s t) {f : Object → Object}
    (hf : ∀ o, o.Grounded s → (f o).Grounded s) : Refers s (t.modifyObject v f) := by
  intro w
  rw [object_modifyObject]
  split
  · exact hf _ (h v)
  · exact h w

theorem modifyModule (h : Refers s t) (f : ModuleInfo → ModuleInfo) :
    Refers s (t.modifyModule v f) := by
  refine h.modifyObject fun o ho => ?_
  split
  · exact ⟨ho.cls, ho.extended⟩
  · exact ho

theorem modifyTable (h : Refers s t) (holder : Holder) (f : MethodTable → MethodTable) :
    Refers s (t.modifyTable holder f) := by
  cases holder with
  | own => exact h.modifyObject fun o ho => ⟨ho.cls, ho.extended⟩
  | instances => exact h.modifyModule _

theorem of_objects (h : Refers s t) {u : Store} (hu : u.objects = t.objects) : Refers s u := by
  intro v
  rw [Store.object, hu]
  exact h v

theorem promoteAll (h : Refers s t) (holder : Holder) (methods : List (String × Pending)) :
    Refers s (t.promoteAll holder methods) :=
  promoteAll_induction holder h (fun _ f ht => ht.modifyTable holder f) methods

end Refers

/-! ## At the start -/

/-- All objects are of classes of the core, and none is extended. -/
def OfCore (s : Store) : Prop :=
  ∀ v, ∃ c : CoreClass, (s.object v).cls = c.value ∧ (s.object v).extended = []

namespace OfCore

theorem of_keeps (h : s.OfCore) (hcls : ∀ v, (t.object v).cls = (s.object v).cls)
    (hextended : ∀ v, (t.object v).extended = (s.object v).extended) : t.OfCore := by
  intro v
  rw [hcls, hextended]
  exact h v

theorem defineConst (h : s.OfCore) (c : CoreClass) (name : String) (v : Value) :
    (s.defineConst c name v).OfCore := by
  refine h.of_keeps (fun v => keep_modifyObject (·.cls) ?_)
    fun v => keep_modifyObject (·.extended) ?_ <;> dsimp only <;> split <;> rfl

theorem append (h : s.OfCore) (os : Array Object) (ht : t.objects = s.objects ++ os)
    (hos : ∀ o ∈ os, ∃ c : CoreClass, o.cls = c.value ∧ o.extended = []) : t.OfCore := by
  intro v
  have hv := h v
  simp only [object, ht, Array.getD_eq_getD_getElem?, Array.getElem?_append] at hv ⊢
  split
  · exact hv
  · cases ho : os[v.index - s.objects.size]? with
    | none => exact ⟨.object, rfl, rfl⟩
    | some o => exact hos o (Array.mem_of_getElem? ho)

theorem start (config : Config) (input : List String) : (Store.start config input).OfCore := by
  have hbare : bare.OfCore := by
    have hempty : OfCore { bare with objects := #[] } := fun _ => ⟨.object, rfl, rfl⟩
    refine hempty.append fixedObjects (Array.empty_append ..).symm
      (forall_mem_fixedObjects (fun c => ?_) fun o ho => ?_)
    · cases c <;> first | exact ⟨.classClass, rfl, rfl⟩ | exact ⟨.moduleClass, rfl, rfl⟩
    · simp only [singularObjects, List.mem_cons, List.not_mem_nil, or_false] at ho
      rcases ho with rfl | rfl | rfl | rfl | rfl <;> exact ⟨_, rfl, rfl⟩
  have hbase : base.OfCore :=
    base_induction hbare (fun _ _ _ _ h => h.defineConst _ _ _) fun _ _ _ _ _ _ h =>
      h.of_keeps (fun _ => classOf_modifyTable) fun v => sameLinks_modifyTable.extended v
  refine start_induction config input hbase (fun t h => h.append _ rfl fun o ho => ?_)
    (fun _ _ _ _ h => h.defineConst _ _ _) fun t x h => ?_
  · obtain ⟨k, _, rfl⟩ := Array.mem_map.mp ho
    exact ⟨.integer, rfl, rfl⟩
  · refine h.append #[_] Array.push_eq_append fun o ho => ?_
    rw [Array.mem_singleton.mp ho]
    exact ⟨.float, rfl, rfl⟩

end OfCore

/-- The objects that are there stay, and keep their classes. -/
structure SameClasses (s t : Store) : Prop where
  size_le : s.objects.size ≤ t.objects.size
  classOf : ∀ v : Value, v.index < s.objects.size → t.classOf v = s.classOf v

namespace SameClasses

theorem of_objects (h : t.objects = s.objects) : SameClasses s t :=
  ⟨Nat.le_of_eq (congrArg _ h.symm), fun v _ => by rw [Store.classOf, object, h]; rfl⟩

theorem trans {u : Store} (h : SameClasses s t) (h' : SameClasses t u) : SameClasses s u where
  size_le := Nat.le_trans h.size_le h'.size_le
  classOf v hv := (h'.classOf v (Nat.lt_of_lt_of_le hv h.size_le)).trans (h.classOf v hv)

theorem alloc (o : Object) : SameClasses s (s.alloc o).2 :=
  ⟨Nat.le_of_lt (size_alloc o), fun _ hv => congrArg Object.cls (object_alloc_of_lt s o hv)⟩

theorem append {os : Array Object} (h : t.objects = s.objects ++ os) : SameClasses s t :=
  ⟨h ▸ Array.size_append ▸ Nat.le_add_right _ _, fun _ hv =>
    congrArg Object.cls (object_append s h hv)⟩

theorem modifyObject {f : Object → Object} (hf : ∀ o, (f o).cls = o.cls) :
    SameClasses s (s.modifyObject v f) :=
  ⟨Nat.le_of_eq size_modifyObject.symm, fun _ _ => keep_modifyObject (·.cls) (hf _)⟩

theorem modifyModule (f : ModuleInfo → ModuleInfo) : SameClasses s (s.modifyModule v f) :=
  modifyObject fun o => by split <;> rfl

theorem modifyTable (holder : Holder) (f : MethodTable → MethodTable) :
    SameClasses s (s.modifyTable holder f) :=
  ⟨Nat.le_of_eq size_modifyTable.symm, fun _ _ => classOf_modifyTable⟩

/-- The objects at fixed places have their classes at the start. -/
theorem start (config : Config) (input : List String) :
    SameClasses bare (Store.start config input) := by
  have const (t : Store) (c : CoreClass) (name : String) (x : Value) (h : SameClasses bare t) :
      SameClasses bare (t.defineConst c name x) := h.trans (modifyModule _)
  have hbase : SameClasses bare base :=
    base_induction (of_objects rfl) const fun _ _ _ _ _ _ h => h.trans (modifyTable _ _)
  exact start_induction config input hbase (fun _ h => h.trans (append rfl)) const
    fun _ _ h => h.trans (alloc _)

end SameClasses

namespace Grounded

/-- A new object of a class of the core. -/
theorem of_core (hs : s.Grounded) (c : CoreClass) (payload : Payload) (ivars : Dict Value) :
    ({ cls := c.value, payload, ivars } : Object).Grounded s :=
  ⟨hs.core c, nofun⟩

theorem refers (hs : s.Grounded) (c : Change) : Refers s (c.apply s) := by
  have hobjects : Refers s s := hs.object
  cases c with
  | alloc cls payload ivars => exact hobjects.alloc (hs.of_core cls payload ivars)
  | allocInteger i =>
    simp only [Change.apply]
    split
    · exact hobjects
    · exact hobjects.alloc (hs.of_core .integer _ _)
  | allocSymbol name =>
    simp only [Change.apply]
    split
    · exact hobjects
    · exact (hobjects.alloc (hs.of_core .symbol _ _)).of_objects rfl
  | instantiate cls =>
    simp only [Change.apply]
    split
    · obtain ⟨p, -, rfl, hclass⟩ := blankInstance?_eq_some ‹_›
      exact hobjects.alloc ⟨link?_isSome_of_isClass hclass, nofun⟩
    · exact hobjects
  | copyObject v =>
    simp only [Change.apply]
    split
    · obtain ⟨ivars, -, rfl⟩ := copiedObject?_eq_some ‹_›
      exact hobjects.alloc ⟨(hs.object v).cls, nofun⟩
    · exact hobjects
  | allocBlock | allocStep => exact hobjects.alloc (hs.of_core .proc _ _)
  | allocLambda p =>
    simp only [Change.apply]
    split
    · exact hobjects.alloc (hs.of_core .proc _ _)
    · exact hobjects
  | setIvar => exact hobjects.modifyObject fun o ho => ⟨ho.cls, ho.extended⟩
  | modifyItems | editHash | setText =>
    refine hobjects.modifyObject fun o ho => ?_
    split
    · exact ⟨ho.cls, ho.extended⟩
    · exact ho
  | subclass parent =>
    simp only [Change.apply]
    split
    · obtain ⟨m, -, -, h⟩ := subclass_eq_ok ‹_›
      cases h
      exact hobjects.alloc ⟨(hs.object parent).cls, nofun⟩
    · exact hobjects
  | copyClass c =>
    simp only [Change.apply]
    split
    · obtain ⟨m, -, h⟩ := copyClass_eq_ok ‹_›
      cases h
      exact hobjects.alloc ⟨(hs.object c).cls, nofun⟩
    · exact hobjects
  | newModule => exact hobjects.alloc (hs.of_core .moduleClass _ _)
  | includeModule =>
    simp only [Change.apply]
    split
    · obtain ⟨m, -, -, ⟨-, rfl⟩ | rfl⟩ := includeModule_eq_ok ‹_›
      · exact hobjects
      · exact hobjects.modifyModule _
    · exact hobjects
  | extendObject =>
    simp only [Change.apply]
    split
    · obtain ⟨hmodule, rfl | rfl⟩ := extendObject_eq_ok ‹_›
      · exact hobjects
      · refine hobjects.modifyObject fun o ho => ⟨ho.cls, fun m hm => ?_⟩
        rcases List.mem_append.mp hm with hm | hm
        · exact ho.extended m hm
        · exact List.mem_singleton.mp hm ▸ hmodule
    · exact hobjects
  | setCvar | setConst | nameModule => exact hobjects.modifyModule _
  | define | setVisibility | eraseMethod => exact hobjects.modifyTable _ _
  | aliasMethod =>
    simp only [Change.apply]
    split
    · exact hobjects.modifyModule _
    · exact hobjects
  | adopt =>
    simp only [Change.apply]
    split
    · exact hobjects.modifyTable _ _
    · exact hobjects
  | promote =>
    refine Refers.promoteAll ?_ _ _
    exact hobjects.of_objects rfl
  | aliasPending | aliasVisible =>
    simp only [Change.apply]
    split <;> exact hobjects.of_objects rfl
  | _ => exact hobjects.of_objects rfl

theorem of_relinked (hs : s.Grounded) {edge : Option (Value × Value)} (h : Relinked s t edge)
    (ht : Refers s t) : t.Grounded :=
  ⟨h.hierarchy hs.hierarchy, fun c => h.grown.link?_isSome (hs.core c),
    fun v => (ht v).mono h.grown⟩

theorem lasting : Lasting fun s t => s.Grounded → t.Grounded where
  trans h h' := h' ∘ h
  of_same h hs :=
    hs.of_relinked (relinked_of_objects h.objects) (Refers.of_objects hs.object h.objects)
  exception s c _ hs := by
    have alloc {s : Store} (hs : s.Grounded) (c : CoreClass) (ivars : Dict Value) {p : Payload}
        (hp : p.link? = none) : (s.alloc { cls := c.value, payload := p, ivars }).2.Grounded :=
      hs.of_relinked (relinked_alloc hp) (Refers.alloc hs.object (hs.of_core c p ivars))
    exact alloc (alloc hs .string {} rfl) c _ rfl
  change c _ hc hs := hs.of_relinked (c.relinked hs.hierarchy hc) (hs.refers c)

/-! ## In the course of a session -/

theorem start (config : Config) (input : List String) : (Store.start config input).Grounded := by
  refine ⟨start_hierarchy config input, fun c => ?_, fun v => ?_⟩
  · exact Option.isSome_of_eq_some (start_link?_value config input c)
  · obtain ⟨c, hcls, hextended⟩ := OfCore.start config input v
    refine ⟨?_, fun m hm => ?_⟩
    · rw [hcls]
      exact Option.isSome_of_eq_some (start_link?_value config input c)
    · rw [hextended] at hm
      cases hm

theorem of_leads {config : Config} {input : List String}
    (h : ReflTransGen Leads (.start config input) s) : s.Grounded :=
  lasting.moments h (start config input)

end Grounded

end Store

end Garnet
