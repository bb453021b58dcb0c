import Garnet.Eval.Change
import Garnet.Proofs.Heap
import Garnet.Session.Start

/-!
# How a store comes about

A store is made at the start of a session and changed from then on.
-/

/-!
## What holds at the start of a session

A session starts with the objects at fixed places, after their constants and the operations of the
library have been put into tables, the interned integers behind them, and the constants that are
floats. What each of these steps keeps holds at the start.
-/

namespace Garnet.Store

variable {P : Store → Prop} {s : Store}

/-! ### The objects at fixed places -/

theorem size_fixedObjects : fixedObjects.size = 38 := by
  rw [fixedObjects, List.size_toArray, List.length_append, List.length_map]
  rfl

/-- The classes come first. -/
theorem getD_fixedObjects_of_lt {i : Nat} (hi : i < 33) :
    ∃ c : CoreClass, CoreClass.all[i]? = some c ∧ fixedObjects.getD i default = c.classObject := by
  have hall : CoreClass.all[i]? = some CoreClass.all[i] := List.getElem?_eq_getElem hi
  refine ⟨CoreClass.all[i], hall, ?_⟩
  rw [fixedObjects, Array.getD_eq_getD_getElem?, List.getElem?_toArray,
    List.getElem?_append_left (by rwa [List.length_map]), List.getElem?_map, hall]
  rfl

/-- The other objects come behind them. -/
theorem getD_fixedObjects_add (k : Nat) :
    fixedObjects.getD (33 + k) default = singularObjects[k]?.getD default := by
  have hlength : (CoreClass.all.map CoreClass.classObject).length = 33 := List.length_map _
  rw [fixedObjects, Array.getD_eq_getD_getElem?, List.getElem?_toArray,
    List.getElem?_append_right (hlength ▸ Nat.le_add_right 33 k), hlength,
    Nat.add_sub_cancel_left]

theorem forall_mem_fixedObjects {Q : Object → Prop} (hclass : ∀ c : CoreClass, Q c.classObject)
    (hsingular : ∀ o ∈ singularObjects, Q o) : ∀ o ∈ fixedObjects, Q o := by
  intro o ho
  rcases List.mem_append.mp (List.mem_toArray.mp ho) with ho | ho
  · obtain ⟨c, -, rfl⟩ := List.mem_map.mp ho
    exact hclass c
  · exact hsingular o ho

/-! ### The steps of the installation -/

/-- The objects at fixed places, before anything is defined. -/
def bare : Store :=
  { config := {}
    objects := fixedObjects
    scopes := #[{ kind := .top, parent := none }]
    frames := [.outermost]
    scopeStack := [⟨0⟩]
    globals := ({} : Dict Value).insert "$stdout" .stdout }

theorem foldl_induction {β : Type} {f : Store → β → Store} (bs : List β)
    (step : ∀ t, ∀ b ∈ bs, P t → P (f t b)) (hs : P s) : P (bs.foldl f s) := by
  induction bs generalizing s with
  | nil => exact hs
  | cons b bs ih =>
    have hb : P (f s b) := step s b List.mem_cons_self hs
    exact ih (fun t b hb => step t b (List.mem_cons_of_mem _ hb)) hb

theorem defineConsts_induction (const : ∀ t c name v, P t → P (t.defineConst c name v)) (hs : P s)
    (cs : List CoreClass) :
    P (cs.foldl (fun s c => s.defineConst .object c.name c.value) s) :=
  foldl_induction cs (fun t _ _ => const t _ _ _) hs

/-- The library is installed method by method. -/
theorem installAll_induction
    (method : ∀ t index, ∀ e ∈ Library.all, ∀ name ∈ e.names, P t →
      P (t.modifyTable e.home (·.insert name ⟨name, .builtin index, false⟩ e.visibility)))
    (hs : P s) : P s.installAll := by
  have entry (t : Store) (index : Nat) (e : Entry) (he : e ∈ Library.all) (ht : P t) :
      P (t.install index e) := by
    refine foldl_induction e.names (fun u name hname hu => ?_) ht
    have hmethod := method u index e he name hname hu
    cases hhome : e.home <;> rw [hhome] at hmethod <;> exact hmethod
  unfold installAll
  rw [← Array.foldl_toList]
  have hsub : ∀ e ∈ Library.all.toList, e ∈ Library.all := fun _ => Array.mem_toList_iff.mp
  generalize Library.all.toList = es at hsub ⊢
  generalize 0 = i
  induction es generalizing s i with
  | nil => exact hs
  | cons e es ih =>
    obtain ⟨he, hes⟩ := List.forall_mem_cons.mp hsub
    exact ih (entry s i e he hs) hes (i + 1)

theorem defineFloats_induction (const : ∀ t c name v, P t → P (t.defineConst c name v))
    (float : ∀ t x, P t → P (t.alloc { cls := CoreClass.float.value, payload := .float x }).2)
    (hs : P s) : P s.defineFloats :=
  foldl_induction _ (fun t x _ ht => const _ _ _ _ (float t x.2 ht)) hs

theorem base_induction (hbare : P bare) (const : ∀ t c name v, P t → P (t.defineConst c name v))
    (method : ∀ t index, ∀ e ∈ Library.all, ∀ name ∈ e.names, P t →
      P (t.modifyTable e.home (·.insert name ⟨name, .builtin index, false⟩ e.visibility))) :
    P base :=
  installAll_induction method (const _ _ _ _ (defineConsts_induction const hbare _))

theorem start_induction (config : Config) (input : List String) (hbase : P base)
    (intern : ∀ t, P t →
      P { t with config, input, objects := t.objects ++ internedIntegers config })
    (const : ∀ t c name v, P t → P (t.defineConst c name v))
    (float : ∀ t x, P t → P (t.alloc { cls := CoreClass.float.value, payload := .float x }).2) :
    P (start config input) :=
  defineFloats_induction const float (intern base hbase)

end Garnet.Store

/-!
## What a change of the store can do

Every change adds objects, changes objects that are there, or changes what is outside of the heap
and of the stacks. An integer, a symbol, a block, nil or a truth value that is there stays what it
is, and no other object becomes one. A new integer is none of those that are interned, and a new
symbol has a name that no symbol had.
-/

namespace Garnet

/-- What an object keeps for good. -/
def Payload.Fixed : Payload → Prop
  | .nil | .true | .false | .integer _ | .symbol _ | .proc _ => True
  | _ => False

/-- What only some objects hold that are not made at will. -/
def Payload.Rare : Payload → Prop
  | .nil | .true | .false | .integer _ | .symbol _ => True
  | _ => False

theorem Payload.not_rare_of_isPlain {p : Payload} (h : p.isPlain = .true) : ¬p.Rare := by
  cases p with
  | nil | true | false | integer | symbol => cases h
  | _ => exact id

theorem Store.payload_modifyObject_iff {s : Store} {v w : Value} {p : Payload}
    {f : Object → Object} (hp : p.Fixed)
    (hf : ∀ o, (f o).payload = o.payload ∨ ¬o.payload.Fixed ∧ ¬(f o).payload.Fixed) :
    (s.modifyObject w f).payload v = p ↔ s.payload v = p := by
  rw [payload, object_modifyObject]
  split
  · rename_i hv
    obtain ⟨rfl, -⟩ := hv
    rcases hf (s.object v) with h | ⟨hold, hnew⟩
    · rw [h, payload]
    · refine iff_of_false (fun h => hnew (h ▸ hp)) fun h => hold ?_
      rw [payload] at h
      rw [h]
      exact hp
  · rfl

/-- The second store comes from the first by changes that leave the stacks and the depth alone. -/
inductive Edited (s : Store) : Store → Prop where
  | refl : Edited s s
  | alloc {t} (h : Edited s t) (o : Object) (ho : ¬o.payload.Rare) : Edited s (t.alloc o).2
  | integer {t} (h : Edited s t) (i : Int) (hi : t.config.interns i = false) :
    Edited s (t.alloc { cls := CoreClass.integer.value, payload := .integer i }).2
  | intern {t} (h : Edited s t) (name : String) (hname : t.symbols[name]? = none) :
    Edited s (t.intern name)
  | modify {t} (h : Edited s t) (v : Value) (f : Object → Object)
    (hf : ∀ o, (f o).payload = o.payload ∨ ¬o.payload.Fixed ∧ ¬(f o).payload.Fixed) :
    Edited s (t.modifyObject v f)
  | around {t u} (h : Edited s t) (hstacks : u.frames = t.frames ∧ u.scopeStack = t.scopeStack)
    (hdepth : u.depth = t.depth) (hconfig : u.config = t.config) (hobjects : u.objects = t.objects)
    (hsymbols : u.symbols = t.symbols) (hact : t.lastActivation ≤ u.lastActivation) : Edited s u

namespace Edited

variable {s t u : Store}

theorem trans (h : Edited s t) (h' : Edited t u) : Edited s u := by
  induction h' with
  | refl => exact h
  | alloc _ o ho ih => exact ih.alloc o ho
  | integer _ i hi ih => exact ih.integer i hi
  | intern _ name hname ih => exact ih.intern name hname
  | modify _ v f hf ih => exact ih.modify v f hf
  | around _ hs hd hc ho hsym ha ih => exact ih.around hs hd hc ho hsym ha

theorem size_le (h : Edited s t) : s.objects.size ≤ t.objects.size := by
  induction h with
  | refl => exact Nat.le_refl _
  | alloc _ _ _ ih | integer _ _ _ ih | intern _ _ _ ih =>
    exact Nat.le_trans ih (Nat.le_of_lt (Store.size_alloc _))
  | modify _ _ _ _ ih => exact Nat.le_trans ih (Nat.le_of_eq Store.size_modifyObject.symm)
  | around _ _ _ _ hobjects _ _ ih => exact Nat.le_trans ih (Nat.le_of_eq (by rw [hobjects]))

/-- An object that is there holds something fixed exactly when it did before. -/
theorem payload_iff {v : Value} {p : Payload} (h : Edited s t) (hp : p.Fixed)
    (hv : v.index < s.objects.size) : t.payload v = p ↔ s.payload v = p := by
  have old {t : Store} (ht : Edited s t) (o : Object) :
      (t.alloc o).2.payload v = p ↔ t.payload v = p := by
    rw [Store.payload, Store.object_alloc_of_lt t o (Nat.lt_of_lt_of_le hv ht.size_le),
      Store.payload]
  induction h with
  | refl => exact Iff.rfl
  | alloc ht o _ ih => exact (old ht o).trans ih
  | integer ht i _ ih => exact (old ht _).trans ih
  | intern ht name _ ih => exact (old ht _).trans ih
  | modify _ w f hf ih => exact (Store.payload_modifyObject_iff hp hf).trans ih
  | around _ _ _ _ hobjects _ _ ih =>
    rw [Store.payload, Store.object, hobjects]
    exact ih

/-- What is fixed stays what it is. -/
theorem payload_eq {v : Value} {p : Payload} (h : Edited s t) (hp : p.Fixed)
    (hv : s.payload v = p) : t.payload v = p := by
  have hlt := Store.index_lt_of_payload s hv fun he => (he ▸ hp : Payload.object.Fixed)
  exact (h.payload_iff hp hlt).mpr hv

theorem lastActivation_le (h : Edited s t) : s.lastActivation ≤ t.lastActivation := by
  induction h with
  | refl => exact Nat.le_refl _
  | alloc _ _ _ ih | integer _ _ _ ih | intern _ _ _ ih | modify _ _ _ _ ih => exact ih
  | around _ _ _ _ _ _ hact ih => exact Nat.le_trans ih hact

/-! ### The parts of changes -/

theorem withScopes (ss : Scopes) : Edited s { s with scopes := ss } :=
  refl.around ⟨rfl, rfl⟩ rfl rfl rfl rfl (Nat.le_refl _)

theorem modifyOwn (v : Value) (f : MethodTable → MethodTable) : Edited s (s.modifyOwn v f) :=
  refl.modify v _ fun _ => .inl rfl

theorem modifyModule (v : Value) (f : ModuleInfo → ModuleInfo) : Edited s (s.modifyModule v f) := by
  refine refl.modify v _ fun o => ?_
  cases h : o.payload with
  | module => exact .inr ⟨id, id⟩
  | _ => exact .inl h

theorem modifyMethods (v : Value) (f : MethodTable → MethodTable) :
    Edited s (s.modifyMethods v f) :=
  modifyModule v _

theorem modifyTable (holder : Holder) (f : MethodTable → MethodTable) :
    Edited s (s.modifyTable holder f) := by
  cases holder with
  | own v => exact modifyOwn v f
  | instances v => exact modifyMethods v f

theorem promoteAll (holder : Holder) (methods : List (String × Pending)) :
    Edited s (s.promoteAll holder methods) := by
  refine Store.foldl_induction methods (fun t m _ h => ?_) refl
  dsimp only
  split
  · exact h
  · exact h.trans (modifyTable holder _)

theorem subclass {parent c : Value} {name : String} (h : s.subclass parent name = .ok (c, t)) :
    Edited s t := by
  obtain ⟨m, -, -, h⟩ := Store.subclass_eq_ok h
  cases h
  exact refl.alloc _ id

theorem copyClass {c d : Value} (h : s.copyClass c = .ok (d, t)) : Edited s t := by
  obtain ⟨m, -, h⟩ := Store.copyClass_eq_ok h
  cases h
  exact refl.alloc _ id

theorem includeModule {target module : Value} (h : s.includeModule target module = .ok t) :
    Edited s t := by
  obtain ⟨m, -, -, ⟨-, rfl⟩ | rfl⟩ := Store.includeModule_eq_ok h
  · exact refl
  · exact modifyModule _ _

theorem extendObject {v module : Value} (h : s.extendObject v module = .ok t) : Edited s t := by
  obtain ⟨-, rfl | rfl⟩ := Store.extendObject_eq_ok h
  · exact refl
  · exact refl.modify _ _ fun _ => .inl rfl

theorem newException (cls : Value) (message : String) : Edited s (s.newException cls message).2 :=
  (refl.alloc _ id).alloc _ id

/-! ### Changes -/

theorem change {ℓ : Layer} (c : Change) (hc : c.allowed ℓ = true) : Edited s (c.apply s) := by
  cases c with
  | alloc cls payload ivars =>
    exact refl.alloc _ (Payload.not_rare_of_isPlain (Change.isPlain_of_allowed hc))
  | allocBlock | allocStep | newModule => exact refl.alloc _ id
  | allocInteger =>
    simp only [Change.apply]
    split
    · exact refl
    · exact refl.integer _ (Bool.eq_false_iff.mpr ‹_›)
  | allocSymbol name =>
    simp only [Change.apply]
    split
    · exact refl
    · exact refl.intern name ‹_›
  | instantiate =>
    simp only [Change.apply]
    split
    · obtain ⟨p, hp, rfl, -⟩ := Store.blankInstance?_eq_some ‹_›
      exact refl.alloc _ (Payload.not_rare_of_isPlain (Payload.isPlain_of_isNew hp))
    · exact refl
  | copyObject =>
    simp only [Change.apply]
    split
    · obtain ⟨ivars, hp, rfl⟩ := Store.copiedObject?_eq_some ‹_›
      exact refl.alloc _ (Payload.not_rare_of_isPlain hp)
    · exact refl
  | allocLambda =>
    simp only [Change.apply]
    split
    · exact refl.alloc _ id
    · exact refl
  | setIvar => exact refl.modify _ _ fun _ => .inl rfl
  | modifyItems | editHash | setText =>
    refine refl.modify _ _ fun o => ?_
    split
    · rename_i h
      rw [h]
      exact .inr ⟨id, id⟩
    · exact .inl rfl
  | subclass =>
    simp only [Change.apply]
    split
    · exact subclass ‹_›
    · exact refl
  | copyClass =>
    simp only [Change.apply]
    split
    · exact copyClass ‹_›
    · exact refl
  | includeModule =>
    simp only [Change.apply]
    split
    · exact includeModule ‹_›
    · exact refl
  | extendObject =>
    simp only [Change.apply]
    split
    · exact extendObject ‹_›
    · exact refl
  | setCvar | setConst | nameModule => exact modifyModule _ _
  | define | setVisibility | eraseMethod => exact modifyTable _ _
  | aliasMethod =>
    simp only [Change.apply]
    split
    · exact modifyMethods _ _
    · exact refl
  | adopt =>
    simp only [Change.apply]
    split
    · exact modifyTable _ _
    · exact refl
  | aliasPending | aliasVisible =>
    simp only [Change.apply]
    split
    · exact withScopes _
    · exact refl
  | promote => exact (withScopes _).trans (promoteAll _ _)
  | newActivation => exact refl.around ⟨rfl, rfl⟩ rfl rfl rfl rfl (Nat.le_succ _)
  | definePending | setPendingVisibility | setDefaultVisibility | newScope | setLocal | declare
  | setGlobal | recordMatch | newStop | newCell | setCell | write | readLine =>
    exact refl.around ⟨rfl, rfl⟩ rfl rfl rfl rfl (Nat.le_refl _)

/-! ### The store at the start -/

theorem defineConst (c : CoreClass) (name : String) (v : Value) :
    Edited s (s.defineConst c name v) :=
  modifyModule _ _

theorem base : Edited .bare .base :=
  Store.base_induction refl (fun _ _ _ _ h => h.trans (defineConst _ _ _))
    fun _ _ _ _ _ _ h => h.trans (modifyTable _ _)

theorem defineFloats : Edited s s.defineFloats :=
  Store.defineFloats_induction (fun _ _ _ _ h => h.trans (defineConst _ _ _))
    (fun _ _ h => h.alloc _ id) refl

end Edited

end Garnet
