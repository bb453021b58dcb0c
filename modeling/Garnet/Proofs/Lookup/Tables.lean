import Garnet.Eval.Change
import Garnet.Proofs.Hierarchy.Link
import Garnet.Proofs.Edited
import Garnet.Proofs.Lookup.Partitions

/-!
# Tables after a change of one table

A change of one method table leaves every other table as it is, and with it the order in which a
lookup visits them.
-/

namespace Garnet

/-- The table that an object has for a kind of holder. -/
def Object.table (o : Object) : Holder → MethodTable
  | .own _ => o.own
  | .instances _ =>
    match o.payload with
    | .module m => m.methods
    | _ => {}

theorem Holder.own_ne_instances {v w : Value} : Holder.own v ≠ .instances w := nofun

namespace Store

variable {s : Store} {holder h : Holder} {v w : Value} {f : MethodTable → MethodTable}

/-- Every object has a table of its own; classes and modules also have one for their instances. -/
def HasTable (s : Store) : Holder → Prop
  | .own v => v.index < s.objects.size
  | .instances v => (s.link? v).isSome

theorem tableOf_eq_table : s.tableOf h = (s.object h.value).table h := by
  cases h with
  | own v => rfl
  | instances v =>
    simp only [tableOf, module?, payload, Holder.value, Object.table]
    cases (s.object v).payload <;> rfl

theorem tableOf_of_objects {t : Store} (ho : t.objects = s.objects) :
    t.tableOf h = s.tableOf h := by
  cases h <;> simp only [tableOf, module?, payload, object, ho]

theorem module?_modifyOwn : (s.modifyOwn v f).module? w = s.module? w := by
  unfold module? payload
  rw [modifyOwn, keep_modifyObject (·.payload) rfl]

/-- A change of a table keeps what is neither the payload nor the object's own table. -/
theorem keep_modifyTable {β : Type} (g : Object → β)
    (hg : ∀ o own payload, g { o with own, payload } = g o) :
    g ((s.modifyTable holder f).object v) = g (s.object v) := by
  cases holder with
  | own w => exact keep_modifyObject g (hg _ _ _)
  | instances w =>
    refine keep_modifyObject g ?_
    split
    · exact hg _ _ _
    · rfl

theorem classOf_modifyTable : (s.modifyTable holder f).classOf v = s.classOf v :=
  keep_modifyTable (·.cls) fun _ _ _ => rfl

theorem sameLinks_modifyTable : SameLinks s (s.modifyTable holder f) := by
  refine ⟨fun w => ?_, fun w => keep_modifyTable (·.extended) fun _ _ _ => rfl⟩
  cases holder with
  | own v => exact link?_modifyObject rfl
  | instances v => exact link?_modifyModule fun _ => rfl

theorem tableOf_modifyTable (hh : s.HasTable holder) :
    (s.modifyTable holder f).tableOf h =
      if h = holder then f (s.tableOf holder) else s.tableOf h := by
  cases holder with
  | own v =>
    cases h with
    | own w =>
      have hlt : v.index < s.objects.size := hh
      simp only [tableOf, modifyTable, modifyOwn, object_modifyObject, Holder.own.injEq, hlt,
        and_true]
      split <;> rfl
    | instances w =>
      simp only [tableOf, modifyTable, module?_modifyOwn, reduceCtorEq, if_false]
  | instances v =>
    cases h with
    | own w =>
      simp only [tableOf, modifyTable, modifyMethods, modifyModule, reduceCtorEq, if_false]
      refine keep_modifyObject (·.own) ?_
      split <;> rfl
    | instances w =>
      have hv : (s.module? v).isSome := module?_isSome.trans hh
      obtain ⟨m, hm⟩ := Option.isSome_iff_exists.mp hv
      simp only [tableOf, modifyTable, modifyMethods, module?_modifyModule, Holder.instances.injEq,
        hm]
      split <;> rfl

/-- Where there is no table, nothing changes. -/
theorem object_modifyTable (hno : ¬s.HasTable holder) (f : MethodTable → MethodTable) :
    (s.modifyTable holder f).object v = s.object v := by
  cases holder with
  | own w =>
    rw [modifyTable, modifyOwn, object_modifyObject, if_neg fun h => hno h.2]
  | instances w =>
    rw [modifyTable, modifyMethods, modifyModule, object_modifyObject]
    split
    · rename_i hw
      rw [hw.1]
      split
      · rename_i hp
        exact absurd (by rw [HasTable, link?, payload, hp]; rfl) hno
      · rfl
    · rfl

/-- A change of a table that keeps the entry of a name. -/
theorem lookup_modifyTable {name : String}
    (hf : h = holder → ∀ table, (f table).lookup name = table.lookup name) :
    ((s.modifyTable holder f).tableOf h).lookup name = (s.tableOf h).lookup name := by
  by_cases hh : s.HasTable holder
  · rw [tableOf_modifyTable hh]
    split
    · rename_i he
      rw [he]
      exact hf he _
    · rfl
  · rw [tableOf_eq_table, object_modifyTable hh, ← tableOf_eq_table]

theorem size_modifyTable : (s.modifyTable holder f).objects.size = s.objects.size := by
  cases holder <;> exact Array.size_modify ..

theorem chain_modifyTable {recv : Value} : (s.modifyTable holder f).chain recv = s.chain recv :=
  sameLinks_modifyTable.chain size_modifyTable classOf_modifyTable

/-- Methods move to a table one after another. -/
theorem promoteAll_induction {P : Store → Prop} (holder : Holder) (hs : P s)
    (step : ∀ t f, P t → P (t.modifyTable holder f)) (methods : List (String × Pending)) :
    P (s.promoteAll holder methods) := by
  refine foldl_induction methods (fun t m _ ht => ?_) hs
  dsimp only
  split
  · exact ht
  · exact step t _ ht

/-! ## At the start -/

theorem fixed_table (h : Holder) :
    ∀ o ∈ fixedObjects, o.table h = (default : Object).table h := by
  refine forall_mem_fixedObjects (fun c => by cases h <;> rfl) fun o ho => ?_
  simp only [singularObjects, List.mem_cons, List.not_mem_nil, or_false] at ho
  rcases ho with rfl | rfl | rfl | rfl | rfl <;> cases h <;> rfl

/-- The tables hold the methods of the library only. -/
theorem start_lookup_eq_none {name : String} (hname : ∀ e ∈ Library.all, name ∉ e.names)
    (config : Config) (input : List String) (h : Holder) :
    ((start config input).tableOf h).lookup name = none := by
  have keeps {s t : Store} (hs : ∀ h, (s.tableOf h).lookup name = none)
      (hst : ∀ h : Holder, (t.object h.value).table h = (s.object h.value).table h) (h : Holder) :
      (t.tableOf h).lookup name = none := by
    rw [tableOf_eq_table, hst, ← tableOf_eq_table]
    exact hs h
  have const (t : Store) (c : CoreClass) (n : String) (x : Value)
      (ht : ∀ h, (t.tableOf h).lookup name = none) :
      ∀ h, ((t.defineConst c n x).tableOf h).lookup name = none := by
    refine keeps ht fun h => keep_modifyObject (·.table h) ?_
    cases hp : (t.object c.value).payload with
    | module m => cases h <;> simp only [Object.table, hp]
    | _ => rfl
  have hbase : ∀ h, (base.tableOf h).lookup name = none := by
    refine base_induction (P := fun t => ∀ h, (t.tableOf h).lookup name = none) ?_ const ?_
    · have hempty (h : Holder) : (tableOf { bare with objects := #[] } h).lookup name = none := by
        rw [tableOf_eq_table]
        cases h <;> exact MethodTable.lookup_empty name
      exact keeps hempty fun h =>
        keep_append (·.table h) (Array.empty_append ..).symm (fixed_table h)
    · intro t index e he n hn ht h
      rw [lookup_modifyTable fun _ table => ?_]
      · exact ht h
      · rw [MethodTable.lookup_insert, if_neg]
        rintro rfl
        exact hname e he hn
  refine start_induction (P := fun t => ∀ h, (t.tableOf h).lookup name = none) config input hbase
    (fun t ht => keeps ht fun h => keep_append (·.table h) rfl fun o ho => ?_) const
    (fun t x ht => keeps ht fun h => keep_alloc (·.table h) (by cases h <;> rfl)) h
  obtain ⟨k, _, rfl⟩ := Array.mem_map.mp ho
  cases h <;> rfl

end Store

end Garnet

/-!
## Instance methods

An instance method is looked for in the table of its class and then in those of what is above the
class. Each table is asked once, which makes no difference to what is found.
-/

namespace Garnet.Store

variable {s : Store} {name : String} {c : Value}

/-- The walk over the instance methods of a class begins with the table of the class. -/
theorem instanceSteps_head (hc : s.HasTable (.instances c)) :
    ∃ rest, s.instanceSteps s.objects.size c = ⟨.instances c, false⟩ :: rest := by
  obtain ⟨n, hn⟩ := Nat.exists_eq_add_one.mpr (Nat.zero_lt_of_lt (index_lt_of_link? hc))
  rw [hn, instanceSteps, hn, moduleSteps, List.cons_append]
  exact ⟨_, rfl⟩

theorem findSome?_foldl_addNew {α : Type} (f : Value → Option α) (xs : List Value)
    (seen : Array Value) :
    (xs.foldl addNew seen).toList.findSome? f = (seen.toList ++ xs).findSome? f := by
  induction xs generalizing seen with
  | nil => rw [List.append_nil, List.foldl_nil]
  | cons x xs ih =>
    rw [List.foldl_cons, ih, addNew]
    split
    · rename_i hmem
      have hx : x ∈ seen.toList := Array.mem_toList_iff.mpr (Array.contains_iff_mem.mp hmem)
      rw [List.findSome?_append, List.findSome?_append, List.findSome?_cons]
      cases hseen : seen.toList.findSome? f with
      | some y => rfl
      | none => rw [List.findSome?_eq_none_iff.mp hseen x hx]
    · rw [Array.toList_push, List.append_assoc]
      rfl

theorem ancestors_eq :
    s.ancestors c =
      (((s.instanceSteps s.objects.size c).map (·.holder.value)).foldl addNew #[]).toList := by
  have fold (steps : List Step) (seen : Array Value) :
      steps.foldlM (fun seen step => (.ok (addNew seen step.holder.value) : Except Empty _)) seen =
        .ok ((steps.map (·.holder.value)).foldl addNew seen) := by
    induction steps generalizing seen with
    | nil => rfl
    | cons step steps ih => exact ih _
  rw [ancestors, walkInstances_eq_foldlM, fold]

/-- An instance method is looked for in the tables of the class and of what is above it. -/
theorem findInstanceMethod?_eq :
    s.findInstanceMethod? c name =
      (s.instanceSteps s.objects.size c).findSome? fun step =>
        (s.tableOf (.instances step.holder.value)).lookup name := by
  rw [findInstanceMethod?, ancestors_eq, findSome?_foldl_addNew, List.nil_append,
    List.findSome?_map]
  rfl

/-- The instance method of that name above a class. -/
def inherited (s : Store) (c : Value) (name : String) : Option (MethodDef × Visibility) :=
  (s.instanceSteps s.objects.size c).findSome? fun step =>
    if step.holder.value = c then none
    else (s.tableOf (.instances step.holder.value)).lookup name

theorem findInstanceMethod?_eq_or (hc : s.HasTable (.instances c)) (name : String) :
    s.findInstanceMethod? c name =
      ((s.tableOf (.instances c)).lookup name).or (s.inherited c name) := by
  rw [findInstanceMethod?_eq]
  cases hown : (s.tableOf (.instances c)).lookup name with
  | some e =>
    obtain ⟨rest, hrest⟩ := instanceSteps_head hc
    rw [hrest, List.findSome?_cons, Holder.value, hown, Option.some_or]
  | none =>
    rw [Option.none_or, inherited]
    congr 1
    funext step
    split
    · rename_i hstep
      rw [hstep, hown]
    · rfl

end Garnet.Store
