import Garnet.Library.Modules
import Garnet.Proofs.Hierarchy.Grounded
import Garnet.Proofs.Lookup.Reach

/-!
# Changes that few lookups notice

A change touches some tables, and only for some names; a lookup notices it only where it comes to
one of these tables. What an action touches is put together from what its parts touch.
-/

namespace Garnet

open Relation

namespace Store

variable {s t u : Store} {touched : Holder → String → Prop} {holder h : Holder} {v c : Value}
  {name : String}

/-- A lookup of a name finds at every table that was there what it found before, and goes on from
it as before, where the table is not touched for the name. -/
structure Local (touched : Holder → String → Prop) (s t : Store) : Prop
    extends SameClasses s t where
  alike : ∀ (h : Holder) (name : String), h.value.index < s.objects.size → ¬touched h name →
    Alike s t name h

/-! ## Stores that are alike at a table -/

theorem Alike.of_module? (hv : t.module? v = s.module? v) : Alike s t name (.instances v) := by
  have hincluded : t.included v = s.included v := by rw [included, included, hv]
  refine ⟨?_, ?_, hincluded, ?_⟩
  · rw [Holder.value, base?, base?, hv]
  · rw [Holder.value, Store.isClass, Store.isClass, hv]
  · rw [tableOf, tableOf, hv]

/-- What a lookup reads at a table belongs to one object. -/
theorem Alike.of_object (ho : t.object h.value = s.object h.value) : Alike s t name h := by
  have hmodule : t.module? h.value = s.module? h.value := by
    rw [module?, module?, payload, payload, ho]
  cases h with
  | instances v => exact .of_module? hmodule
  | own v =>
    have halike : Alike s t name (.instances v) := .of_module? hmodule
    exact ⟨halike.base, halike.isClass, congrArg Object.extended ho,
      congrArg (fun o : Object => o.own.lookup name) ho⟩

theorem SameLinks.leadsTo (hl : SameLinks s t) : t.leadsTo h = s.leadsTo h := by
  cases h with
  | own v => exact hl.extended v
  | instances v => exact hl.included

/-- A change of a table that keeps the entry of a name. -/
theorem Alike.modifyTable {f : MethodTable → MethodTable}
    (hf : h = holder → ∀ table, (f table).lookup name = table.lookup name) :
    Alike s (s.modifyTable holder f) name h :=
  ⟨sameLinks_modifyTable.base?, sameLinks_modifyTable.isClass, sameLinks_modifyTable.leadsTo,
    lookup_modifyTable hf⟩

/-! ## Local changes -/

namespace Local

theorem of_objects (ho : t.objects = s.objects) : Local touched s t := by
  have hobject (v : Value) : t.object v = s.object v := by rw [object, object, ho]
  exact ⟨.of_objects ho, fun h _ _ _ => .of_object (hobject h.value)⟩

theorem trans (h : Local touched s t) (h' : Local touched t u) : Local touched s u where
  toSameClasses := h.toSameClasses.trans h'.toSameClasses
  alike x n hx hn :=
    (h.alike x n hx hn).trans (h'.alike x n (Nat.lt_of_lt_of_le hx h.size_le) hn)

theorem alloc (o : Object) : Local touched s (s.alloc o).2 where
  toSameClasses := .alloc o
  alike _ _ hx _ := .of_object (object_alloc_of_lt s o hx)

theorem copyClass {d : Value} (h : s.copyClass c = .ok (d, t)) : Local touched s t := by
  obtain ⟨m, -, halloc⟩ := copyClass_eq_ok h
  cases halloc
  exact alloc _

theorem modifyTable {f : MethodTable → MethodTable}
    (hf : ∀ n, ¬touched holder n → ∀ table, (f table).lookup n = table.lookup n) :
    Local touched s (s.modifyTable holder f) where
  toSameClasses := .modifyTable holder f
  alike _ _ _ hn := .modifyTable fun he => hf _ (he ▸ hn)

theorem insert {m : MethodDef} {vis : Visibility} (hname : touched holder name) :
    Local touched s (s.modifyTable holder (·.insert name m vis)) := by
  refine modifyTable fun n hn table => ?_
  rw [MethodTable.lookup_insert, if_neg]
  rintro rfl
  exact hn hname

theorem setVisibility {vis : Visibility} (hname : touched holder name) :
    Local touched s (s.modifyTable holder (·.setVisibility name vis)) := by
  refine modifyTable fun n hn table => ?_
  rw [MethodTable.lookup_setVisibility, if_neg]
  rintro rfl
  exact hn hname

theorem includeModule {module : Value} (hc : ∀ n, touched (.instances c) n)
    (ht : s.includeModule c module = .ok t) : Local touched s t := by
  obtain ⟨m, hm, -, ⟨-, rfl⟩ | rfl⟩ := includeModule_eq_ok ht
  · exact of_objects rfl
  · refine ⟨.modifyModule _, fun h n _ hn => ?_⟩
    by_cases hv : h.value = c
    · cases h with
      | instances v =>
        obtain rfl : v = c := hv
        exact absurd (hc n) hn
      | own v =>
        -- the class includes one more module, which its own table does not lead to
        obtain rfl : v = c := hv
        have hmodule := module?_modifyModule (s := s) (c := v) (v := v)
          fun m => { m with included := m.included ++ [module] }
        rw [if_pos rfl, hm] at hmodule
        refine ⟨?_, ?_, keep_modifyObject (·.extended) ?_, keep_modifyObject (·.own.lookup n) ?_⟩
        · rw [Holder.value, base?, base?, hmodule, hm]
          rfl
        · rw [Holder.value, Store.isClass, Store.isClass, hmodule, hm]
          rfl
        · split <;> rfl
        · split <;> rfl
    · refine .of_object ?_
      rw [modifyModule, object_modifyObject, if_neg fun he => hv he.1]

theorem extendObject {module : Value} (hv : ∀ n, touched (.own v) n)
    (ht : s.extendObject v module = .ok t) : Local touched s t := by
  obtain ⟨-, rfl | rfl⟩ := extendObject_eq_ok ht
  · exact of_objects rfl
  · refine ⟨.modifyObject fun _ => rfl, fun h n _ hn => ?_⟩
    by_cases hh : h.value = v
    · cases h with
      | own w =>
        obtain rfl : w = v := hh
        exact absurd (hv n) hn
      | instances w =>
        refine .of_module? ?_
        rw [module?, module?, payload, keep_modifyObject (·.payload) rfl, payload]
    · refine .of_object ?_
      rw [object_modifyObject, if_neg fun he => hh he.1]

end Local

/-! ## Lookups after a local change -/

/-- A lookup comes to tables that are there. -/
theorem Grounded.index_lt_of_looks (hs : s.Grounded) (hv : v.index < s.objects.size)
    (h : s.Looks v holder) : holder.value.index < s.objects.size := by
  have linked {c : Value} (hc : (s.link? c).isSome) := index_lt_of_link? hc
  have includes {c d : Value} (hc : (s.link? c).isSome) (hcd : ReflTransGen s.Includes c d) :
      (s.link? d).isSome := by
    rcases ReflTransGen.cases_tail hcd with rfl | ⟨m, _, hmd⟩
    · exact hc
    · exact link?_isSome_of_isModule (hs.hierarchy.included_isModule hmd)
  have climbs {c d : Value} (hc : (s.link? c).isSome)
      (hcd : ReflTransGen (fun c b => s.base? c = some b) c d) : (s.link? d).isSome := by
    rcases ReflTransGen.cases_tail hcd with rfl | ⟨m, _, hmd⟩
    · exact hc
    · exact link?_isSome_of_isClass (hs.hierarchy.base_isClass hmd)
  cases holder with
  | own w =>
    rcases ReflTransGen.cases_tail (looks_own.mp h) with rfl | ⟨c, _, hcw⟩
    · exact hv
    · exact linked (link?_isSome_of_isClass (hs.hierarchy.base_isClass (base?_of_ownBase? hcw)))
  | instances d =>
    rcases looks_instances.mp h with ⟨w, m, _, hm, hmd⟩ | ⟨c, hc, hcd⟩
    · exact linked (includes (link?_isSome_of_isModule ((hs.object w).extended m hm)) hmd)
    · exact linked (includes (climbs (hs.object v).cls hc) hcd)

/-- Lookups of a name on a receiver answer the same, whatever bounds their walks. Where no module
leads back to itself this is what lookups answer at all. -/
def SameAnswers (s t : Store) (recv : Value) (name : String) : Prop :=
  (∀ n access, t.findMethodWithin n recv name access = s.findMethodWithin n recv name access) ∧
  ((∀ m, ¬TransGen s.Includes m m) →
    ∀ access, t.findMethod recv name access = s.findMethod recv name access)

/-- A receiver does not notice a change that its lookup does not come to. -/
theorem Grounded.sameAnswers (hs : s.Grounded) (hsize : s.objects.size ≤ t.objects.size)
    (hclass : t.classOf v = s.classOf v) (h : ∀ holder, s.Looks v holder → Alike s t name holder) :
    SameAnswers s t v name := by
  have hwithin (n : Nat) (access : Access) :
      t.findMethodWithin n v name access = s.findMethodWithin n v name access :=
    findMethodWithin_congr hclass h n access
  refine ⟨hwithin, fun hi access => ?_⟩
  have ha : s.Acyclic := hs.hierarchy.acyclic_of_includes hi
  rw [findMethod_eq_within, hwithin, findMethod_eq_within, findMethodWithin, findMethodWithin,
    chainWithin_of_size_le hs.hierarchy ha hsize,
    chainWithin_of_size_le hs.hierarchy ha (Nat.le_refl _)]

theorem Local.sameAnswers (hl : Local touched s t) (hs : s.Grounded)
    (hv : v.index < s.objects.size)
    (hfar : ∀ holder, s.Looks v holder → ¬touched holder name) : SameAnswers s t v name :=
  hs.sameAnswers hl.size_le (hl.classOf v hv) fun holder h =>
    hl.alike holder name (hs.index_lt_of_looks hv h) (hfar holder h)

namespace Keeps

/-- A lookup comes to tables that were there, and finds in them what it found before. -/
theorem alike (h : Keeps s t) (hs : s.Grounded) (hv : v.index < s.objects.size)
    (hholder : s.Looks v holder) : Alike s t name holder :=
  .of_object (h.object _ (hs.index_lt_of_looks hv hholder))

theorem sameAnswers (h : Keeps s t) (hs : s.Grounded) (hv : v.index < s.objects.size) :
    SameAnswers s t v name :=
  hs.sameAnswers h.size_le (congrArg Object.cls (h.object v hv)) fun _ hholder =>
    h.alike hs hv hholder

end Keeps

end Store

/-! ## Actions -/

namespace Act

open Store

variable {ℓ k : Layer} {α β : Type} {touched : Holder → String → Prop}

/-- However the action is run and however it ends, it touches no other table. -/
def TouchesOnly (touched : Holder → String → Prop) (x : Act ℓ α) : Prop :=
  ∀ (e : Engine) (s : Store), Local touched s (x.run e s).store

namespace TouchesOnly

theorem pure (a : α) : (Act.pure a : Act ℓ α).TouchesOnly touched := fun _ _ => .of_objects rfl

theorem view (f : Store → α) : (Act.view f : Act ℓ α).TouchesOnly touched :=
  fun _ _ => .of_objects rfl

theorem bind {x : Act ℓ β} {f : β → Act ℓ α} (hx : x.TouchesOnly touched)
    (hf : ∀ b, (f b).TouchesOnly touched) : (x.bind f).TouchesOnly touched := by
  intro e s
  have h := hx e s
  rw [run]
  cases hrun : x.run e s with
  | ok b t =>
    rw [hrun] at h
    exact h.trans (hf b e t)
  | error stop t =>
    rw [hrun] at h
    exact h

theorem lift {x : Act k α} (hx : x.TouchesOnly touched) (h : k.below ℓ = true) :
    (Act.lift x h).TouchesOnly touched :=
  hx

theorem change {c : Change} {f : Store → α} {h : c.allowed ℓ = true}
    (hc : ∀ s, Local touched s (c.apply s)) : (Act.change c f h).TouchesOnly touched :=
  fun _ s => hc s

theorem fail (c : CoreClass) (message : String) (h : c ≠ .systemStackError) :
    (Act.fail c message h : Act ℓ α).TouchesOnly touched :=
  fun _ _ => Local.trans (.alloc _) (.alloc _)

theorem forM {f : β → Act ℓ Unit} (xs : List β) (hf : ∀ x ∈ xs, (f x).TouchesOnly touched) :
    (xs.forM f).TouchesOnly touched := by
  induction xs with
  | nil => exact .pure ()
  | cons x xs ih =>
    obtain ⟨hx, hxs⟩ := List.forall_mem_cons.mp hf
    exact .bind hx fun _ => ih hxs

/-- An operation on classes, which may be refused. -/
theorem model {check : Store → Except ModelError α} {c : Change} {h : c.allowed .library = true}
    (hc : ∀ s, Local touched s (c.apply s)) : (Eval.model check c h).TouchesOnly touched := by
  refine .bind (.view _) fun r => ?_
  cases r with
  | ok a => exact .change hc
  | error e => exact .fail _ _ _

end TouchesOnly

end Act

end Garnet
