import Garnet.Proofs.Comparisons
import Garnet.Proofs.Lookup.Chain

/-!
# Objects that have nothing of their own

The library makes integers and arrays that only their classes say anything about. A lookup on such
an object begins with its class, and to make more of them changes no table.
-/

namespace Garnet

/-- A new integer or array. -/
structure Object.IsBare (o : Object) : Prop where
  own : o.own = {}
  extended : o.extended = []
  kind : (∃ i, o.payload = .integer i ∧ o.cls = CoreClass.integer.value) ∨
    ∃ xs, o.payload = .array xs ∧ o.cls = CoreClass.array.value

/-- An integer. -/
def Object.IsInteger (o : Object) : Prop := ∃ i, o.payload = .integer i

/-- An array as it is made. -/
def Object.IsNewArray (o : Object) : Prop :=
  ∃ xs, o = { cls := CoreClass.array.value, payload := .array xs }

namespace Store

/-- More integers and arrays have been made, and no other object has changed. -/
structure Grows (s t : Store) : Prop where
  objects : ∃ os : Array Object, (∀ o ∈ os, o.IsBare) ∧ t.objects = s.objects ++ os
  config : t.config = s.config

variable {s t u : Store} {v : Value} {K : Object → Prop} {name : String} {f : Native}

namespace Grows

theorem refl (s : Store) : Grows s s := ⟨⟨#[], by simp, by simp⟩, rfl⟩

theorem trans (h : Grows s t) (h' : Grows t u) : Grows s u := by
  obtain ⟨os, hos, ht⟩ := h.objects
  obtain ⟨os', hos', hu⟩ := h'.objects
  refine ⟨⟨os ++ os', fun o ho => ?_, ?_⟩, h'.config.trans h.config⟩
  · exact (Array.mem_append.mp ho).elim (hos o) (hos' o)
  · rw [hu, ht, Array.append_assoc]

theorem alloc {o : Object} (ho : o.IsBare) : Grows s (s.alloc o).2 :=
  ⟨⟨#[o], by simpa using ho, by rw [Store.alloc, Array.push_eq_append]⟩, rfl⟩

theorem deeper (h : Grows s t) (d : Nat) : Grows s { t with depth := d } := ⟨h.objects, h.config⟩

theorem size_le (h : Grows s t) : s.objects.size ≤ t.objects.size := by
  obtain ⟨os, -, ht⟩ := h.objects
  rw [ht, Array.size_append]
  omega

theorem object (h : Grows s t) (hv : v.index < s.objects.size) : t.object v = s.object v := by
  obtain ⟨os, -, ht⟩ := h.objects
  exact object_append s ht hv

/-- What is not there in the first store is bare, or is not there in the second one either. -/
theorem object_of_size_le (h : Grows s t) (hv : s.objects.size ≤ v.index) :
    (t.object v).IsBare ∨ t.object v = default := by
  obtain ⟨os, hos, ht⟩ := h.objects
  have hget : t.object v = (os[v.index - s.objects.size]?).getD default := by
    rw [Store.object, ht, Array.getD_eq_getD_getElem?, Array.getElem?_append_right hv]
  cases hos? : os[v.index - s.objects.size]? with
  | none => exact .inr (by rw [hget, hos?]; rfl)
  | some o => exact .inl (by rw [hget, hos?]; exact hos o (Array.mem_of_getElem? hos?))

theorem payload {p : Payload} (h : Grows s t) (hp : s.payload v = p) (hne : p ≠ .object) :
    t.payload v = p := by
  rw [Store.payload, h.object (index_lt_of_payload s hp hne)]
  exact hp

theorem integersCached (h : Grows s t) (hs : s.IntegersCached) : t.IntegersCached := by
  intro i hi
  rw [h.config] at hi ⊢
  exact h.payload (hs i hi) nofun

end Grows

/-! ## What the objects of a kind answer -/

/-- Every object of a kind answers a message with an operation of the library, also when more
integers and arrays have been made. -/
def AllAnswer (s : Store) (K : Object → Prop) (name : String) (f : Native) : Prop :=
  ∀ t, Grows s t → ∀ v, K (t.object v) → t.AnswersWith v name f

theorem Grows.allAnswer (h : Grows s t) (hs : s.AllAnswer K name f) : t.AllAnswer K name f :=
  fun _ ht => hs _ (h.trans ht)

/-- A lookup on an object that nothing extends and that is no class begins with its own table and
that of its class. -/
theorem chain_of_instance (hv : v.index < s.objects.size) (hextended : (s.object v).extended = [])
    (hclass : s.isClass v = false) :
    ∃ rest, s.chain v = ⟨.own v, false⟩ :: ⟨.instances (s.classOf v), false⟩ :: rest := by
  obtain ⟨n, hn⟩ := Nat.exists_eq_add_one.mpr (Nat.zero_lt_of_lt hv)
  rw [chain, hn, ownSteps, hextended, hclass, instanceSteps, hn, moduleSteps]
  exact ⟨_, rfl⟩

/-- What the table of its class says comes first for an object that has nothing of its own. -/
theorem answersWith_of_class {m : ModuleInfo} {d : MethodDef} {visibility : Visibility} {i : Nat}
    (hv : v.index < s.objects.size) (hown : (s.object v).own = {})
    (hextended : (s.object v).extended = []) (hclass : s.isClass v = false)
    (hm : s.module? (s.classOf v) = some m) (hd : m.methods.lookup name = some (d, visibility))
    (hbody : d.body = .builtin i) (hf : Library.run i = f) : s.AnswersWith v name f := by
  obtain ⟨rest, hchain⟩ := chain_of_instance hv hextended hclass
  have hownTable : s.shown name .all ⟨.own v, false⟩ = none := by
    rw [shown, tableOf, hown]
    rfl
  have hclassTable : s.shown name .all ⟨.instances (s.classOf v), false⟩ =
      some ⟨d, .instances (s.classOf v), visibility⟩ := by
    rw [shown, tableOf, hm]
    simp only [Option.map_some, Option.getD_some, hd, Option.bind_some]
    cases visibility <;> rfl
  refine ⟨⟨d, .instances (s.classOf v), visibility⟩, i, ?_, hbody, hf⟩
  rw [findMethod_eq, hchain, List.findSome?_cons, hownTable, List.findSome?_cons, hclassTable]

/-- A bare object is there, and is no class. -/
theorem instance_of_isBare (ho : (s.object v).IsBare) :
    v.index < s.objects.size ∧ s.isClass v = false := by
  have hpayload : s.payload v ≠ .object ∧ s.isClass v = false := by
    rw [isClass, module?, Store.payload]
    obtain ⟨i, hi, -⟩ | ⟨xs, hxs, -⟩ := ho.kind
    · rw [hi]; exact ⟨by simp, rfl⟩
    · rw [hxs]; exact ⟨by simp, rfl⟩
  exact ⟨index_lt_of_payload s rfl hpayload.1, hpayload.2⟩

/-- What the table of a class says comes first for objects that have nothing of their own. -/
theorem allAnswer_of_isBare {c : Value} {m : ModuleInfo} {d : MethodDef} {visibility : Visibility}
    {i : Nat} (hold : ∀ v, K (s.object v) → (s.object v).IsBare) (hdefault : ¬K default)
    (hcls : ∀ o, K o → o.IsBare → o.cls = c) (hm : s.module? c = some m)
    (hd : m.methods.lookup name = some (d, visibility)) (hbody : d.body = .builtin i)
    (hf : Library.run i = f) : s.AllAnswer K name f := by
  intro t ht v hv
  have hbare : (t.object v).IsBare := by
    rcases Nat.lt_or_ge v.index s.objects.size with hlt | hge
    · rw [ht.object hlt] at hv ⊢
      exact hold v hv
    · exact (ht.object_of_size_le hge).resolve_right fun h => hdefault (h ▸ hv)
  have hmodule : t.module? c = some m := module?_eq_some.mpr (ht.payload (module?_eq_some.mp hm) nofun)
  obtain ⟨hsize, hclass⟩ := instance_of_isBare hbare
  refine answersWith_of_class hsize hbare.own hbare.extended hclass ?_ hd hbody hf
  rw [classOf, hcls _ hv hbare, hmodule]

end Store

end Garnet
