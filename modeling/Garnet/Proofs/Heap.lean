import Garnet.Eval.Convert

/-!
# Objects after a change of the heap
-/

namespace Garnet

theorem Payload.isPlain_of_isNew {p : Payload} (h : p.isNew = .true) : p.isPlain = .true := by
  cases p <;> first | rfl | exact h

theorem Change.isPlain_of_allowed {ℓ : Layer} {cls : CoreClass} {p : Payload}
    {ivars : Dict Value} (h : (Change.alloc cls p ivars).allowed ℓ = true) : p.isPlain = .true :=
  Payload.isPlain_of_isNew h

namespace Store

variable (s : Store) {v w : Value}

theorem object_of_size_le {s : Store} (h : s.objects.size ≤ v.index) : s.object v = default := by
  rw [object, Array.getD_eq_getD_getElem?, Array.getElem?_eq_none h]
  rfl

theorem object_alloc (o : Object) : (s.alloc o).2.object ⟨s.objects.size⟩ = o := by
  simp only [alloc, object, Array.getD_eq_getD_getElem?, Array.getElem?_push_size, Option.getD_some]

theorem object_alloc_of_lt (o : Object) (h : v.index < s.objects.size) :
    (s.alloc o).2.object v = s.object v := by
  simp only [alloc, object, Array.getD_eq_getD_getElem?, Array.getElem?_push_lt h,
    Array.getElem?_eq_getElem h]

theorem object_alloc_of_ne (o : Object) (h : v ≠ ⟨s.objects.size⟩) :
    (s.alloc o).2.object v = s.object v := by
  have hne : v.index ≠ s.objects.size := fun he => h (congrArg Value.mk he)
  rcases Nat.lt_or_gt_of_ne hne with hlt | hgt
  · exact object_alloc_of_lt s o hlt
  · rw [object_of_size_le (Nat.le_of_lt hgt), object_of_size_le]
    rw [alloc, Array.size_push]
    exact hgt

theorem object_append {t : Store} {os : Array Object} (ht : t.objects = s.objects ++ os)
    (h : v.index < s.objects.size) : t.object v = s.object v := by
  rw [object, object, ht, Array.getD_eq_getD_getElem?, Array.getElem?_append_left h,
    ← Array.getD_eq_getD_getElem?]

theorem object_modifyObject (f : Object → Object) :
    (s.modifyObject v f).object w =
      if w = v ∧ v.index < s.objects.size then f (s.object v) else s.object w := by
  simp only [modifyObject, object, Array.getD_eq_getD_getElem?, Array.getElem?_modify]
  by_cases hw : w = v
  · subst hw
    by_cases hs : w.index < s.objects.size
    · simp [hs]
    · simp [hs]
  · have hi : v.index ≠ w.index := fun h => hw (congrArg Value.mk h.symm)
    simp [hw, hi]

theorem modifyObject_congr {f g : Object → Object} (h : f (s.object v) = g (s.object v)) :
    s.modifyObject v f = s.modifyObject v g := by
  have hobjects : s.objects.modify v.index f = s.objects.modify v.index g := by
    refine Array.ext (by rw [Array.size_modify, Array.size_modify]) fun i hi _ => ?_
    rw [Array.size_modify] at hi
    rw [Array.getElem_modify, Array.getElem_modify]
    split
    · rename_i hv
      have hobject : s.objects[i] = s.object v := by
        rw [object, Array.getD_eq_getD_getElem?, hv, Array.getElem?_eq_getElem hi, Option.getD_some]
      rw [hobject, h]
    · rfl
  rw [modifyObject, hobjects, modifyObject]

theorem size_alloc {s : Store} (o : Object) : s.objects.size < (s.alloc o).2.objects.size := by
  rw [alloc, Array.size_push]
  exact Nat.lt_succ_self _

theorem size_modifyObject {s : Store} {f : Object → Object} :
    (s.modifyObject v f).objects.size = s.objects.size :=
  Array.size_modify

/-! ## What an object holds -/

theorem proc?_eq_some {s : Store} {d : ProcData} : s.proc? v = some d ↔ s.payload v = .proc d := by
  unfold proc?
  cases s.payload v <;> simp

theorem text?_eq_some {s : Store} {x : String} : s.text? v = some x ↔ s.payload v = .text x := by
  unfold text?
  cases s.payload v <;> simp

theorem array?_eq_some {s : Store} {xs : Array Value} :
    s.array? v = some xs ↔ s.payload v = .array xs := by
  unfold array?
  cases s.payload v <;> simp

/-- An array has `x` among its elements. -/
def Contains (s : Store) (v x : Value) : Prop := ∃ xs, s.array? v = some xs ∧ x ∈ xs

theorem symbol?_eq_some {s : Store} {x : String} :
    s.symbol? v = some x ↔ s.payload v = .symbol x := by
  unfold symbol?
  cases s.payload v <;> simp

theorem hash?_eq_some {s : Store} {h : HashData} : s.hash? v = some h ↔ s.payload v = .hash h := by
  unfold hash?
  cases s.payload v <;> simp

theorem module?_eq_some {s : Store} {m : ModuleInfo} :
    s.module? v = some m ↔ s.payload v = .module m := by
  unfold module?
  cases s.payload v <;> simp

theorem index_lt_of_payload {p : Payload} (h : s.payload v = p) (hp : p ≠ .object) :
    v.index < s.objects.size := by
  rcases Nat.lt_or_ge v.index s.objects.size with hlt | hge
  · exact hlt
  · rw [payload, object_of_size_le hge] at h
    exact absurd h.symm hp

theorem index_lt_of_array? {s : Store} {xs : Array Value} (h : s.array? v = some xs) :
    v.index < s.objects.size :=
  index_lt_of_payload s (array?_eq_some.mp h) nofun

theorem index_lt_of_proc? {s : Store} {d : ProcData} (h : s.proc? v = some d) :
    v.index < s.objects.size :=
  index_lt_of_payload s (proc?_eq_some.mp h) nofun

theorem array?_alloc {s : Store} {xs : Array Value} (o : Object) (h : s.array? v = some xs) :
    (s.alloc o).2.array? v = some xs := by
  rw [array?, payload, object_alloc_of_lt s o (index_lt_of_array? h)]
  exact h

theorem proc?_alloc {s : Store} {d : ProcData} (o : Object) (h : s.proc? v = some d) :
    (s.alloc o).2.proc? v = some d := by
  rw [proc?, payload, object_alloc_of_lt s o (index_lt_of_proc? h)]
  exact h

/-! ## Objects that stay as they are -/

/-- The objects that were there are as they were. -/
structure Keeps (s t : Store) : Prop where
  size_le : s.objects.size ≤ t.objects.size
  object : ∀ v : Value, v.index < s.objects.size → t.object v = s.object v

namespace Keeps

variable {s t u : Store} {v : Value}

theorem refl (s : Store) : Keeps s s := ⟨Nat.le_refl _, fun _ _ => rfl⟩

theorem of_objects (h : t.objects = s.objects) : Keeps s t :=
  ⟨Nat.le_of_eq (congrArg _ h.symm), fun v _ => by rw [Store.object, Store.object, h]⟩

theorem trans (h : Keeps s t) (h' : Keeps t u) : Keeps s u where
  size_le := Nat.le_trans h.size_le h'.size_le
  object v hv := (h'.object v (Nat.lt_of_lt_of_le hv h.size_le)).trans (h.object v hv)

theorem alloc (o : Object) : Keeps s (s.alloc o).2 where
  size_le := Nat.le_of_lt (size_alloc o)
  object _ hv := object_alloc_of_lt s o hv

/-- An object that was not there may change. -/
theorem modify {f : Object → Object} (h : Keeps s t) (hv : s.objects.size ≤ v.index) :
    Keeps s (t.modifyObject v f) where
  size_le := Nat.le_trans h.size_le (Nat.le_of_eq size_modifyObject.symm)
  object w hw := by
    have hne : ¬(w = v ∧ v.index < t.objects.size) := by
      rintro ⟨rfl, -⟩
      exact Nat.not_le_of_lt hw hv
    rw [object_modifyObject, if_neg hne, h.object w hw]

theorem payload (h : Keeps s t) (hv : v.index < s.objects.size) : t.payload v = s.payload v :=
  congrArg Object.payload (h.object v hv)

theorem array? (h : Keeps s t) (hv : v.index < s.objects.size) : t.array? v = s.array? v := by
  rw [Store.array?, Store.array?, h.payload hv]

end Keeps

/-! ## New instances and copies -/

/-- A new instance holds data only, and no entries. -/
theorem blankInstance?_eq_some {s : Store} {cls : Value} {o : Object}
    (h : s.blankInstance? cls = some o) :
    ∃ p : Payload, p.isNew = true ∧ o = { cls, payload := p } ∧ s.isClass cls = true := by
  unfold blankInstance? at h
  split at h
  · rename_i m hm
    split at h
    · cases h
    · rename_i hclass
      obtain ⟨p, hp, rfl⟩ := Option.map_eq_some_iff.mp h
      refine ⟨p, ?_, rfl, ?_⟩
      · cases halloc : m.alloc <;> rw [halloc] at hp <;> cases hp <;> rfl
      · simpa [isClass, hm] using hclass
  · cases h

/-- A copy has the class and the data of the original. -/
theorem copiedObject?_eq_some {s : Store} {v : Value} {o : Object}
    (h : s.copiedObject? v = some o) :
    ∃ ivars : Dict Value, (s.payload v).isPlain = true ∧
      o = { cls := s.classOf v, payload := s.payload v, ivars } := by
  unfold copiedObject? at h
  dsimp only at h
  split at h <;> rename_i hp <;> cases h <;>
    exact ⟨_, by rw [payload, hp]; rfl, rfl⟩

/-! ## Operations on classes -/

section Classes

variable {s t : Store} {c d module : Value} {name : String}

/-- A new class has nothing of its own. -/
theorem subclass_eq_ok (h : s.subclass c name = .ok (d, t)) :
    ∃ m, s.module? c = some m ∧ m.isModule = false ∧
      s.alloc
        { cls := s.classOf c
          payload := .module { name, isModule := false, base := some c, alloc := m.alloc } } =
        (d, t) := by
  unfold subclass at h
  split at h
  · cases h
  · rename_i m hm
    split at h
    · cases h
    · rename_i hclass
      exact ⟨m, hm, Bool.eq_false_iff.mpr hclass, Except.ok.inj h⟩

/-- A copy has no constants and variables, and no methods of its own. -/
theorem copyClass_eq_ok (h : s.copyClass c = .ok (d, t)) :
    ∃ m, s.module? c = some m ∧
      s.alloc { cls := s.classOf c, payload := .module { m with consts := {}, cvars := {} } } =
        (d, t) := by
  unfold copyClass at h
  split at h
  · cases h
  · exact ⟨_, ‹_›, Except.ok.inj h⟩

theorem includeModule_eq_ok (h : s.includeModule c module = .ok t) :
    ∃ m, s.module? c = some m ∧ s.isModule module = true ∧
      (m.included.contains module = true ∧ t = s ∨
        t = s.modifyModule c fun m => { m with included := m.included ++ [module] }) := by
  unfold includeModule at h
  split at h
  · cases h
  · rename_i m hm
    split at h
    · cases h
    · rename_i hmodule
      refine ⟨m, hm, by simpa using hmodule, ?_⟩
      split at h <;> cases h
      · exact .inl ⟨‹_›, rfl⟩
      · exact .inr rfl

theorem extendObject_eq_ok (h : s.extendObject v module = .ok t) :
    s.isModule module = true ∧
      (t = s ∨ t = s.modifyObject v fun o => { o with extended := o.extended ++ [module] }) := by
  unfold extendObject at h
  split at h
  · cases h
  · rename_i hmodule
    refine ⟨by simpa using hmodule, ?_⟩
    split at h <;> cases h
    · exact .inl rfl
    · exact .inr rfl

end Classes

/-! ## New exceptions -/

theorem newException_fst (cls : Value) (message : String) :
    (s.newException cls message).1 = ⟨s.objects.size + 1⟩ := by
  simp only [newException, alloc, Array.size_push]

theorem classOf_newException (cls : Value) (message : String) :
    (s.newException cls message).2.classOf (s.newException cls message).1 = cls :=
  congrArg Object.cls (object_alloc _ _)

theorem exceptionMessage_newException (cls : Value) (message : String) :
    (s.newException cls message).2.exceptionMessage (s.newException cls message).1 = message := by
  have ivar : (s.newException cls message).2.ivar? (s.newException cls message).1 "@message" =
      some ⟨s.objects.size⟩ := by
    rw [ivar?]
    exact (congrArg (fun o : Object => o.ivars.get? "@message") (object_alloc _ _)).trans
      (Dict.get?_insert ..)
  have text : (s.newException cls message).2.text? ⟨s.objects.size⟩ = some message := by
    rw [text?, payload, newException, object_alloc_of_lt, object_alloc]
    simp only [alloc, Array.size_push, Nat.lt_add_one]
  rw [exceptionMessage, ivar]
  dsimp only
  rw [text]
  rfl

end Store

end Garnet
