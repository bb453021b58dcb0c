import Garnet.Proofs.Control.Later
import Garnet.Proofs.Hashes.Entries
import Garnet.Proofs.Hierarchy.Link
import Garnet.Proofs.Lookup.Tables

/-!
# What objects hold

An array, a hash and a text have one change each that writes to them. All other changes leave what
an object holds as it is, apart from the tables of a class; a new object has no keys of its own
making.
-/

namespace Garnet

/-- What an object holds apart from the tables of a class. -/
def Payload.data : Payload → Payload
  | .module _ => .object
  | p => p

theorem Payload.keys_data {p : Payload} : p.data.keys = p.keys := by
  cases p <;> rfl

/-- What an object holds for good. -/
def Payload.kind : Payload → Payload
  | .module _ => .object
  | .text _ => .text ""
  | .array _ => .array #[]
  | .hash _ => .hash {}
  | p => p

theorem Payload.kind_data {p : Payload} : p.data.kind = p.kind := by
  cases p <;> rfl

/-- What is never changed. -/
def Payload.Scalar : Payload → Prop
  | .integer _ | .float _ | .symbol _ => True
  | _ => False

theorem Payload.eq_of_kind {p q : Payload} (hq : q.Scalar) (h : q.kind = p.kind) : p = q := by
  cases q with
  | integer | float | symbol => cases p <;> first | exact h.symm | cases h
  | _ => exact hq.elim

/-- The object that a change writes into. -/
def Change.target? : Change → Option Value
  | .modifyItems v _ | .editHash v _ | .setText v _ => some v
  | _ => none

namespace Store

variable {s t u : Store} {c d v w : Value} {name : String} {target : Option Value}

/-- No object but the target holds anything else, and the keys of a new one come from one that was
there. -/
structure SameData (target : Option Value) (s t : Store) : Prop where
  size_le : s.objects.size ≤ t.objects.size
  data : ∀ v, v.index < s.objects.size → target ≠ some v →
    (t.payload v).data = (s.payload v).data
  keys_fresh : ∀ v, s.objects.size ≤ v.index → ∃ w, t.keys v = s.keys w

namespace SameData

theorem of_objects (h : t.objects = s.objects) : SameData target s t := by
  have hpayload (v : Value) : t.payload v = s.payload v := by
    rw [payload, payload, object, object, h]
  exact ⟨Nat.le_of_eq (congrArg _ h.symm), fun v _ _ => congrArg _ (hpayload v),
    fun v _ => ⟨v, congrArg _ (hpayload v)⟩⟩

theorem refl : SameData target s s := of_objects rfl

theorem keys (h : SameData target s t) (hv : v.index < s.objects.size) (hne : target ≠ some v) :
    t.keys v = s.keys v := by
  rw [Store.keys, ← Payload.keys_data, h.data v hv hne, Payload.keys_data, Store.keys]

theorem trans (h : SameData none s t) (h' : SameData none t u) : SameData none s u := by
  refine ⟨Nat.le_trans h.size_le h'.size_le, fun v hv _ => ?_, fun v hv => ?_⟩
  · exact (h'.data v (Nat.lt_of_lt_of_le hv h.size_le) nofun).trans (h.data v hv nofun)
  · rcases Nat.lt_or_ge v.index t.objects.size with hlt | hge
    · obtain ⟨w, hw⟩ := h.keys_fresh v hv
      exact ⟨w, (h'.keys hlt nofun).trans hw⟩
    · obtain ⟨w, hw⟩ := h'.keys_fresh v hge
      rcases Nat.lt_or_ge w.index s.objects.size with hlt | hge
      · exact ⟨w, hw.trans (h.keys hlt nofun)⟩
      · obtain ⟨w', hw'⟩ := h.keys_fresh w hge
        exact ⟨w', hw.trans hw'⟩

theorem alloc_of_keys {o : Object} (ho : o.payload.keys = s.keys w) :
    SameData target s (s.alloc o).2 := by
  refine ⟨Nat.le_of_lt (size_alloc o), fun v hv _ => ?_, fun v _ => ?_⟩
  · rw [payload, object_alloc_of_lt s o hv, payload]
  · by_cases hv : v = ⟨s.objects.size⟩
    · rw [hv, Store.keys, payload, object_alloc]
      exact ⟨w, ho⟩
    · rw [Store.keys, payload, object_alloc_of_ne s o hv]
      exact ⟨v, rfl⟩

theorem alloc {o : Object} (ho : o.payload.keys = []) : SameData target s (s.alloc o).2 := by
  have hnone : s.keys ⟨s.objects.size⟩ = [] := keys_of_size_le (Nat.le_refl _)
  exact alloc_of_keys (ho.trans hnone.symm)

theorem modifyObject {f : Object → Object}
    (hf : target = some c ∨ (f (s.object c)).payload.data = (s.object c).payload.data) :
    SameData target s (s.modifyObject c f) := by
  refine ⟨Nat.le_of_eq size_modifyObject.symm, fun v hv hne => ?_, fun v hv => ⟨v, ?_⟩⟩
  · rcases hf with rfl | hf
    · have hcv : ¬(v = c ∧ c.index < s.objects.size) := fun h => hne (congrArg some h.1.symm)
      rw [payload, object_modifyObject, if_neg hcv, payload]
    · exact keep_modifyObject (·.payload.data) hf
  · have hv' : (s.modifyObject c f).objects.size ≤ v.index := size_modifyObject.symm ▸ hv
    rw [keys_of_size_le hv, keys_of_size_le hv']

theorem modifyModule (f : ModuleInfo → ModuleInfo) : SameData target s (s.modifyModule c f) := by
  refine modifyObject (.inr ?_)
  split
  · rename_i m hm
    rw [hm]
    rfl
  · rfl

theorem modifyTable (holder : Holder) (f : MethodTable → MethodTable) :
    SameData target s (s.modifyTable holder f) := by
  cases holder with
  | own => exact modifyObject (.inr rfl)
  | instances => exact modifyModule _

theorem promoteAll (holder : Holder) (methods : List (String × Pending)) :
    SameData none s (s.promoteAll holder methods) :=
  promoteAll_induction holder refl (fun _ f ht => ht.trans (modifyTable holder f)) methods

theorem newException (cls : Value) (message : String) :
    SameData none s (s.newException cls message).2 :=
  (alloc rfl).trans (alloc rfl)

end SameData

end Store

theorem Payload.keys_of_isNew {p : Payload} (h : p.isNew = .true) : p.keys = [] := by
  cases p with
  | hash d => exact List.isEmpty_iff.mp h
  | _ => rfl

open Store in
theorem Change.sameData {ℓ : Layer} {c : Change} (hc : c.allowed ℓ = true) (s : Store) :
    SameData c.target? s (c.apply s) := by
  cases c with
  | alloc cls payload ivars => exact .alloc (Payload.keys_of_isNew hc)
  | allocInteger =>
    simp only [apply]
    split
    · exact .refl
    · exact .alloc rfl
  | allocSymbol =>
    simp only [apply]
    split
    · exact .refl
    · exact .trans (.alloc rfl) (.of_objects rfl)
  | instantiate =>
    simp only [apply]
    split
    · obtain ⟨p, hp, rfl, -⟩ := blankInstance?_eq_some ‹_›
      exact .alloc (Payload.keys_of_isNew hp)
    · exact .refl
  | copyObject =>
    simp only [apply]
    split
    · obtain ⟨ivars, -, rfl⟩ := copiedObject?_eq_some ‹_›
      exact .alloc_of_keys rfl
    · exact .refl
  | allocBlock | allocStep | newModule => exact .alloc rfl
  | allocLambda p =>
    simp only [apply]
    split
    · exact .alloc rfl
    · exact .refl
  | setIvar => exact .modifyObject (.inr rfl)
  | modifyItems | editHash | setText => exact .modifyObject (.inl rfl)
  | subclass =>
    simp only [apply]
    split
    · obtain ⟨m, -, -, h⟩ := subclass_eq_ok ‹_›
      cases h
      exact .alloc rfl
    · exact .refl
  | copyClass =>
    simp only [apply]
    split
    · obtain ⟨m, -, h⟩ := copyClass_eq_ok ‹_›
      cases h
      exact .alloc rfl
    · exact .refl
  | includeModule =>
    simp only [apply]
    split
    · obtain ⟨m, -, -, ⟨-, rfl⟩ | rfl⟩ := includeModule_eq_ok ‹_›
      · exact .refl
      · exact .modifyModule _
    · exact .refl
  | extendObject =>
    simp only [apply]
    split
    · obtain ⟨-, rfl | rfl⟩ := extendObject_eq_ok ‹_›
      · exact .refl
      · exact .modifyObject (.inr rfl)
    · exact .refl
  | setCvar | setConst | nameModule => exact .modifyModule _
  | define | setVisibility | eraseMethod => exact .modifyTable _ _
  | aliasMethod =>
    simp only [apply]
    split
    · exact .modifyModule _
    · exact .refl
  | adopt =>
    simp only [apply]
    split
    · exact .modifyTable _ _
    · exact .refl
  | aliasPending | aliasVisible =>
    simp only [apply]
    split <;> exact .of_objects rfl
  | promote =>
    refine SameData.trans ?_ (.promoteAll _ _)
    exact .of_objects rfl
  | _ => exact .of_objects rfl

namespace Store

variable {s : Store} {v w : Value} {h : HashData} {e : HashEdit}

theorem keys_modifyObject {f : Object → Object} (hf : ∀ o, (f o).payload.keys = o.payload.keys) :
    (s.modifyObject w f).keys v = s.keys v :=
  keep_modifyObject (·.payload.keys) (hf _)

theorem keys_modifyItems {f : Array Value → Array Value} :
    ((Change.modifyItems w f).apply s).keys v = s.keys v :=
  keys_modifyObject fun o => by cases ho : o.payload <;> simp only [ho, Payload.keys]

theorem keys_setText {x : String} : ((Change.setText w x).apply s).keys v = s.keys v :=
  keys_modifyObject fun o => by cases ho : o.payload <;> simp only [ho, Payload.keys]

theorem payload_editHash (hv : s.payload v = .hash h) :
    ((Change.editHash v e).apply s).payload v = .hash (e.apply s h) := by
  have hlt : v.index < s.objects.size := index_lt_of_payload s hv nofun
  have hhash : s.hash? v = some h := by rw [hash?, hv]
  have hobject : (s.object v).payload = .hash h := hv
  rw [payload, Change.apply, object_modifyObject, if_pos ⟨rfl, hlt⟩, hhash]
  simp only [hobject, Option.getD_some]

theorem keys_editHash (s : Store) (v : Value) (e : HashEdit) :
    (∃ w, (((Change.editHash v e).apply s).keys v).Sublist (s.keys w)) ∨
      ∃ key x, e = .insert key x ∧ key.index < s.objects.size ∧
        (∀ a ∈ s.keys v, s.keyEql a key = false) ∧
        ((Change.editHash v e).apply s).keys v = s.keys v ++ [key] := by
  cases hp : s.payload v with
  | hash h =>
    have hkeys : s.keys v = h.table.keys := congrArg Payload.keys hp
    have happly : ((Change.editHash v e).apply s).keys v = (e.apply s h).table.keys :=
      congrArg Payload.keys (payload_editHash hp)
    rw [hkeys, happly]
    obtain hsub | ⟨w, hw⟩ | hnew := e.keys_apply s h
    · exact .inl ⟨v, hkeys ▸ hsub⟩
    · exact .inl ⟨w, hw ▸ .refl _⟩
    · exact .inr hnew
  | _ =>
    refine .inl ⟨v, ?_⟩
    have hobject : (s.object v).payload = s.payload v := rfl
    rw [keys, payload, Change.apply, keep_modifyObject (·.payload.keys)]
    · exact .refl _
    · rw [hobject, hp]
      exact congrArg Payload.keys hp

end Store

open Store in
/-- Where the keys of a hash come from. -/
theorem Change.keys_apply {ℓ : Layer} {c : Change} (hc : c.allowed ℓ = true) (s : Store)
    (v : Value) :
    (∃ w, ((c.apply s).keys v).Sublist (s.keys w)) ∨
      ∃ key x, c = .editHash v (.insert key x) ∧ key.index < s.objects.size ∧
        (∀ a ∈ s.keys v, s.keyEql a key = false) ∧ (c.apply s).keys v = s.keys v ++ [key] := by
  have hdata := c.sameData hc s
  rcases Nat.lt_or_ge v.index s.objects.size with hlt | hge
  · by_cases htarget : c.target? = some v
    · cases c with
      | modifyItems =>
        rw [keys_modifyItems]
        exact .inl ⟨v, .refl _⟩
      | setText =>
        rw [keys_setText]
        exact .inl ⟨v, .refl _⟩
      | editHash w e =>
        cases htarget
        obtain h | ⟨key, x, rfl, hnew⟩ := keys_editHash s v e
        · exact .inl h
        · exact .inr ⟨key, x, rfl, hnew⟩
      | _ => cases htarget
    · exact .inl ⟨v, hdata.keys hlt htarget ▸ .refl _⟩
  · obtain ⟨w, hw⟩ := hdata.keys_fresh v hge
    exact .inl ⟨w, hw ▸ .refl _⟩

/-- A text stays a text, an array an array and a hash a hash; a number and a symbol stay what they
are. -/
theorem Change.kind_apply {ℓ : Layer} {c : Change} (hc : c.allowed ℓ = true) {s : Store}
    {v : Value} (hv : v.index < s.objects.size) :
    ((c.apply s).payload v).kind = (s.payload v).kind := by
  by_cases htarget : c.target? = some v
  · cases c with
    | modifyItems | editHash | setText =>
      refine Store.keep_modifyObject (·.payload.kind) ?_
      split
      · rename_i hp
        rw [hp]
        rfl
      · rfl
    | _ => cases htarget
  · have hdata := (c.sameData hc s).data v hv htarget
    rw [← Payload.kind_data, hdata, Payload.kind_data]

theorem Lasting.kind :
    Lasting fun s t => s.objects.size ≤ t.objects.size ∧
      ∀ v, v.index < s.objects.size → (t.payload v).kind = (s.payload v).kind where
  trans h h' := ⟨Nat.le_trans h.1 h'.1, fun v hv =>
    (h'.2 v (Nat.lt_of_lt_of_le hv h.1)).trans (h.2 v hv)⟩
  of_same h := ⟨Nat.le_of_eq (congrArg _ h.objects.symm), fun v _ => by
    rw [Store.payload, Store.payload, Store.object, Store.object, h.objects]⟩
  exception s c message := by
    have h : Store.SameData none s (s.newException c.value message).2 := .newException _ _
    refine ⟨h.size_le, fun v hv => ?_⟩
    rw [← Payload.kind_data, h.data v hv (Option.some_ne_none v).symm, Payload.kind_data]
  change c s hc := ⟨(c.sameData hc s).size_le, fun _ hv => c.kind_apply hc hv⟩

end Garnet
