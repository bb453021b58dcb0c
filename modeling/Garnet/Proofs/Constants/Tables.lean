import Garnet.Eval.Act
import Garnet.Eval.Names
import Garnet.Proofs.Hierarchy.Link
import Garnet.Proofs.Lookup.Tables

/-!
# Tables of constants

What a change does to the constants of classes and modules. A single change writes to one table,
with no regard to what the name means there; all others leave every table as it is.
-/

namespace Garnet

/-- The constants that an object with this payload holds. -/
def Payload.consts : Payload → Dict Value
  | .module m => m.consts
  | _ => {}

namespace Store

variable {s t u : Store} {c d holder v : Value} {name : String}

theorem const?_eq : s.const? holder name = (s.payload holder).consts.get? name := by
  unfold const? module?
  cases s.payload holder <;> rfl

/-- Every table of constants is the same. -/
def SameConsts (s t : Store) : Prop := ∀ v, (t.payload v).consts = (s.payload v).consts

namespace SameConsts

theorem const? (h : SameConsts s t) (holder : Value) (name : String) :
    t.const? holder name = s.const? holder name := by
  rw [const?_eq, const?_eq, h]

theorem refl : SameConsts s s := fun _ => rfl

theorem trans (h : SameConsts s t) (h' : SameConsts t u) : SameConsts s u :=
  fun v => (h' v).trans (h v)

theorem of_objects (h : t.objects = s.objects) : SameConsts s t := by
  intro v
  rw [payload, payload, object, object, h]

/-- A new object holds no constants yet. -/
theorem alloc {o : Object} (ho : o.payload.consts = {}) : SameConsts s (s.alloc o).2 :=
  fun _ => keep_alloc (·.payload.consts) ho

theorem modifyObject {f : Object → Object}
    (hf : (f (s.object c)).payload.consts = (s.object c).payload.consts) :
    SameConsts s (s.modifyObject c f) :=
  fun _ => keep_modifyObject (·.payload.consts) hf

theorem modifyModule {f : ModuleInfo → ModuleInfo} (hf : ∀ m, (f m).consts = m.consts) :
    SameConsts s (s.modifyModule c f) := by
  refine modifyObject ?_
  split
  · rename_i m hm
    rw [hm]
    exact hf m
  · rfl

theorem modifyTable (holder : Holder) (f : MethodTable → MethodTable) :
    SameConsts s (s.modifyTable holder f) := by
  cases holder with
  | own => exact modifyObject rfl
  | instances => exact modifyModule fun _ => rfl

theorem promoteAll (holder : Holder) (methods : List (String × Pending)) :
    SameConsts s (s.promoteAll holder methods) :=
  promoteAll_induction holder refl (fun _ f ht => ht.trans (modifyTable holder f)) methods

theorem newException (cls : Value) (message : String) :
    SameConsts s (s.newException cls message).2 :=
  (alloc rfl).trans (alloc rfl)

theorem subclass (h : s.subclass c name = .ok (d, t)) : SameConsts s t := by
  obtain ⟨m, -, -, h⟩ := subclass_eq_ok h
  cases h
  exact alloc rfl

theorem copyClass (h : s.copyClass c = .ok (d, t)) : SameConsts s t := by
  obtain ⟨m, -, h⟩ := copyClass_eq_ok h
  cases h
  exact alloc rfl

theorem includeModule (h : s.includeModule c d = .ok t) : SameConsts s t := by
  obtain ⟨m, -, -, ⟨-, rfl⟩ | rfl⟩ := includeModule_eq_ok h
  · exact refl
  · exact modifyModule fun _ => rfl

theorem extendObject (h : s.extendObject c d = .ok t) : SameConsts s t := by
  obtain ⟨-, rfl | rfl⟩ := extendObject_eq_ok h
  · exact refl
  · exact modifyObject rfl

end SameConsts

theorem const?_setConst {w : Value} {n : String} :
    ((Change.setConst c name v).apply s).const? w n =
      if w = c ∧ n = name ∧ s.isModuleLike c then some v else s.const? w n := by
  unfold const? isModuleLike
  rw [Change.apply, module?_modifyModule]
  by_cases hw : w = c
  · subst hw
    cases s.module? w with
    | none => simp
    | some m => simp [Dict.get?_insert]
  · simp [hw]

end Store

/-- A change that writes to a table of constants. -/
def Change.SetsConst (c : Change) (holder : Value) (name : String) : Prop :=
  ∃ v, c = .setConst holder name v

theorem Payload.consts_of_isPlain {p : Payload} (h : p.isPlain = .true) : p.consts = {} := by
  cases p with
  | module => cases h
  | _ => rfl

open Store in
/-- No other change touches a constant. -/
theorem Change.sameConsts {ℓ : Layer} {c : Change} (hc : c.allowed ℓ = true)
    (h : ∀ holder name, ¬c.SetsConst holder name) (s : Store) : SameConsts s (c.apply s) := by
  cases c with
  | setConst holder name v => exact absurd ⟨v, rfl⟩ (h holder name)
  | alloc cls payload ivars =>
    exact .alloc (Payload.consts_of_isPlain (Change.isPlain_of_allowed hc))
  | allocInteger =>
    simp only [apply]
    split
    · exact .refl
    · exact .alloc rfl
  | allocSymbol =>
    simp only [apply]
    split
    · exact .refl
    · exact .trans (.alloc rfl) (.of_objects rfl)
  | instantiate =>
    simp only [apply]
    split
    · obtain ⟨p, hp, rfl, -⟩ := blankInstance?_eq_some ‹_›
      exact .alloc (Payload.consts_of_isPlain (Payload.isPlain_of_isNew hp))
    · exact .refl
  | copyObject =>
    simp only [apply]
    split
    · obtain ⟨ivars, hp, rfl⟩ := copiedObject?_eq_some ‹_›
      exact .alloc (Payload.consts_of_isPlain hp)
    · exact .refl
  | allocBlock | allocStep | newModule => exact .alloc rfl
  | allocLambda p =>
    simp only [apply]
    split
    · exact .alloc rfl
    · exact .refl
  | setIvar => exact .modifyObject rfl
  | modifyItems | editHash | setText =>
    refine .modifyObject ?_
    split
    · rename_i hp
      rw [hp]
      rfl
    · rfl
  | subclass =>
    simp only [apply]
    split
    · exact .subclass ‹_›
    · exact .refl
  | copyClass =>
    simp only [apply]
    split
    · exact .copyClass ‹_›
    · exact .refl
  | includeModule =>
    simp only [apply]
    split
    · exact .includeModule ‹_›
    · exact .refl
  | extendObject =>
    simp only [apply]
    split
    · exact .extendObject ‹_›
    · exact .refl
  | setCvar | nameModule => exact .modifyModule fun _ => rfl
  | define | setVisibility | eraseMethod => exact .modifyTable _ _
  | aliasMethod =>
    simp only [apply]
    split
    · exact .modifyModule fun _ => rfl
    · exact .refl
  | adopt =>
    simp only [apply]
    split
    · exact .modifyTable _ _
    · exact .refl
  | aliasPending | aliasVisible =>
    simp only [apply]
    split <;> exact .of_objects rfl
  | promote =>
    exact .trans (.of_objects rfl) (.promoteAll _ _)
  | _ => exact .of_objects rfl

end Garnet
