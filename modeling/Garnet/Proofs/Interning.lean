import Garnet.Proofs.Bodies.Symbols
import Garnet.Proofs.Control.Later
import Mathlib.Logic.ExistsUnique

/-!
# Objects that are one of a kind

Nil, the truth values, the integers of the interned range and the symbol of each name are made once.
Whatever a session runs, an object that holds one of these is the one that is looked up for it; all
other integers are new objects whenever they are made.
-/

namespace Garnet

open Relation

/-- What only one object holds. -/
def Payload.Single (c : Config) : Payload → Prop
  | .nil | .true | .false | .symbol _ => True
  | .integer i => c.interns i = Bool.true
  | _ => False

theorem Payload.Single.rare {c : Config} {p : Payload} (h : p.Single c) : p.Rare := by
  cases p <;> first | exact trivial | exact h

theorem Payload.Rare.fixed {p : Payload} (h : p.Rare) : p.Fixed := by
  cases p <;> first | exact trivial | exact h

namespace Store

variable {s t : Store} {p : Payload} {v : Value}

/-- Where the one object that holds this is looked for. -/
def single? (s : Store) : Payload → Option Value
  | .nil => some .nil
  | .true => some .true
  | .false => some .false
  | .integer i => some (s.config.place i)
  | .symbol name => s.symbols[name]?
  | _ => none

/-- What only one object holds is held by the object that is looked up for it. -/
def Interned (s : Store) : Prop :=
  ∀ p v, p.Single s.config → (s.payload v = p ↔ s.single? p = some v)

/-! ## After a change -/

theorem payload_alloc_iff {o : Object} (ho : o.payload ≠ p) (hp : p ≠ .object) :
    (s.alloc o).2.payload v = p ↔ s.payload v = p := by
  by_cases hv : v = ⟨s.objects.size⟩
  · have hnew : (s.alloc o).2.payload v = o.payload := by rw [hv, payload, object_alloc]
    have hold : s.payload v = .object := by
      rw [payload, object_of_size_le (Nat.le_of_eq (congrArg Value.index hv).symm)]
      rfl
    rw [hnew, hold]
    exact iff_of_false ho hp.symm
  · rw [payload, object_alloc_of_ne s o hv, payload]

namespace Interned

theorem of_same (h : s.Interned) (hobjects : t.objects = s.objects)
    (hsymbols : t.symbols = s.symbols) (hconfig : t.config = s.config) : t.Interned := by
  intro p v hp
  have hplace : t.single? p = s.single? p := by
    cases p <;> simp only [single?, hsymbols, hconfig]
  rw [hplace, payload, object, hobjects]
  exact h p v (hconfig ▸ hp)

theorem alloc (h : s.Interned) {o : Object} (ho : ¬o.payload.Single s.config) :
    (s.alloc o).2.Interned := by
  intro p v hp
  have hne : o.payload ≠ p := fun he => ho (he ▸ hp)
  have hobject : p ≠ .object := fun he => (he ▸ hp : Payload.object.Single s.config)
  rw [payload_alloc_iff hne hobject]
  cases p <;> exact h _ v hp

theorem intern (h : s.Interned) {name : String} (hname : s.symbols[name]? = none) :
    (s.intern name).Interned := by
  intro p v hp
  have hobject : p ≠ .object := fun he => (he ▸ hp : Payload.object.Single s.config)
  have hinsert (n : String) : (s.intern name).symbols[n]? =
      if name = n then some ⟨s.objects.size⟩ else s.symbols[n]? := by
    simp only [Store.intern, Std.TreeMap.getElem?_insert, Std.LawfulEqCmp.compare_eq_iff_eq]
    rfl
  by_cases hpname : p = .symbol name
  · subst hpname
    have hnone : s.payload v ≠ .symbol name := fun hv => by
      have := (h _ v hp).mp hv
      rw [single?, hname] at this
      cases this
    rw [single?, hinsert, if_pos rfl, Option.some.injEq]
    by_cases hv : v = ⟨s.objects.size⟩
    · exact iff_of_true (hv ▸ congrArg Object.payload (object_alloc s _)) hv.symm
    · refine iff_of_false (fun he => hnone ?_) fun he => hv he.symm
      exact (congrArg Object.payload (object_alloc_of_ne s _ hv)).symm.trans he
  · refine (payload_alloc_iff (Ne.symm hpname) hobject).trans ((h p v hp).trans ?_)
    cases p with
    | symbol n =>
      have hn : name ≠ n := fun he => hpname (congrArg _ he.symm)
      rw [single?, single?, hinsert, if_neg hn]
    | _ => exact Iff.rfl

theorem modify (h : s.Interned) {w : Value} {f : Object → Object}
    (hf : ∀ o, (f o).payload = o.payload ∨ ¬o.payload.Fixed ∧ ¬(f o).payload.Fixed) :
    (s.modifyObject w f).Interned := by
  intro p v hp
  rw [payload_modifyObject_iff hp.rare.fixed hf]
  cases p <;> exact h _ v hp

theorem of_edited (hs : s.Interned) (h : Edited s t) : t.Interned := by
  induction h with
  | refl => exact hs
  | alloc _ o ho ih => exact ih.alloc fun h => ho h.rare
  | integer _ i hi ih => exact ih.alloc fun h => nomatch hi.symm.trans h
  | intern _ name hname ih => exact ih.intern hname
  | modify _ v f hf ih => exact ih.modify hf
  | around _ _ _ hconfig hobjects hsymbols _ ih => exact ih.of_same hobjects hsymbols hconfig

theorem lasting : Lasting fun s t => s.Interned → t.Interned where
  trans h h' := h' ∘ h
  of_same h hs := hs.of_same h.objects h.symbols h.config
  exception _ _ _ hs := hs.of_edited (.newException _ _)
  change c _ hc hs := hs.of_edited (.change c hc)

end Interned

/-! ## At the start -/

theorem base_size : base.objects.size = 38 :=
  base_induction (P := fun t => t.objects.size = 38) size_fixedObjects
    (fun _ _ _ _ => size_modifyObject.trans) fun _ _ _ _ _ _ => size_modifyTable.trans

/-- Among the objects at fixed places these are nil and the truth values. -/
theorem fixed_payload (hp : p.Rare) :
    (fixedObjects.getD v.index default).payload = p ↔
      p = .nil ∧ v = .nil ∨ p = .true ∧ v = .true ∨ p = .false ∧ v = .false := by
  obtain ⟨i⟩ := v
  rcases Nat.lt_or_ge i 33 with hi | hi
  · obtain ⟨c, -, hc⟩ := getD_fixedObjects_of_lt hi
    rw [hc]
    refine iff_of_false (fun h => (h ▸ hp : Payload.Rare (.module _))) ?_
    rintro (⟨_, hv⟩ | ⟨_, hv⟩ | ⟨_, hv⟩) <;> cases hv <;> exact absurd hi (by decide)
  · obtain ⟨k, rfl⟩ := Nat.exists_eq_add_of_le hi
    rw [getD_fixedObjects_add]
    rcases k with _ | _ | _ | _ | _ | k <;> cases p <;>
      simp [singularObjects, Payload.Rare, Value.nil, Value.true, Value.false] at hp ⊢ <;> omega

theorem base_payload (hp : p.Rare) :
    base.payload v = p ↔
      p = .nil ∧ v = .nil ∨ p = .true ∧ v = .true ∨ p = .false ∧ v = .false := by
  rcases Nat.lt_or_ge v.index 38 with hv | hv
  · exact (Edited.base.payload_iff hp.fixed hv).trans (fixed_payload hp)
  · rw [payload, object_of_size_le (base_size ▸ hv)]
    have hobject : Payload.object ≠ p := fun h => (h ▸ hp : Payload.Rare .object)
    refine iff_of_false hobject ?_
    rintro (⟨_, rfl⟩ | ⟨_, rfl⟩ | ⟨_, rfl⟩) <;> exact absurd hv (by decide)

/-- The interned integers stand behind the objects at fixed places. -/
theorem getElem?_internedIntegers (config : Config) (k : Nat) (i : Int) :
    ((internedIntegers config)[k]?.getD default).payload = .integer i ↔
      config.interns i = true ∧ config.place i = ⟨38 + k⟩ := by
  have hplace : config.place i = ⟨38 + k⟩ ↔ (i - config.cacheMin).toNat = k := by
    rw [Config.place, Value.mk.injEq, Value.firstFree, Nat.add_left_cancel_iff]
  rw [hplace, Config.interns, Bool.and_eq_true, decide_eq_true_iff, decide_eq_true_iff,
    internedIntegers, Array.getElem?_map, Array.getElem?_range]
  split
  · simp only [Option.map_some, Option.getD_some, Payload.integer.injEq]
    omega
  · simp only [Option.map_none, Option.getD_none]
    refine iff_of_false nofun ?_
    omega

theorem base_symbols (name : String) : base.symbols[name]? = none := by
  rw [Option.eq_none_iff_forall_ne_some]
  intro v hv
  have hp : base.payload v = .symbol name := SymbolsFit.base name v hv
  have hrare : (Payload.symbol name).Rare := trivial
  rcases (base_payload hrare).mp hp with ⟨h, _⟩ | ⟨h, _⟩ | ⟨h, _⟩ <;> cases h

theorem getElem?_internedIntegers_cases (config : Config) (k : Nat) :
    ((internedIntegers config)[k]?.getD default).payload = .object ∨
      ∃ i, ((internedIntegers config)[k]?.getD default).payload = .integer i := by
  rw [internedIntegers, Array.getElem?_map]
  cases (Array.range _)[k]? with
  | none => exact .inl rfl
  | some j => exact .inr ⟨_, rfl⟩

/-- With the interned integers behind the objects at fixed places. -/
theorem interned_append (hsize : s.objects.size = 38)
    (hpayload : ∀ {p : Payload} {v : Value}, p.Rare → (s.payload v = p ↔
      p = .nil ∧ v = .nil ∨ p = .true ∧ v = .true ∨ p = .false ∧ v = .false))
    (hsymbols : ∀ name : String, s.symbols[name]? = none) (config : Config) (input : List String) :
    Store.Interned { s with config, input, objects := s.objects ++ internedIntegers config } := by
  intro p v hp
  obtain ⟨i⟩ := v
  rw [payload, object, Array.getD_eq_getD_getElem?, Array.getElem?_append, hsize]
  split
  · rename_i hi
    have hi : i < 38 := hi
    have hold : (s.objects[i]?.getD default).payload = p ↔ s.payload ⟨i⟩ = p := by
      rw [payload, object, Array.getD_eq_getD_getElem?]
    rw [hold, hpayload hp.rare]
    cases p with
    | integer n =>
      simp only [reduceCtorEq, false_and, or_self, single?, Config.place, Option.some.injEq,
        Value.mk.injEq, Value.firstFree, false_iff]
      omega
    | symbol name => simp only [reduceCtorEq, false_and, or_self, single?, hsymbols]
    | nil | true | false => simp [single?, eq_comm]
    | _ => exact hp.elim
  · rename_i hi
    obtain ⟨k, rfl⟩ := Nat.exists_eq_add_of_le (Nat.le_of_not_lt hi)
    rw [Nat.add_sub_cancel_left]
    cases p with
    | integer n =>
      have hn : config.interns n = true := hp
      simp only [getElem?_internedIntegers, single?, hn, true_and, Option.some.injEq]
    | symbol name =>
      rw [single?, hsymbols]
      rcases getElem?_internedIntegers_cases config k with h | ⟨i, h⟩ <;>
        simp only [h, reduceCtorEq]
    | nil | true | false =>
      have hne : 38 + k ≠ 33 ∧ 38 + k ≠ 34 ∧ 38 + k ≠ 35 := by omega
      rcases getElem?_internedIntegers_cases config k with h | ⟨i, h⟩ <;> rw [h] <;>
        simp only [reduceCtorEq, single?, Option.some.injEq, Value.nil, Value.true, Value.false,
          Value.mk.injEq, false_iff] <;> omega
    | _ => exact hp.elim

theorem start_interned (config : Config) (input : List String) :
    (start config input).Interned :=
  (interned_append base_size base_payload base_symbols config input).of_edited .defineFloats

end Store

/-! ## In the course of a session -/

/-- The heap only grows, and the settings stay. -/
theorem Lasting.grows :
    Lasting fun s t => s.objects.size ≤ t.objects.size ∧ t.config = s.config where
  trans h h' := ⟨Nat.le_trans h.1 h'.1, h'.2.trans h.2⟩
  of_same h := ⟨Nat.le_of_eq (congrArg _ h.objects.symm), h.config⟩
  exception _ _ _ :=
    ⟨(Edited.newException _ _).size_le, (Level.of_edited (.newException _ _)).config⟩
  change c _ hc := ⟨(Edited.change c hc).size_le, (Level.of_edited (.change c hc)).config⟩

namespace Store

variable {config : Config} {input : List String} {s : Store}

theorem config_of_leads (h : ReflTransGen Leads (.start config input) s) : s.config = config := by
  have hstart : (start config input).config = config :=
    (Level.of_edited .defineFloats).config
  exact (Lasting.grows.moments h).2.trans hstart

theorem interned_of_leads (h : ReflTransGen Leads (.start config input) s) : s.Interned :=
  Interned.lasting.moments h (start_interned config input)

theorem newInt_run_interned {i : Int} (hi : s.config.interns i = true) (e : Engine) :
    (Eval.newInt i).run e s = .ok (s.config.place i) s := by
  simp only [Eval.newInt, Eval.view, bind, Act.run, hi, if_true, pure]

theorem newInt_run_fresh {i : Int} (hi : s.config.interns i = false) (e : Engine) :
    (Eval.newInt i).run e s = .ok ⟨s.objects.size⟩
      (s.alloc { cls := CoreClass.integer.value, payload := .integer i }).2 := by
  simp only [Eval.newInt, Eval.view, Eval.make, bind, Act.run, Change.apply, hi,
    Bool.false_eq_true, if_false]

/-- At every moment of a session two integers of the interned range that are equal are the same
object, and so are two symbols of the same name; nil and the truth values are one object each. To
make an integer of the interned range gives the object that is there, and to make another gives an
object that was not there at any earlier moment. -/
theorem one_of_a_kind (h : ReflTransGen Leads (.start config input) s) :
    (∀ v w i, config.cacheMin ≤ i → i ≤ config.cacheMax →
      s.payload v = .integer i → s.payload w = .integer i → v = w) ∧
    (∀ v w name, s.payload v = .symbol name → s.payload w = .symbol name → v = w) ∧
    (∃! v, s.payload v = .nil) ∧ (∃! v, s.payload v = .true) ∧ (∃! v, s.payload v = .false) ∧
    (∀ e i, config.cacheMin ≤ i → i ≤ config.cacheMax →
      ∃ v, (Eval.newInt i).run e s = .ok v s ∧ s.payload v = .integer i) ∧
    (∀ e i, ¬(config.cacheMin ≤ i ∧ i ≤ config.cacheMax) →
      ∃ v t, (Eval.newInt i).run e s = .ok v t ∧ t.payload v = .integer i ∧
        ∀ r, ReflTransGen Leads r s → ∀ w, w.index < r.objects.size → w ≠ v) := by
  have hs : s.Interned := interned_of_leads h
  have hconfig : s.config = config := config_of_leads h
  have hinterns {i : Int} :
      s.config.interns i = true ↔ config.cacheMin ≤ i ∧ i ≤ config.cacheMax := by
    rw [hconfig, Config.interns, Bool.and_eq_true, decide_eq_true_iff, decide_eq_true_iff]
  have unique {p : Payload} (hp : p.Single s.config) {v w : Value} (hv : s.payload v = p)
      (hw : s.payload w = p) : v = w :=
    Option.some.inj (((hs p v hp).mp hv).symm.trans ((hs p w hp).mp hw))
  have one {p : Payload} {v : Value} (hp : p.Single s.config) (hv : s.single? p = some v) :
      ∃! v, s.payload v = p :=
    ⟨v, (hs p v hp).mpr hv, fun w hw => unique hp hw ((hs p v hp).mpr hv)⟩
  refine ⟨fun v w i hmin hmax => ?_, fun v w name => ?_, ?_, ?_, ?_, fun e i hmin hmax => ?_,
    fun e i hi => ?_⟩
  · have hp : Payload.Single s.config (.integer i) := hinterns.mpr ⟨hmin, hmax⟩
    exact unique hp
  · have hp : Payload.Single s.config (.symbol name) := trivial
    exact unique hp
  · exact one (p := .nil) trivial rfl
  · exact one (p := .true) trivial rfl
  · exact one (p := .false) trivial rfl
  · have hi : s.config.interns i = true := hinterns.mpr ⟨hmin, hmax⟩
    exact ⟨_, newInt_run_interned hi e, (hs (.integer i) _ hi).mpr rfl⟩
  · have hi : s.config.interns i = false := Bool.eq_false_iff.mpr fun h => hi (hinterns.mp h)
    refine ⟨_, _, newInt_run_fresh hi e, congrArg Object.payload (object_alloc s _),
      fun r hr w hw => ?_⟩
    have hsize : r.objects.size ≤ s.objects.size := (Lasting.grows.moments hr).1
    rintro rfl
    exact Nat.lt_irrefl _ (Nat.lt_of_lt_of_le hw hsize)

/-- At the start of a session with the usual settings, 1000 is interned and 1001 is not. -/
theorem one_of_a_kind_start :
    ReflTransGen Leads (start {} []) (start {} []) ∧
      (∃ v, (Eval.newInt 1000).run (.ofFuel 0) (start {} []) = .ok v (start {} []) ∧
        (start {} []).payload v = .integer 1000) ∧
      ∃ v t, (Eval.newInt 1001).run (.ofFuel 0) (start {} []) = .ok v t ∧
        t.payload v = .integer 1001 ∧ ∀ w, w.index < (start {} []).objects.size → w ≠ v := by
  have h : ReflTransGen Leads (start {} []) (start {} []) := .refl
  obtain ⟨-, -, -, -, -, hinterned, hfresh⟩ := one_of_a_kind h
  obtain ⟨v, t, hrun, hv, hnew⟩ := hfresh (.ofFuel 0) 1001 (by decide)
  exact ⟨h, hinterned _ 1000 (by decide) (by decide), v, t, hrun, hv, hnew _ h⟩

end Store

end Garnet
