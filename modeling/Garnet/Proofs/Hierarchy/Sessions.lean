import Garnet.Proofs.Control.Kept
import Garnet.Proofs.Hierarchy.Changes
import Garnet.Proofs.Hierarchy.Walks
import Garnet.Proofs.Edited

/-!
# The hierarchy along a session

What the links between classes and modules are at the start of a session, and what every run keeps of
them.
-/

/-!
## The hierarchy at the start

A session starts with the classes and modules of the core. Their bases come before them, and the
modules among them include nothing.
-/

namespace Garnet

namespace CoreClass

/-- The link of a class or module of the core. -/
def link (c : CoreClass) : Link := ⟨c.isModule, c.base.map value, c.mixins.map value⟩

variable {c b : CoreClass}

theorem getElem?_all (c : CoreClass) : all[c.value.index]? = some c := by cases c <;> rfl

theorem value_of_getElem? : ∀ i < 33, all[i]?.map value = some ⟨i⟩ := by decide

theorem isModule_of_base (h : c.base = some b) : b.isModule = false := by
  cases c <;> cases h <;> rfl

theorem index_lt_of_base (h : c.base = some b) : b.value.index < c.value.index := by
  cases c <;> cases h <;> decide

theorem isModule_of_mem_mixins (h : b ∈ c.mixins) : b.isModule = true := by
  cases c <;> simp [mixins] at h <;> subst h <;> rfl

theorem base_of_isModule (h : c.isModule = true) : c.base = none ∧ c.mixins = [] := by
  cases c <;> first | exact ⟨rfl, rfl⟩ | cases h

end CoreClass

namespace Store

variable {s : Store} {v : Value}

/-! ### What is done before the start -/

theorem link?_defineConst (c : CoreClass) (name : String) (x : Value) :
    (s.defineConst c name x).link? v = s.link? v :=
  link?_modifyModule fun _ => rfl

theorem link?_base : base.link? v = bare.link? v :=
  base_induction (P := fun t => t.link? v = bare.link? v) rfl
    (fun _ _ _ _ => (link?_defineConst _ _ _).trans)
    fun _ _ _ _ _ _ => (sameLinks_modifyTable.link v).trans

theorem plain_of_mem_internedIntegers {config : Config} {o : Object}
    (ho : o ∈ internedIntegers config) : o.payload.link? = none := by
  obtain ⟨k, _, rfl⟩ := Array.mem_map.mp ho
  rfl

theorem start_link? (config : Config) (input : List String) :
    (start config input).link? v = (fixedObjects.getD v.index default).payload.link? := by
  have hintegers : ∀ o ∈ internedIntegers config, o.payload.link? = none :=
    fun _ => plain_of_mem_internedIntegers
  exact start_induction
    (P := fun t => t.link? v = (fixedObjects.getD v.index default).payload.link?)
    config input link?_base (fun _ => (keep_append (·.payload.link?) rfl hintegers).trans)
    (fun _ _ _ _ => (link?_defineConst _ _ _).trans) fun _ _ => (link?_alloc_plain rfl).trans

theorem fixed_link? (i : Nat) :
    (fixedObjects.getD i default).payload.link? = CoreClass.all[i]?.map CoreClass.link := by
  rcases Nat.lt_or_ge i 33 with hi | hi
  · obtain ⟨c, hall, hc⟩ := getD_fixedObjects_of_lt hi
    rw [hall, hc]
    rfl
  · have hnone : CoreClass.all[i]? = none := List.getElem?_eq_none hi
    obtain ⟨k, rfl⟩ := Nat.exists_eq_add_of_le hi
    rw [hnone, getD_fixedObjects_add]
    rcases k with _ | _ | _ | _ | _ | k <;> rfl

/-! ### At the start -/

variable (config : Config) (input : List String) {l : Link}

theorem start_link?_value (c : CoreClass) : (start config input).link? c.value = some c.link := by
  rw [start_link?, fixed_link?, CoreClass.getElem?_all]
  rfl

theorem exists_of_start_link? (h : (start config input).link? v = some l) :
    ∃ c : CoreClass, c.value = v ∧ c.link = l := by
  rw [start_link?, fixed_link?] at h
  obtain ⟨c, hc, rfl⟩ := Option.map_eq_some_iff.mp h
  have hindex : v.index < 33 := (List.getElem?_eq_some_iff.mp hc).1
  have hvalue := CoreClass.value_of_getElem? _ hindex
  rw [hc] at hvalue
  exact ⟨c, Option.some.inj hvalue, rfl⟩

theorem start_hierarchy : (start config input).Hierarchy := by
  have hlink := start_link?_value config input
  refine ⟨?_, fun {v l} h => ?_, fun {v l b} h hb => ?_⟩
  · have h := index_lt_of_link? (Option.isSome_of_eq_some (hlink .basicObject))
    exact Nat.zero_lt_of_lt h
  · obtain ⟨c, rfl, rfl⟩ := exists_of_start_link? config input h
    refine ⟨fun {b} hb => ?_, fun hm => ?_, fun {m} hm => ?_⟩
    · obtain ⟨b, hbase, rfl⟩ := Option.map_eq_some_iff.mp hb
      exact isClass_iff.mpr ⟨_, hlink b, CoreClass.isModule_of_base hbase⟩
    · exact congrArg (Option.map CoreClass.value) (CoreClass.base_of_isModule hm).1
    · obtain ⟨m, hmem, rfl⟩ := List.mem_map.mp hm
      exact isModule_iff.mpr ⟨_, hlink m, CoreClass.isModule_of_mem_mixins hmem⟩
  · obtain ⟨c, rfl, rfl⟩ := exists_of_start_link? config input h
    obtain ⟨b, hbase, rfl⟩ := Option.map_eq_some_iff.mp hb
    exact CoreClass.index_lt_of_base hbase

theorem start_acyclic : (start config input).Acyclic := by
  intro v hcycle
  obtain ⟨l, hl, hmodule⟩ :=
    isModule_iff.mp ((start_hierarchy config input).isModule_of_cycle hcycle)
  obtain ⟨d, habove, _⟩ := Relation.TransGen.head'_iff.mp hcycle
  obtain ⟨l', hl', hd⟩ := above_iff.mp habove
  rw [hl] at hl'
  cases hl'
  obtain ⟨c, rfl, rfl⟩ := exists_of_start_link? config input hl
  obtain ⟨hbase, hmixins⟩ := CoreClass.base_of_isModule hmodule
  rcases hd with hb | hi
  · rw [CoreClass.link, hbase] at hb
    cases hb
  · rw [CoreClass.link, hmixins] at hi
    cases hi

end Store

end Garnet

/-!
## Cycles in the course of a session

Whatever a session runs keeps what the links of classes and modules have by the way they are made.
A run leaves a hierarchy without cycles exactly when it began with one and none of its inclusions
closed a cycle.
-/

namespace Garnet

open Relation

variable {s t : Store}

/-! ### What every run keeps of the hierarchy -/

/-- The second store comes from the first by changes of a hierarchy. -/
def Develops (s t : Store) : Prop := s.Hierarchy → t.Hierarchy ∧ s.Grown t

/-- The second store has no cycle if the first has none. -/
def KeepsAcyclic (s t : Store) : Prop := s.Hierarchy ∧ s.Acyclic → t.Hierarchy ∧ t.Acyclic

namespace Store.Relinked

variable {edge : Option (Value × Value)}

theorem develops (h : Relinked s t edge) : Develops s t := fun hs => ⟨h.hierarchy hs, h.grown⟩

theorem keepsAcyclic (h : Relinked s t none) : KeepsAcyclic s t :=
  fun hs => ⟨h.hierarchy hs.1, (h.acyclic_iff hs.1).mpr ⟨hs.2, nofun⟩⟩

end Store.Relinked

theorem Develops.trans {u : Store} (h : Develops s t) (h' : Develops t u) : Develops s u := by
  intro hs
  obtain ⟨ht, hst⟩ := h hs
  obtain ⟨hu, htu⟩ := h' ht
  exact ⟨hu, hst.trans htu⟩

theorem Develops.lasting : Lasting Develops where
  trans := trans
  of_same h := (Store.relinked_of_objects h.objects).develops
  exception _ _ _ := (Store.relinked_alloc rfl).develops.trans (Store.relinked_alloc rfl).develops
  change c _ hc := fun hs => (c.relinked hs hc).develops hs

theorem KeepsAcyclic.ofHeap : OfHeap KeepsAcyclic where
  trans h h' := h' ∘ h
  of_same h := (Store.relinked_of_objects h.objects).keepsAcyclic
  exception _ _ _ :=
    (Store.relinked_alloc rfl).keepsAcyclic ∘ (Store.relinked_alloc rfl).keepsAcyclic

/-! ### Inclusions that close a cycle -/

namespace Point

/-- The point makes a class or module include a module that leads to it already. -/
def ClosesCycle (q : Point) : Prop :=
  ∃ c target module, q.Changes c ∧ c.inclusion? q.store = some (target, module) ∧
    ReflTransGen q.store.Above module target

theorem Changes.relinked {q : Point} {c : Change} (hq : q.Changes c) (hs : q.store.Hierarchy) :
    Store.Relinked q.store (c.apply q.store) (c.inclusion? q.store) := by
  cases hq with
  | @mk _ _ _ _ c _ hc => exact c.relinked hs hc

theorem Changes.outcome_store {q : Point} {c : Change} (hq : q.Changes c) :
    q.outcome.store = c.apply q.store := by
  cases hq
  rfl

/-- A run ends without a cycle exactly when there was none before and none was closed. -/
theorem acyclic_outcome_iff {p : Point} (hp : p.store.Hierarchy) :
    p.outcome.store.Acyclic ↔ p.store.Acyclic ∧ ∀ π q, p.Running π q → ¬q.ClosesCycle := by
  constructor
  · intro ha
    refine ⟨((Develops.lasting.kept.outcome p) hp).2.acyclic ha, ?_⟩
    rintro π q hq ⟨c, target, module, hc, hedge, hreach⟩
    have hs : q.store.Hierarchy := (Develops.lasting.running hq hp).1
    have hr := hc.relinked hs
    have ht : q.outcome.store.Hierarchy := hc.outcome_store ▸ hr.hierarchy hs
    have haq : q.outcome.store.Acyclic := ((Develops.lasting.running_outcome hq) ht).2.acyclic ha
    rw [hc.outcome_store, hr.acyclic_iff hs] at haq
    exact haq.2 target module hedge hreach
  · rintro ⟨ha, hnever⟩
    refine (KeepsAcyclic.ofHeap.carried.outcome p fun π q c hq hc => ?_) ⟨hp, ha⟩ |>.2
    rintro ⟨hs, haq⟩
    have hr := hc.relinked hs
    refine ⟨hr.hierarchy hs, (hr.acyclic_iff hs).mpr ⟨haq, fun target module hedge hreach => ?_⟩⟩
    exact hnever π q hq ⟨c, target, module, hc, hedge, hreach⟩

end Point

/-! ### Sessions -/

theorem Reachable.hierarchy (h : Reachable s) : s.Hierarchy := by
  obtain ⟨config, input, h⟩ := h
  induction h with
  | refl => exact Store.start_hierarchy config input
  | program _ _ ih => exact (Develops.lasting.kept.runProgram _ _ ih).1
  | operation _ x ih => exact (Develops.lasting.kept.evaluate _ _ ih).1
  | @takeOutput t _ ih =>
    have hsame : t.takeOutput.2.objects = t.objects := rfl
    exact (Store.relinked_of_objects hsame).hierarchy ih

/-- No session begins with a cycle. Whatever a session runs leaves the relation between a class and
what is above it well-founded exactly when it was so before and no inclusion on the way closed a
cycle; and it is well-founded exactly when all walks end by themselves, already when those over
modules do. -/
theorem Store.wellFounded_above_evaluate (hs : Reachable s) :
    (∀ config input, WellFounded fun d c => (Store.start config input).Above c d) ∧
    (∀ (α : Type) (x : Eval α),
      (WellFounded fun d c => (s.evaluate x).2.Above c d) ↔
        (WellFounded fun d c => s.Above c d) ∧
          ∀ π q, (⟨defaultFuel, x, s⟩ : Point).Running π q → ¬q.ClosesCycle) ∧
    List.TFAE
      [WellFounded fun d c => s.Above c d,
       s.WalksEnd,
       ∀ m, ∃ N, ∀ n, N ≤ n → s.moduleSteps false n m = s.moduleSteps false N m] := by
  refine ⟨fun config input => ?_, fun α x => ?_, ?_⟩
  · exact (start_hierarchy config input).wellFounded_iff.mpr (start_acyclic config input)
  · have hp : (⟨defaultFuel, x, s⟩ : Point).store.Hierarchy := hs.hierarchy
    have hout : (s.evaluate x).2 = (⟨defaultFuel, x, s⟩ : Point).outcome.store := by
      simp only [evaluate, Point.outcome]
      split <;> rename_i hrun <;> rw [hrun] <;> rfl
    have ht : (s.evaluate x).2.Hierarchy := (Develops.lasting.kept.evaluate s x hs.hierarchy).1
    rw [ht.wellFounded_iff, hs.hierarchy.wellFounded_iff, hout]
    exact Point.acyclic_outcome_iff hp
  · have h := hs.hierarchy.walksEnd_tfae
    tfae_have 1 ↔ 2 := h.out 0 2
    tfae_have 2 ↔ 3 := h.out 2 3
    tfae_finish

/-- A module that includes itself. -/
theorem Store.wellFounded_above_evaluate_self :
    ¬WellFounded fun d c => ((Store.start {} []).evaluate
      (Eval.update (.includeModule CoreClass.kernel.value CoreClass.kernel.value))).2.Above c d := by
  intro hwf
  have hlink := Store.start_link?_value {} [] .kernel
  have hclosed : Point.ClosesCycle ⟨defaultFuel, (Eval.update
      (.includeModule CoreClass.kernel.value CoreClass.kernel.value) : Eval Unit),
      Store.start {} []⟩ := by
    refine ⟨_, CoreClass.kernel.value, CoreClass.kernel.value, .mk, ?_, .refl⟩
    rw [Change.inclusion?, Store.isModuleLike_eq_link?, Store.isModule_eq_link?, hlink]
    rfl
  exact (((Store.wellFounded_above_evaluate ⟨{}, [], .refl⟩).2.1 _ _).mp hwf).2 [] _ .start hclosed

end Garnet
