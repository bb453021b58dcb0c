import Garnet.Proofs.Lookup.Flat
import Garnet.Proofs.Lookup.Tables

/-!
# The order of classes and modules

What is above a class or module is what can be reached from it by bases and inclusions. Where no
module leads back to itself this is a partial order, and the list of ancestors goes through what is
above, each once.
-/

namespace Garnet.Store

open Relation

variable {s : Store} {a b c d v : Value}

/-! ## Values added to a list, each once -/

section AddNew

variable {α : Type} [BEq α] [LawfulBEq α] (xs : List α) (seen : Array α)

theorem mem_foldl_addNew {x : α} :
    x ∈ (xs.foldl addNew seen).toList ↔ x ∈ seen.toList ∨ x ∈ xs := by
  induction xs generalizing seen with
  | nil => simp
  | cons y xs ih =>
    rw [List.foldl_cons, ih, addNew]
    split
    · rename_i hy
      have hy : y ∈ seen.toList := Array.mem_toList_iff.mpr (Array.contains_iff_mem.mp hy)
      rw [List.mem_cons]
      constructor
      · rintro (hx | hx)
        · exact .inl hx
        · exact .inr (.inr hx)
      · rintro (hx | rfl | hx)
        · exact .inl hx
        · exact .inl hy
        · exact .inr hx
    · rw [Array.toList_push, List.mem_append, List.mem_singleton, List.mem_cons, or_assoc]

theorem nodup_foldl_addNew (h : seen.toList.Nodup) : (xs.foldl addNew seen).toList.Nodup := by
  induction xs generalizing seen with
  | nil => exact h
  | cons y xs ih =>
    refine ih _ ?_
    unfold addNew
    split
    · exact h
    · rename_i hy
      rw [Array.toList_push]
      refine List.nodup_append.mpr ⟨h, List.nodup_singleton y, fun x hx z hz hxz => hy ?_⟩
      rw [List.mem_singleton.mp hz] at hxz
      exact Array.contains_iff_mem.mpr (Array.mem_toList_iff.mp (hxz ▸ hx))

omit [LawfulBEq α] in
theorem prefix_foldl_addNew : seen.toList <+: (xs.foldl addNew seen).toList := by
  induction xs generalizing seen with
  | nil => exact List.prefix_rfl
  | cons y xs ih =>
    refine List.IsPrefix.trans ?_ (ih _)
    unfold addNew
    split
    · exact List.prefix_rfl
    · rw [Array.toList_push]
      exact List.prefix_append _ _

end AddNew

/-! ## What is above -/

/-- Only bases lead from class to class, and only inclusions lead on from a module. -/
theorem Hierarchy.reflTransGen_above (hs : s.Hierarchy) :
    ReflTransGen s.Above c d ↔
      ∃ b, ReflTransGen (fun c b => s.base? c = some b) c b ∧ ReflTransGen s.Includes b d := by
  constructor
  · intro h
    induction h using ReflTransGen.head_induction_on with
    | refl => exact ⟨d, .refl, .refl⟩
    | @head c m hcm hmd ih =>
      rcases hcm with hbase | hincluded
      · obtain ⟨b, hb, hd⟩ := ih
        exact ⟨b, .head hbase hb, hd⟩
      · refine ⟨c, .refl, .head hincluded ?_⟩
        rcases reflTransGen_iff_eq_or_transGen.mp hmd with rfl | hmd
        · exact .refl
        · exact (hs.transGen_includes (hs.included_isModule hincluded) hmd).to_reflTransGen
  · rintro ⟨b, hb, hd⟩
    exact (ReflTransGen.mono (fun _ _ => .inl) _ _ hb).trans
      (ReflTransGen.mono (fun _ _ => .inr) _ _ hd)

theorem mem_depthFirst (h : WellFounded fun d c => s.Above c d) :
    d ∈ s.depthFirst h c ↔ ReflTransGen s.Includes c d := by
  induction c using WellFounded.induction h with
  | h c ih =>
    rw [depthFirst_eq, List.mem_cons, List.mem_flatMap, ReflTransGen.cases_head_iff, eq_comm]
    refine or_congr Iff.rfl (exists_congr fun m => ?_)
    rw [List.mem_reverse]
    exact and_congr_right fun hm => ih m (.inr hm)

theorem mem_upward (h : WellFounded fun d c => s.Above c d) :
    d ∈ s.upward h c ↔ ReflTransGen (fun c b => s.base? c = some b) c d := by
  induction c using WellFounded.induction h with
  | h c ih =>
    rw [upward, ReflTransGen.cases_head_iff]
    split
    · rename_i b hb
      rw [List.mem_cons, ih b (.inl hb), hb, eq_comm]
      simp only [Option.some.injEq, exists_eq_left']
    · rename_i hb
      rw [List.mem_singleton, hb, eq_comm]
      simp only [reduceCtorEq, false_and, exists_false, or_false]

/-! ## The list of ancestors -/

theorem ancestors_of_objects {t : Store} (h : t.objects = s.objects) :
    t.ancestors c = s.ancestors c := by
  have hlinks : SameLinks s t :=
    ⟨fun _ => link?_of_objects h, fun _ => by rw [object, object, h]⟩
  have hmodules (m : Value) :
      t.moduleSteps false t.objects.size m = s.moduleSteps false s.objects.size m := by
    rw [h]
    exact hlinks.moduleSteps false _ m
  rw [ancestors_eq, ancestors_eq, hlinks.instanceSteps hmodules, h]

theorem isA_of_objects {t : Store} (h : t.objects = s.objects) : t.isA v c = s.isA v c := by
  simp only [isA, ancestors_of_objects h, classOf, object, h]

theorem nodup_ancestors : (s.ancestors c).Nodup := by
  rw [ancestors_eq]
  exact nodup_foldl_addNew _ _ List.nodup_nil

section Acyclic

variable (hs : s.Hierarchy) (ha : s.Acyclic)

include hs ha

theorem mem_ancestors : d ∈ s.ancestors c ↔ ReflTransGen s.Above c d := by
  have h := hs.wellFounded_iff.mpr ha
  have hholders : (s.instanceSteps s.objects.size c).map (·.holder.value) =
      (s.upward h c).flatMap (s.depthFirst h) := by
    rw [instanceSteps_eq_flatMap hs ha h, List.map_flatMap]
    refine List.flatMap_congr fun b _ => ?_
    rw [modulesOf, List.map_map]
    exact List.map_id _
  rw [ancestors_eq, hholders, mem_foldl_addNew, List.mem_flatMap, hs.reflTransGen_above]
  simp only [List.not_mem_nil, false_or, mem_upward, mem_depthFirst]

theorem ancestors_head : ∃ rest, s.ancestors c = c :: rest := by
  have h := hs.wellFounded_iff.mpr ha
  have hsteps : ∃ rest,
      (s.instanceSteps s.objects.size c).map (·.holder.value) = c :: rest := by
    rw [instanceSteps_eq_flatMap hs ha h, upward]
    split <;> rw [List.flatMap_cons, modulesOf, depthFirst_eq] <;> exact ⟨_, rfl⟩
  obtain ⟨rest, hrest⟩ := hsteps
  have hfirst : addNew #[] c = #[c] := by simp [addNew]
  rw [ancestors_eq, hrest, List.foldl_cons, hfirst]
  obtain ⟨tail, htail⟩ := prefix_foldl_addNew rest #[c]
  exact ⟨tail, htail.symm⟩

theorem inherits_iff : s.inherits a b ↔ ReflTransGen s.Above a b := by
  rw [inherits, List.contains_iff_mem, mem_ancestors hs ha]

theorem inherits_antisymm (hab : s.inherits a b) (hba : s.inherits b a) : a = b := by
  rw [inherits_iff hs ha] at hab hba
  rcases reflTransGen_iff_eq_or_transGen.mp hab with rfl | h
  · rfl
  · exact absurd (h.trans_left hba) (ha a)

theorem isA_iff :
    s.isA v c ↔ s.inherits (s.classOf v) c ∨ ∃ m ∈ (s.object v).extended, s.inherits m c := by
  have hself (m : Value) : (m == c || (s.ancestors m).contains c) = s.inherits m c := by
    rw [inherits, Bool.or_eq_right_iff_imp, beq_iff_eq]
    rintro rfl
    exact List.contains_iff_mem.mpr ((mem_ancestors hs ha).mpr .refl)
  rw [isA, Bool.or_eq_true, or_comm, List.any_eq_true]
  simp only [hself]
  rfl

theorem isA_of_inherits (hb : s.isA v b) (hbc : s.inherits b c) : s.isA v c := by
  have htrans {a : Value} (hab : s.inherits a b) : s.inherits a c := by
    rw [inherits_iff hs ha] at hab hbc ⊢
    exact hab.trans hbc
  rw [isA_iff hs ha] at hb ⊢
  rcases hb with hb | ⟨m, hm, hb⟩
  · exact .inl (htrans hb)
  · exact .inr ⟨m, hm, htrans hb⟩

end Acyclic

end Garnet.Store
