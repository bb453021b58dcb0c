import Garnet.Proofs.Hierarchy.Acyclic
import Garnet.Proofs.Lookup.Chain
import Mathlib.Data.List.Basic
import Mathlib.Tactic.TFAE

/-!
# Walks through a hierarchy end

The walks bound how deep they go by the size of the heap. In a hierarchy without cycles the bound is
never met: a walk that may go deeper visits the same tables. On a cycle every bound is met.
-/

namespace Garnet.Store

open Relation

variable {s : Store} {extended : Bool} {n : Nat} {c m v : Value}

/-! ## A walk that a larger bound makes longer follows a path of that length -/

theorem exists_path_of_moduleSteps_ne
    (h : s.moduleSteps extended (n + 1) m ≠ s.moduleSteps extended n m) :
    ∃ path, (m :: path).IsChain s.Above ∧ path.length = n := by
  induction n generalizing m with
  | zero => exact ⟨[], .singleton m, rfl⟩
  | succ n ih =>
    obtain ⟨d, hd, hne⟩ : ∃ d ∈ s.included m,
        s.moduleSteps extended (n + 1) d ≠ s.moduleSteps extended n d := by
      by_contra hall
      push Not at hall
      refine h (congrArg _ (List.flatMap_congr fun d hd => ?_))
      exact hall d (List.mem_reverse.mp hd)
    obtain ⟨path, hpath, hlen⟩ := ih hne
    exact ⟨d :: path, hpath.cons_cons (.inr hd), congrArg _ hlen⟩

theorem exists_path_of_instanceSteps_ne (h : s.instanceSteps (n + 1) c ≠ s.instanceSteps n c) :
    ∃ path, (c :: path).IsChain s.Above ∧ path.length = n := by
  induction n generalizing c with
  | zero => exact ⟨[], .singleton c, rfl⟩
  | succ n ih =>
    rw [instanceSteps, instanceSteps] at h
    cases hb : s.base? c with
    | none => rw [hb] at h; exact absurd rfl h
    | some b =>
      rw [hb] at h
      obtain ⟨path, hpath, hlen⟩ := ih fun he => h (congrArg _ he)
      exact ⟨b :: path, hpath.cons_cons (.inl hb), congrArg _ hlen⟩

theorem exists_path_of_ownSteps_ne (h : s.ownSteps (n + 1) v ≠ s.ownSteps n v) :
    ∃ path, (v :: path).IsChain s.Above ∧ path.length = n := by
  induction n generalizing v with
  | zero => exact ⟨[], .singleton v, rfl⟩
  | succ n ih =>
    rw [ownSteps, ownSteps] at h
    cases hb : if s.isClass v then s.base? v else none with
    | none => rw [hb] at h; exact absurd rfl h
    | some b =>
      rw [hb] at h
      obtain ⟨path, hpath, hlen⟩ := ih fun he => h (congrArg (fun l => _ :: (_ ++ l)) he)
      have hbase : s.base? v = some b := by
        split at hb
        · exact hb
        · cases hb
      exact ⟨b :: path, hpath.cons_cons (.inl hbase), congrArg _ hlen⟩

/-! ## Without cycles -/

section Settled

variable (hs : s.Hierarchy) (ha : s.Acyclic)

include hs ha

theorem not_exists_path (hn : s.objects.size ≤ n) :
    ¬∃ path, (v :: path).IsChain s.Above ∧ path.length = n := by
  rintro ⟨path, hpath, hlen⟩
  have hle := ha.length_le hs hpath
  rw [List.length_cons, hlen] at hle
  exact Nat.not_succ_le_self n (Nat.le_trans hle hn)

theorem moduleSteps_of_size_le (hn : s.objects.size ≤ n) :
    s.moduleSteps extended n m = s.moduleSteps extended s.objects.size m := by
  induction n, hn using Nat.le_induction with
  | base => rfl
  | succ n hn ih =>
    rw [← ih]
    by_contra hne
    exact not_exists_path hs ha hn (exists_path_of_moduleSteps_ne hne)

theorem instanceSteps_of_size_le (hn : s.objects.size ≤ n) :
    s.instanceSteps n c = s.instanceSteps s.objects.size c := by
  induction n, hn using Nat.le_induction with
  | base => rfl
  | succ n hn ih =>
    rw [← ih]
    by_contra hne
    exact not_exists_path hs ha hn (exists_path_of_instanceSteps_ne hne)

theorem ownSteps_of_size_le (hn : s.objects.size ≤ n) :
    s.ownSteps n v = s.ownSteps s.objects.size v := by
  induction n, hn using Nat.le_induction with
  | base => rfl
  | succ n hn ih =>
    rw [← ih]
    by_contra hne
    exact not_exists_path hs ha hn (exists_path_of_ownSteps_ne hne)

/-! Objects that are no classes lengthen no walk. -/

namespace SameLinks

variable {t : Store} (h : SameLinks s t) (hsize : s.objects.size ≤ t.objects.size)

include h hsize

theorem moduleSteps_size (extended : Bool) (m : Value) :
    t.moduleSteps extended t.objects.size m = s.moduleSteps extended s.objects.size m := by
  rw [h.moduleSteps, moduleSteps_of_size_le hs ha hsize]

theorem instanceSteps_size (c : Value) :
    t.instanceSteps t.objects.size c = s.instanceSteps s.objects.size c := by
  rw [h.instanceSteps (h.moduleSteps_size hs ha hsize false),
    instanceSteps_of_size_le hs ha hsize]

theorem chain_of_size_le {recv : Value} (hclass : t.classOf recv = s.classOf recv) :
    t.chain recv = s.chain recv := by
  rw [Store.chain, Store.chain, h.ownSteps (h.moduleSteps_size hs ha hsize true),
    ownSteps_of_size_le hs ha hsize, hclass, h.instanceSteps_size hs ha hsize]

end SameLinks

end Settled

/-! ## On a cycle -/

theorem le_length_moduleSteps (hs : s.Hierarchy) (h : TransGen s.Above c c) (n : Nat) :
    n ≤ (s.moduleSteps extended n c).length := by
  induction n generalizing c with
  | zero => exact Nat.zero_le _
  | succ n ih =>
    obtain ⟨d, hd, hcycle⟩ := hs.exists_included_of_cycle h
    rw [moduleSteps, List.length_cons]
    have hsub : (s.moduleSteps extended n d).Sublist
        ((s.included c).reverse.flatMap (s.moduleSteps extended n)) :=
      List.sublist_flatten_of_mem (List.mem_map_of_mem (List.mem_reverse.mpr hd))
    exact Nat.succ_le_succ (Nat.le_trans (ih hcycle) hsub.length_le)

/-! ## All walks -/

/-- Whatever is visited, the bound of the walks is never met. -/
structure WalksEnd (s : Store) : Prop where
  walkModule : ∀ {σ ρ : Type} (visit : σ → Step → Except ρ σ) (extended : Bool) (n : Nat)
    (m : Value) (st : σ), s.objects.size ≤ n →
    s.walkModule visit extended n m st = s.walkModule visit extended s.objects.size m st
  walkInstances : ∀ {σ ρ : Type} (visit : σ → Step → Except ρ σ) (n : Nat) (c : Value) (st : σ),
    s.objects.size ≤ n →
    s.walkInstances visit n c st = s.walkInstances visit s.objects.size c st
  walkOwn : ∀ {σ ρ : Type} (visit : σ → Step → Except ρ σ) (n : Nat) (v : Value) (st : σ),
    s.objects.size ≤ n → s.walkOwn visit n v st = s.walkOwn visit s.objects.size v st

theorem foldlM_collect (steps st : List Step) :
    steps.foldlM (fun st x => (.ok (st ++ [x]) : Except Empty (List Step))) st =
      .ok (st ++ steps) := by
  induction steps generalizing st with
  | nil => rw [List.append_nil]; rfl
  | cons x steps ih =>
    refine (ih (st ++ [x])).trans ?_
    rw [List.append_assoc]
    rfl

/-- The hierarchy has no cycle exactly when all walks end by themselves, which holds as soon as the
walks over modules do. -/
theorem Hierarchy.walksEnd_tfae (hs : s.Hierarchy) :
    List.TFAE
      [WellFounded fun d c => s.Above c d,
       s.Acyclic,
       s.WalksEnd,
       ∀ m, ∃ N, ∀ n, N ≤ n → s.moduleSteps false n m = s.moduleSteps false N m] := by
  tfae_have 1 ↔ 2 := hs.wellFounded_iff
  tfae_have 2 → 3 := fun ha =>
    { walkModule := fun visit extended n m st hn => by
        rw [walkModule_eq_foldlM, walkModule_eq_foldlM, moduleSteps_of_size_le hs ha hn]
      walkInstances := fun visit n c st hn => by
        rw [walkInstances_eq_foldlM, walkInstances_eq_foldlM, instanceSteps_of_size_le hs ha hn]
      walkOwn := fun visit n v st hn => by
        rw [walkOwn_eq_foldlM, walkOwn_eq_foldlM, ownSteps_of_size_le hs ha hn] }
  tfae_have 3 → 4 := by
    intro hend m
    refine ⟨s.objects.size, fun n hn => ?_⟩
    have h := hend.walkModule (fun st x => (.ok (st ++ [x]) : Except Empty (List Step))) false n m
      [] hn
    rw [walkModule_eq_foldlM, walkModule_eq_foldlM, foldlM_collect, foldlM_collect] at h
    exact Except.ok.inj h
  tfae_have 4 → 2 := by
    intro hall c hcycle
    obtain ⟨N, hN⟩ := hall c
    -- with one more nested module than tables were visited
    let n := N + (s.moduleSteps false N c).length + 1
    have hle : n ≤ (s.moduleSteps false n c).length := le_length_moduleSteps hs hcycle n
    rw [hN n (by omega)] at hle
    omega
  tfae_finish

end Garnet.Store
