import Garnet.Proofs.Lookup.Chain
import Mathlib.Data.List.Dedup
import Mathlib.Data.List.Perm.Subperm
import Mathlib.Tactic.TFAE

/-!
# Chains of super calls

A method that calls `super` goes on after the first occurrence of its holder in the chain of the
receiver. A holder may occur there more than once: a module that a class and a class above it both
include, or one that the receiver was also extended with. If a later occurrence shows the name, the
calls come back to it again and again. Otherwise they go through the tables that show the name, one
after another, and end.
-/

namespace Garnet.Store

variable (s : Store) (recv : Value) (name : String)

/-- The method that a message reaches after so many `super` calls. -/
def superAt : Nat → Option Resolved
  | 0 => (s.findMethod recv name .all).toOption
  | k + 1 => (superAt k).bind fun r => s.findSuper? recv name r.holder

/-- No table that shows the name has a holder that occurred before. -/
def DefinesOnce : Prop :=
  (s.chain recv).Pairwise fun x y => (s.shown name .all y).isSome → x.holder ≠ y.holder

/-- The methods of that name in the chain, in order. -/
def definitions : List Resolved := (s.chain recv).filterMap (s.shown name .all)

variable {s recv name}

theorem superAt_zero : s.superAt recv name 0 = (s.chain recv).findSome? (s.shown name .all) := by
  rw [superAt, findMethod_eq]
  cases (s.chain recv).findSome? (s.shown name .all) with
  | some r => rfl
  | none => cases (s.chain recv).findSome? (s.visibilityAt name) <;> rfl

/-! ## Calls that go through the definitions in order -/

theorem DefinesOnce.not_mem (h : s.DefinesOnce recv name) {before after : List Step} {step : Step}
    (hsplit : s.chain recv = before ++ step :: after) (hshown : (s.shown name .all step).isSome) :
    step.holder ∉ before.map (·.holder) := by
  intro hmem
  obtain ⟨x, hx, he⟩ := List.mem_map.mp hmem
  rw [DefinesOnce, hsplit, List.pairwise_append] at h
  exact h.2.2 x hx step List.mem_cons_self hshown he

/-- A definition stands at some place of the chain, and the next one comes first after it. -/
theorem definitions_split {k : Nat} {r : Resolved} (h : (s.definitions recv name)[k]? = some r) :
    ∃ before step after, s.chain recv = before ++ step :: after ∧
      s.shown name .all step = some r ∧
      (s.definitions recv name)[k + 1]? = after.findSome? (s.shown name .all) := by
  unfold definitions at *
  generalize s.chain recv = steps at h
  induction steps generalizing k with
  | nil => cases h
  | cons step steps ih =>
    rw [List.filterMap_cons] at h ⊢
    cases hstep : s.shown name .all step with
    | none =>
      simp only [hstep] at h ⊢
      obtain ⟨before, step', after, rfl, hr, hnext⟩ := ih h
      exact ⟨step :: before, step', after, rfl, hr, hnext⟩
    | some r' =>
      simp only [hstep] at h ⊢
      cases k with
      | zero =>
        obtain rfl : r' = r := by simpa using h
        refine ⟨[], step, steps, rfl, hstep, ?_⟩
        rw [List.getElem?_cons_succ, ← List.head?_eq_getElem?, List.head?_filterMap]
      | succ k =>
        obtain ⟨before, step', after, rfl, hr, hnext⟩ := ih h
        exact ⟨step :: before, step', after, rfl, hr, hnext⟩

theorem DefinesOnce.superAt_eq (h : s.DefinesOnce recv name) (k : Nat) :
    s.superAt recv name k = (s.definitions recv name)[k]? := by
  induction k with
  | zero => rw [superAt_zero, definitions, ← List.head?_eq_getElem?, List.head?_filterMap]
  | succ k ih =>
    rw [superAt, ih]
    cases hk : (s.definitions recv name)[k]? with
    | none =>
      have hlen := List.getElem?_eq_none_iff.mp hk
      exact (List.getElem?_eq_none_iff.mpr (Nat.le_succ_of_le hlen)).symm
    | some r =>
      obtain ⟨before, step, after, hsplit, hr, hnext⟩ := definitions_split hk
      have hfirst := h.not_mem hsplit (Option.isSome_of_eq_some hr)
      rw [Option.bind_some, holder_of_shown hr, findSuper?_of_split hsplit hfirst, hnext]

theorem DefinesOnce.nodup (h : s.DefinesOnce recv name) :
    ((s.definitions recv name).map (·.holder)).Nodup := by
  refine List.pairwise_map.mpr (List.Pairwise.filterMap _ (fun x y hxy r hr r' hr' => ?_) h)
  rw [holder_of_shown hr, holder_of_shown hr']
  exact hxy (Option.isSome_of_eq_some hr')

theorem holder_mem_chain {r : Resolved} (h : r ∈ s.definitions recv name) :
    r.holder ∈ (s.chain recv).map (·.holder) := by
  obtain ⟨step, hstep, hr⟩ := List.mem_filterMap.mp h
  exact List.mem_map.mpr ⟨step, hstep, (holder_of_shown hr).symm⟩

/-- There are at most as many definitions as holders. -/
theorem DefinesOnce.length_le (h : s.DefinesOnce recv name) :
    (s.definitions recv name).length ≤ ((s.chain recv).map (·.holder)).dedup.length := by
  have hsub : (s.definitions recv name).map (·.holder) ⊆
      ((s.chain recv).map (·.holder)).dedup := by
    intro holder hmem
    obtain ⟨r, hr, rfl⟩ := List.mem_map.mp hmem
    exact List.mem_dedup.mpr (holder_mem_chain hr)
  simpa using (List.Nodup.subperm h.nodup hsub).length_le

/-! ## Calls that come back -/

/-- A later occurrence of a holder that shows the name stands after all that comes before it. -/
theorem exists_split_of_not_definesOnce (h : ¬s.DefinesOnce recv name) :
    ∃ before step after, s.chain recv = before ++ step :: after ∧
      (s.shown name .all step).isSome ∧ step.holder ∈ before.map (·.holder) := by
  simp only [DefinesOnce, List.pairwise_iff_forall_sublist, not_forall, not_not] at h
  obtain ⟨x, y, hxy, hy, he⟩ := h
  obtain ⟨front, back, hsplit, hx, hback⟩ := List.cons_sublist_iff.mp hxy
  obtain ⟨middle, after, rfl⟩ := List.append_of_mem (List.singleton_sublist.mp hback)
  refine ⟨front ++ middle, y, after, by rw [hsplit, List.append_assoc], hy, ?_⟩
  exact List.mem_map.mpr ⟨x, List.mem_append_left _ hx, he⟩

/-- The first table that shows the name is not after one that does. -/
theorem findSome?_shown_append (before after : List Step) {step : Step}
    (hshown : (s.shown name .all step).isSome) :
    ∃ r, (before ++ step :: after).findSome? (s.shown name .all) = some r ∧
      (r.holder ∈ before.map (·.holder) ∨ r.holder = step.holder) := by
  obtain ⟨r', hr'⟩ := Option.isSome_iff_exists.mp hshown
  rw [List.findSome?_append, List.findSome?_cons, hr']
  cases hb : before.findSome? (s.shown name .all) with
  | none => exact ⟨r', rfl, .inr (holder_of_shown hr')⟩
  | some r =>
    obtain ⟨x, hx, hr⟩ := List.exists_of_findSome?_eq_some hb
    exact ⟨r, rfl, .inl (List.mem_map.mpr ⟨x, hx, (holder_of_shown hr).symm⟩)⟩

/-- From a holder before such an occurrence the calls go on to a holder before it. -/
theorem findSuper?_of_mem {before after : List Step} {step : Step} {holder : Holder}
    (hsplit : s.chain recv = before ++ step :: after) (hshown : (s.shown name .all step).isSome)
    (hstep : step.holder ∈ before.map (·.holder)) (h : holder ∈ before.map (·.holder)) :
    ∃ r, s.findSuper? recv name holder = some r ∧ r.holder ∈ before.map (·.holder) := by
  obtain ⟨front, back, hfront, hfirst⟩ := List.eq_append_cons_of_mem h
  obtain ⟨front, rest, rfl, rfl, hrest⟩ := List.map_eq_append_iff.mp hfront
  obtain ⟨x, back, rfl, rfl, rfl⟩ := List.map_eq_cons_iff.mp hrest
  have hafter : s.chain recv = front ++ x :: (back ++ step :: after) := by
    rw [hsplit, List.append_assoc, List.cons_append]
  obtain ⟨r, hr, hmem⟩ := findSome?_shown_append back after hshown
  refine ⟨r, by rw [findSuper?_of_split hafter hfirst, hr], ?_⟩
  rcases hmem with hmem | he
  · rw [List.map_append, List.map_cons]
    exact List.mem_append_right _ (List.mem_cons_of_mem _ hmem)
  · exact he ▸ hstep

theorem superAt_of_not_definesOnce (h : ¬s.DefinesOnce recv name) :
    ∃ holders : List Holder, ∀ k, ∃ r, s.superAt recv name k = some r ∧ r.holder ∈ holders := by
  obtain ⟨before, step, after, hsplit, hshown, hstep⟩ := exists_split_of_not_definesOnce h
  refine ⟨before.map (·.holder), fun k => ?_⟩
  induction k with
  | zero =>
    obtain ⟨r, hr, hmem⟩ := findSome?_shown_append before after hshown
    refine ⟨r, by rw [superAt_zero, hsplit, hr], ?_⟩
    rcases hmem with hmem | he
    · exact hmem
    · exact he ▸ hstep
  | succ k ih =>
    obtain ⟨r, hr, hmem⟩ := ih
    rw [superAt, hr]
    exact findSuper?_of_mem hsplit hshown hstep hmem

/-! ## When the calls end -/

/-- No two methods on the way of `super` calls have the same holder. -/
def SuperAvoids (s : Store) (recv : Value) (name : String) : Prop :=
  ∀ i j r r', s.superAt recv name i = some r → s.superAt recv name j = some r' →
    r.holder = r'.holder → i = j

theorem DefinesOnce.superAvoids (h : s.DefinesOnce recv name) : s.SuperAvoids recv name := by
  intro i j r r' hi hj he
  rw [h.superAt_eq] at hi hj
  have hlt : i < (s.definitions recv name).length := (List.getElem?_eq_some_iff.mp hi).1
  refine (List.getElem?_inj (by rwa [List.length_map]) h.nodup).mp ?_
  rw [List.getElem?_map, List.getElem?_map, hi, hj, Option.map_some, Option.map_some, he]

/-- Infinitely many calls cannot avoid finitely many holders. -/
theorem SuperAvoids.definesOnce (h : s.SuperAvoids recv name) : s.DefinesOnce recv name := by
  by_contra hnot
  obtain ⟨holders, hmem⟩ := superAt_of_not_definesOnce hnot
  choose r hr hin using hmem
  have hnodup : ((List.range (holders.length + 1)).map fun k => (r k).holder).Nodup := by
    refine List.Nodup.map (fun i j he => ?_) List.nodup_range
    exact h i j _ _ (hr i) (hr j) he
  have hsub : ((List.range (holders.length + 1)).map fun k => (r k).holder) ⊆ holders := by
    intro holder hmem
    obtain ⟨k, _, rfl⟩ := List.mem_map.mp hmem
    exact hin k
  have hle := (List.Nodup.subperm hnodup hsub).length_le
  rw [List.length_map, List.length_range] at hle
  exact Nat.not_succ_le_self _ hle

/-- A chain of `super` calls never comes back to a holder, ends, and ends within as many steps as
there are holders in the chain of the receiver, all exactly when no table that shows the name has a
holder that occurred before it. A chain is finite also where modules include each other in a circle:
the walk is cut off there after as many steps as there are objects, where the program itself would go
round without end. -/
theorem superAt_tfae (s : Store) (recv : Value) (name : String) :
    List.TFAE
      [s.SuperAvoids recv name,
       s.superAt recv name ((s.chain recv).map (·.holder)).dedup.length = none,
       ∃ k, s.superAt recv name k = none,
       s.DefinesOnce recv name] := by
  tfae_have 1 → 4 := SuperAvoids.definesOnce
  tfae_have 4 → 1 := DefinesOnce.superAvoids
  tfae_have 4 → 2 := fun h => by
    rw [h.superAt_eq]
    exact List.getElem?_eq_none_iff.mpr h.length_le
  tfae_have 2 → 3 := fun h => ⟨_, h⟩
  tfae_have 3 → 4 := by
    rintro ⟨k, hk⟩
    by_contra hnot
    obtain ⟨_, hmem⟩ := superAt_of_not_definesOnce hnot
    obtain ⟨r, hr, _⟩ := hmem k
    rw [hk] at hr
    cases hr
  tfae_finish

end Garnet.Store
