import Garnet.Proofs.Hierarchy.Link
import Mathlib.Data.List.Chain
import Mathlib.Data.List.Nodup
import Mathlib.Data.List.Perm.Subperm
import Mathlib.Data.List.Range
import Mathlib.Logic.Relation
import Mathlib.Order.WellFounded

/-!
# Hierarchies without cycles

A lookup goes on from a class to its base and to the modules it includes. A base is older than the
classes below it, and a module has no base and leads to modules only. Only the modules that a module
includes can therefore lead back to where a lookup came from. Where they never do, a path through
the hierarchy is no longer than the heap.
-/

namespace Garnet

/-- A link leads up to classes and over to modules that are there. -/
structure Link.Fits (s : Store) (l : Link) : Prop where
  base_isClass : ∀ {b}, l.base = some b → s.isClass b
  base_of_isModule : l.isModule = true → l.base = none
  included_isModule : ∀ {m}, m ∈ l.included → s.isModule m

namespace Store

open Relation

/-- A lookup goes on from `c` to `d`. -/
def Above (s : Store) (c d : Value) : Prop := s.base? c = some d ∨ d ∈ s.included c

/-- No class or module is above itself. -/
def Acyclic (s : Store) : Prop := ∀ c, ¬TransGen s.Above c c

/-- What the links keep by the way classes and modules are made. -/
structure Hierarchy (s : Store) : Prop where
  nonempty : 0 < s.objects.size
  fits : ∀ {c l}, s.link? c = some l → l.Fits s
  older : ∀ {c l b}, s.link? c = some l → l.base = some b → b.index < c.index

variable {s : Store} {c d : Value} {path : List Value}

theorem isModule_or_isClass (h : (s.link? c).isSome) : s.isModule c ∨ s.isClass c := by
  obtain ⟨l, hl⟩ := Option.isSome_iff_exists.mp h
  rw [isModule_eq_link?, isClass_eq_link?, hl, Option.any_some, Option.any_some]
  cases l.isModule with
  | true => exact .inl rfl
  | false => exact .inr rfl

theorem base?_eq_some : s.base? c = some d ↔ ∃ l, s.link? c = some l ∧ l.base = some d := by
  rw [base?_eq_link?, Option.bind_eq_some_iff]

theorem mem_included : d ∈ s.included c ↔ ∃ l, s.link? c = some l ∧ d ∈ l.included := by
  rw [included_eq_link?]
  cases s.link? c with
  | none => simp
  | some l => simp

theorem isModule_iff : s.isModule c ↔ ∃ l, s.link? c = some l ∧ l.isModule = true := by
  rw [isModule_eq_link?, Option.any_eq_true]

theorem isClass_iff : s.isClass c ↔ ∃ l, s.link? c = some l ∧ l.isModule = false := by
  rw [isClass_eq_link?, Option.any_eq_true]
  simp only [Bool.not_eq_true']

theorem above_iff :
    s.Above c d ↔ ∃ l, s.link? c = some l ∧ (l.base = some d ∨ d ∈ l.included) := by
  rw [Above, base?_eq_some, mem_included]
  constructor
  · rintro (⟨l, hl, hb⟩ | ⟨l, hl, hi⟩)
    · exact ⟨l, hl, .inl hb⟩
    · exact ⟨l, hl, .inr hi⟩
  · rintro ⟨l, hl, hb | hi⟩
    · exact .inl ⟨l, hl, hb⟩
    · exact .inr ⟨l, hl, hi⟩

theorem not_isModule_of_isClass (h : s.isClass c) : ¬s.isModule c := by
  obtain ⟨l, hl, hclass⟩ := isClass_iff.mp h
  intro hm
  obtain ⟨l', hl', hmodule⟩ := isModule_iff.mp hm
  rw [hl] at hl'
  cases hl'
  rw [hclass] at hmodule
  cases hmodule

theorem Above.link?_isSome (h : s.Above c d) : (s.link? c).isSome := by
  obtain ⟨l, hl, _⟩ := above_iff.mp h
  rw [hl]
  rfl

namespace Hierarchy

variable (hs : s.Hierarchy)

include hs

theorem base_lt (h : s.base? c = some d) : d.index < c.index := by
  obtain ⟨l, hl, hb⟩ := base?_eq_some.mp h
  exact hs.older hl hb

theorem base_isClass (h : s.base? c = some d) : s.isClass d := by
  obtain ⟨l, hl, hb⟩ := base?_eq_some.mp h
  exact (hs.fits hl).base_isClass hb

theorem base?_of_isModule (h : s.isModule c) : s.base? c = none := by
  obtain ⟨l, hl, hm⟩ := isModule_iff.mp h
  rw [base?_eq_link?, hl]
  exact (hs.fits hl).base_of_isModule hm

theorem included_isModule (h : d ∈ s.included c) : s.isModule d := by
  obtain ⟨l, hl, hi⟩ := mem_included.mp h
  exact (hs.fits hl).included_isModule hi

theorem link?_isSome_of_above (h : s.Above c d) : (s.link? d).isSome := by
  rcases h with hb | hi
  · exact link?_isSome_of_isClass (hs.base_isClass hb)
  · exact link?_isSome_of_isModule (hs.included_isModule hi)

/-- From a module a lookup goes on to modules only. -/
theorem mem_included_of_above (hc : s.isModule c) (h : s.Above c d) : d ∈ s.included c := by
  rcases h with hb | hi
  · rw [hs.base?_of_isModule hc] at hb
    cases hb
  · exact hi

/-! ## Cycles -/

/-- A class is above other classes only, through their bases. -/
theorem lt_of_isClass (h : TransGen s.Above c d) (hd : s.isClass d) : d.index < c.index := by
  have base {x y} (hxy : s.Above x y) (hy : s.isClass y) : s.base? x = some y := by
    rcases hxy with hb | hi
    · exact hb
    · exact absurd (hs.included_isModule hi) (not_isModule_of_isClass hy)
  induction h with
  | single h => exact hs.base_lt (base h hd)
  | @tail x y _ hxy ih =>
    have hb := base hxy hd
    have hx : s.isClass x := by
      refine (isModule_or_isClass hxy.link?_isSome).resolve_left fun hm => ?_
      rw [hs.base?_of_isModule hm] at hb
      cases hb
    exact Nat.lt_trans (hs.base_lt hb) (ih hx)

theorem isModule_of_cycle (h : TransGen s.Above c c) : s.isModule c := by
  obtain ⟨d, hd, _⟩ := TransGen.head'_iff.mp h
  refine (isModule_or_isClass hd.link?_isSome).resolve_right fun hc => ?_
  exact Nat.lt_irrefl _ (hs.lt_of_isClass h hc)

/-- A cycle goes on through a module that is on a cycle itself. -/
theorem exists_included_of_cycle (h : TransGen s.Above c c) :
    ∃ d ∈ s.included c, TransGen s.Above d d := by
  obtain ⟨d, hcd, hdc⟩ := TransGen.head'_iff.mp h
  exact ⟨d, hs.mem_included_of_above (hs.isModule_of_cycle h) hcd, .tail' hdc hcd⟩

end Hierarchy

/-! ## Paths -/

theorem Acyclic.nodup (ha : s.Acyclic) (hp : path.IsChain s.Above) : path.Nodup := by
  have hpairs : path.Pairwise (TransGen s.Above) := (hp.imp fun _ _ => .single).pairwise
  refine hpairs.imp fun h he => ?_
  rw [he] at h
  exact ha _ h

theorem Hierarchy.index_lt_of_isChain (hs : s.Hierarchy) {a b : Value}
    (hp : (a :: b :: path).IsChain s.Above) : ∀ c ∈ a :: b :: path, c.index < s.objects.size := by
  have hab : s.Above a b := hp.rel
  have hb : b.index < s.objects.size := index_lt_of_link? (hs.link?_isSome_of_above hab)
  intro c hc
  rcases List.mem_cons.mp hc with rfl | hc
  · exact index_lt_of_link? hab.link?_isSome
  · induction path generalizing a b with
    | nil => exact List.mem_singleton.mp hc ▸ hb
    | cons d path ih =>
      rcases List.mem_cons.mp hc with rfl | hc
      · exact hb
      · have hbd : s.Above b d := hp.tail.rel
        exact ih hp.tail hbd (index_lt_of_link? (hs.link?_isSome_of_above hbd))
          (List.mem_cons_of_mem _ hc) hc

theorem Acyclic.length_le (ha : s.Acyclic) (hs : s.Hierarchy) (hp : path.IsChain s.Above) :
    path.length ≤ s.objects.size := by
  match path, hp with
  | [], _ => exact Nat.zero_le _
  | [_], _ => exact hs.nonempty
  | a :: b :: path, hp =>
    have hnodup : ((a :: b :: path).map Value.index).Nodup :=
      List.Nodup.map (fun _ _ h => congrArg Value.mk h) (ha.nodup hp)
    have hsub : (a :: b :: path).map Value.index ⊆ List.range s.objects.size := by
      intro i hi
      obtain ⟨c, hc, rfl⟩ := List.mem_map.mp hi
      exact List.mem_range.mpr (hs.index_lt_of_isChain hp c hc)
    have hle := (List.subperm_of_subset hnodup hsub).length_le
    rw [List.length_map, List.length_range] at hle
    exact hle

theorem Hierarchy.wellFounded_iff (hs : s.Hierarchy) :
    WellFounded (fun d c => s.Above c d) ↔ s.Acyclic := by
  constructor
  · intro hwf c hc
    have hcycle : TransGen (fun d c => s.Above c d) c c := transGen_swap.mpr hc
    exact hwf.transGen.irrefl.irrefl c hcycle
  · intro ha
    rw [wellFounded_iff_isEmpty_descending_chain]
    refine ⟨fun ⟨f, hf⟩ => ?_⟩
    have hp : ((List.range (s.objects.size + 1)).map f).IsChain s.Above := by
      rw [List.isChain_map, List.isChain_range_succ]
      exact fun m _ => hf m
    have hle := ha.length_le hs hp
    rw [List.length_map, List.length_range] at hle
    exact Nat.not_succ_le_self _ hle

end Store

end Garnet
