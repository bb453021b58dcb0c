import Garnet.Eval.Act
import Garnet.Proofs.Hierarchy.Acyclic
import Garnet.Proofs.Lookup.Tables

/-!
# What a change does to the hierarchy

A change adds a class or module that nothing leads to yet, makes a class or module include a module,
or leaves all links as they are. Only an inclusion can close a cycle, and it does exactly when the
module leads to what includes it already.
-/

namespace Garnet

open Relation

/-! ## One more edge -/

section Edge

variable {α : Type} {r r' : α → α → Prop} {a b x y : α}

theorem transGen_insert (hr : ∀ x y, r' x y → r x y ∨ x = a ∧ y = b) (h : TransGen r' x y) :
    TransGen r x y ∨ ReflTransGen r x a ∧ ReflTransGen r b y := by
  induction h with
  | single hxy =>
    rcases hr _ _ hxy with h | ⟨rfl, rfl⟩
    · exact .inl (.single h)
    · exact .inr ⟨.refl, .refl⟩
  | tail _ hyz ih =>
    rcases hr _ _ hyz with h | ⟨rfl, rfl⟩
    · rcases ih with ih | ⟨ha, hb⟩
      · exact .inl (ih.tail h)
      · exact .inr ⟨ha, hb.tail h⟩
    · rcases ih with ih | ⟨ha, _⟩
      · exact .inr ⟨ih.to_reflTransGen, .refl⟩
      · exact .inr ⟨ha, .refl⟩

/-- An edge closes a cycle exactly when its end leads to its beginning. -/
theorem acyclic_insert_iff (hr : ∀ x y, r' x y ↔ r x y ∨ x = a ∧ y = b) :
    (∀ x, ¬TransGen r' x x) ↔ (∀ x, ¬TransGen r x x) ∧ ¬ReflTransGen r b a := by
  have hmono {x y} (h : r x y) : r' x y := (hr x y).mpr (.inl h)
  constructor
  · intro hacyclic
    refine ⟨fun x hx => hacyclic x (TransGen.mono (fun _ _ => hmono) _ _ hx), fun hba => ?_⟩
    have hab : r' a b := (hr a b).mpr (.inr ⟨rfl, rfl⟩)
    exact hacyclic a (.head' hab (ReflTransGen.mono (fun _ _ => hmono) _ _ hba))
  · rintro ⟨hacyclic, hba⟩ x hx
    rcases transGen_insert (fun x y => (hr x y).mp) hx with h | ⟨hxa, hbx⟩
    · exact hacyclic x h
    · exact hba (hbx.trans hxa)

end Edge

namespace Store

variable {s t u : Store} {v c d : Value}

/-! ## Links that last -/

/-- Every link stays, and at most more modules are included. -/
structure Grown (s t : Store) : Prop where
  size_le : s.objects.size ≤ t.objects.size
  link : ∀ {v l}, s.link? v = some l →
    ∃ l', t.link? v = some l' ∧ l'.isModule = l.isModule ∧ l'.base = l.base ∧
      ∀ m ∈ l.included, m ∈ l'.included

namespace Grown

theorem trans (h : Grown s t) (h' : Grown t u) : Grown s u := by
  refine ⟨Nat.le_trans h.size_le h'.size_le, fun hl => ?_⟩
  obtain ⟨l', hl', hkind, hbase, hsub⟩ := h.link hl
  obtain ⟨l'', hl'', hkind', hbase', hsub'⟩ := h'.link hl'
  exact ⟨l'', hl'', hkind'.trans hkind, hbase'.trans hbase, fun m hm => hsub' m (hsub m hm)⟩

theorem link?_isSome (h : Grown s t) (hv : (s.link? v).isSome) : (t.link? v).isSome := by
  obtain ⟨l, hl⟩ := Option.isSome_iff_exists.mp hv
  obtain ⟨l', hl', -⟩ := h.link hl
  exact Option.isSome_of_eq_some hl'

theorem isModule (h : Grown s t) (hv : s.isModule v) : t.isModule v := by
  obtain ⟨l, hl, hm⟩ := isModule_iff.mp hv
  obtain ⟨l', hl', hkind, _⟩ := h.link hl
  exact isModule_iff.mpr ⟨l', hl', hkind.trans hm⟩

theorem isClass (h : Grown s t) (hv : s.isClass v) : t.isClass v := by
  obtain ⟨l, hl, hm⟩ := isClass_iff.mp hv
  obtain ⟨l', hl', hkind, _⟩ := h.link hl
  exact isClass_iff.mpr ⟨l', hl', hkind.trans hm⟩

theorem above (h : Grown s t) (hcd : s.Above c d) : t.Above c d := by
  obtain ⟨l, hl, hd⟩ := above_iff.mp hcd
  obtain ⟨l', hl', _, hbase, hsub⟩ := h.link hl
  exact above_iff.mpr ⟨l', hl', hd.imp hbase.trans (hsub d)⟩

theorem acyclic (h : Grown s t) (ht : t.Acyclic) : s.Acyclic :=
  fun c hc => ht c (TransGen.mono (fun _ _ => h.above) _ _ hc)

theorem fits (h : Grown s t) {l : Link} (hl : l.Fits s) : l.Fits t :=
  ⟨fun hb => h.isClass (hl.base_isClass hb), hl.base_of_isModule,
    fun hm => h.isModule (hl.included_isModule hm)⟩

end Grown

/-! ## What a step does to the links -/

/-- The second store has the links of the first, apart from the one that a class or module has that
is new, and from the inclusion given. -/
inductive Relinked (s t : Store) : Option (Value × Value) → Prop where
  | same (hsize : s.objects.size ≤ t.objects.size) (hlink : ∀ v, t.link? v = s.link? v) :
    Relinked s t none
  | fresh (l : Link) (hl : l.Fits s) (hsize : s.objects.size < t.objects.size)
    (hlink : ∀ v, t.link? v = if v = ⟨s.objects.size⟩ then some l else s.link? v) :
    Relinked s t none
  | joined {target module : Value} (l l' : Link) (hmodule : s.isModule module)
    (hl : s.link? target = some l) (hsize : s.objects.size ≤ t.objects.size)
    (hlink : ∀ v, t.link? v = if v = target then some l' else s.link? v)
    (hkind : l'.isModule = l.isModule) (hbase : l'.base = l.base)
    (hincluded : ∀ m, m ∈ l'.included ↔ m ∈ l.included ∨ m = module) :
    Relinked s t (some (target, module))

namespace Relinked

variable {edge : Option (Value × Value)}

theorem grown (h : Relinked s t edge) : Grown s t := by
  cases h with
  | same hsize hlink =>
    exact ⟨hsize, fun {v l} hv => ⟨l, (hlink v).trans hv, rfl, rfl, fun _ => id⟩⟩
  | fresh l hl hsize hlink =>
    refine ⟨Nat.le_of_lt hsize, fun {v k} hv => ⟨k, ?_, rfl, rfl, fun _ => id⟩⟩
    have hne : v ≠ ⟨s.objects.size⟩ := by
      rintro rfl
      exact Nat.lt_irrefl _ (index_lt_of_link? (Option.isSome_of_eq_some hv))
    rw [hlink, if_neg hne, hv]
  | @joined target module l l' hmodule hl hsize hlink hkind hbase hincluded =>
    refine ⟨hsize, fun {v k} hv => ?_⟩
    by_cases he : v = target
    · rw [he, hl] at hv
      cases hv
      exact ⟨l', by rw [hlink, if_pos he], hkind, hbase, fun m hm => (hincluded m).mpr (.inl hm)⟩
    · exact ⟨k, by rw [hlink, if_neg he, hv], rfl, rfl, fun _ => id⟩

theorem hierarchy (h : Relinked s t edge) (hs : s.Hierarchy) : t.Hierarchy := by
  have hg := h.grown
  have hnonempty : 0 < t.objects.size := Nat.lt_of_lt_of_le hs.nonempty hg.size_le
  cases h with
  | same hsize hlink =>
    refine ⟨hnonempty, fun {c l} hc => ?_, fun {c l b} hc => ?_⟩
    · exact hg.fits (hs.fits ((hlink c).symm.trans hc))
    · exact hs.older ((hlink c).symm.trans hc)
  | fresh l hl hsize hlink =>
    refine ⟨hnonempty, fun {c k} hc => ?_, fun {c k b} hc hb => ?_⟩
    · rw [hlink] at hc
      split at hc
      · cases hc
        exact hg.fits hl
      · exact hg.fits (hs.fits hc)
    · rw [hlink] at hc
      split at hc
      · rename_i he
        cases hc
        rw [he]
        exact index_lt_of_link? (link?_isSome_of_isClass (hl.base_isClass hb))
      · exact hs.older hc hb
  | @joined target module l l' hmodule hl hsize hlink hkind hbase hincluded =>
    refine ⟨hnonempty, fun {c k} hc => ?_, fun {c k b} hc hb => ?_⟩
    · rw [hlink] at hc
      split at hc
      · cases hc
        have hfits := hg.fits (hs.fits hl)
        refine ⟨fun hb => hfits.base_isClass (hbase ▸ hb),
          fun hm => hbase.trans (hfits.base_of_isModule (hkind.symm.trans hm)), fun {m} hm => ?_⟩
        rcases (hincluded m).mp hm with hm | rfl
        · exact hfits.included_isModule hm
        · exact hg.isModule hmodule
      · exact hg.fits (hs.fits hc)
    · rw [hlink] at hc
      split at hc
      · rename_i he
        cases hc
        rw [he]
        exact hs.older hl (hbase ▸ hb)
      · exact hs.older hc hb

/-- Nothing leads to a class or module that is new, so that it is on no cycle. -/
theorem acyclic_of_fresh {l : Link} (hs : s.Hierarchy) (hl : l.Fits s)
    (hlink : ∀ v, t.link? v = if v = ⟨s.objects.size⟩ then some l else s.link? v)
    (ha : s.Acyclic) : t.Acyclic := by
  have hvalid {x} (hx : (s.link? x).isSome) : x ≠ ⟨s.objects.size⟩ := by
    rintro rfl
    exact Nat.lt_irrefl _ (index_lt_of_link? hx)
  have hold {x y} (hx : x ≠ ⟨s.objects.size⟩) (h : t.Above x y) : s.Above x y := by
    obtain ⟨k, hk, hy⟩ := above_iff.mp h
    rw [hlink, if_neg hx] at hk
    exact above_iff.mpr ⟨k, hk, hy⟩
  have hend {x y} (h : t.Above x y) : y ≠ ⟨s.objects.size⟩ := by
    obtain ⟨k, hk, hy⟩ := above_iff.mp h
    rw [hlink] at hk
    have hfits : k.Fits s := by
      split at hk
      · cases hk; exact hl
      · exact hs.fits hk
    rcases hy with hb | hi
    · exact hvalid (link?_isSome_of_isClass (hfits.base_isClass hb))
    · exact hvalid (link?_isSome_of_isModule (hfits.included_isModule hi))
  intro c hc
  have hcne : c ≠ ⟨s.objects.size⟩ := by
    obtain ⟨d, _, hdc⟩ := TransGen.tail'_iff.mp hc
    exact hend hdc
  have hpath {x} (h : TransGen t.Above c x) : TransGen s.Above c x := by
    induction h with
    | single h => exact .single (hold hcne h)
    | @tail x y hx hxy ih =>
      obtain ⟨_, _, hx⟩ := TransGen.tail'_iff.mp hx
      exact ih.tail (hold (hend hx) hxy)
  exact ha c (hpath hc)

theorem acyclic_iff (h : Relinked s t edge) (hs : s.Hierarchy) :
    t.Acyclic ↔ s.Acyclic ∧
      ∀ target module, edge = some (target, module) → ¬ReflTransGen s.Above module target := by
  have hg := h.grown
  have hnone (target module : Value) (he : none = some (target, module)) :
      ¬ReflTransGen s.Above module target := by cases he
  cases h with
  | same hsize hlink =>
    have habove : t.Above = s.Above := by
      funext c d
      rw [Above, Above, base?_eq_link?, included_eq_link?, hlink, base?_eq_link?, included_eq_link?]
    rw [Acyclic, habove]
    exact ⟨fun ha => ⟨ha, hnone⟩, And.left⟩
  | fresh l hl hsize hlink =>
    exact ⟨fun ha => ⟨hg.acyclic ha, hnone⟩, fun ha => acyclic_of_fresh hs hl hlink ha.1⟩
  | @joined target module l l' hmodule hl hsize hlink hkind hbase hincluded =>
    have habove (x y : Value) : t.Above x y ↔ s.Above x y ∨ x = target ∧ y = module := by
      rw [above_iff, above_iff]
      by_cases hx : x = target
      · simp only [hlink, hx, if_true, hl, Option.some.injEq, exists_eq_left', hbase, hincluded,
          true_and, or_assoc]
      · simp only [hlink, hx, if_false, false_and, or_false]
    rw [Acyclic, acyclic_insert_iff habove]
    refine and_congr_right fun _ => ⟨fun hreach x y he => ?_, fun hreach => hreach _ _ rfl⟩
    cases he
    exact hreach

end Relinked

/-! ## Changes -/

theorem relinked_alloc {o : Object} (ho : o.payload.link? = none) :
    Relinked s (s.alloc o).2 none :=
  .same (Nat.le_of_lt (size_alloc o)) fun _ => link?_alloc_plain ho

theorem relinked_alloc_module {o : Object} {m : ModuleInfo} (ho : o.payload = .module m)
    (hm : m.link.Fits s) : Relinked s (s.alloc o).2 none := by
  refine .fresh m.link hm (size_alloc o) fun v => ?_
  rw [link?_alloc, ho]
  rfl

theorem relinked_modifyObject {f : Object → Object}
    (hf : (f (s.object v)).payload.link? = (s.object v).payload.link?) :
    Relinked s (s.modifyObject v f) none :=
  .same (Nat.le_of_eq size_modifyObject.symm) fun _ => link?_modifyObject hf

theorem relinked_modifyModule {f : ModuleInfo → ModuleInfo} (hf : ∀ m, (f m).link = m.link) :
    Relinked s (s.modifyModule v f) none :=
  .same (Nat.le_of_eq size_modifyObject.symm) fun _ => link?_modifyModule hf

theorem relinked_of_objects (h : t.objects = s.objects) : Relinked s t none :=
  .same (Nat.le_of_eq (congrArg _ h.symm)) fun _ => link?_of_objects h

theorem relinked_modifyTable {holder : Holder} {f : MethodTable → MethodTable} :
    Relinked s (s.modifyTable holder f) none :=
  .same (Nat.le_of_eq size_modifyTable.symm) sameLinks_modifyTable.link

theorem relinked_promoteAll {holder : Holder} {methods : List (String × Pending)}
    (h : t.objects = s.objects) : Relinked s (t.promoteAll holder methods) none := by
  have hkeep := promoteAll_induction (s := t)
    (P := fun u => u.objects.size = s.objects.size ∧ ∀ v, u.link? v = s.link? v) holder
    ⟨congrArg _ h, fun _ => link?_of_objects h⟩
    (fun u f hu => ⟨size_modifyTable.trans hu.1,
      fun v => (sameLinks_modifyTable.link v).trans (hu.2 v)⟩) methods
  exact .same (Nat.le_of_eq hkeep.1.symm) hkeep.2

theorem relinked_subclass {parent : Value} {name : String}
    (h : s.subclass parent name = .ok (c, t)) : Relinked s t none := by
  obtain ⟨m, hm, hclass, h⟩ := subclass_eq_ok h
  cases h
  refine relinked_alloc_module rfl ⟨fun {b} hb => ?_, nofun, nofun⟩
  cases hb
  refine isClass_iff.mpr ⟨m.link, ?_, hclass⟩
  rw [← module?_map_link, hm]
  rfl

theorem relinked_copyClass (hs : s.Hierarchy) (h : s.copyClass c = .ok (d, t)) :
    Relinked s t none := by
  obtain ⟨m, hm, h⟩ := copyClass_eq_ok h
  cases h
  refine relinked_alloc_module rfl (hs.fits (c := c) ?_)
  rw [← module?_map_link, hm]
  rfl

theorem isOk_includeModule (target module : Value) :
    (s.includeModule target module).isOk = (s.isModuleLike target && s.isModule module) := by
  unfold includeModule isModuleLike
  cases s.module? target with
  | none => rfl
  | some m =>
    cases s.isModule module with
    | false => rfl
    | true =>
      simp only [Bool.not_true, Bool.false_eq_true, if_false]
      split <;> rfl

theorem relinked_extendObject {v module : Value} (h : s.extendObject v module = .ok t) :
    Relinked s t none := by
  obtain ⟨-, rfl | rfl⟩ := extendObject_eq_ok h
  · exact relinked_of_objects rfl
  · exact relinked_modifyObject rfl

theorem relinked_includeModule {target module : Value}
    (h : s.includeModule target module = .ok t) :
    Relinked s t (some (target, module)) := by
  obtain ⟨m, hm, hmodule, hsame⟩ := includeModule_eq_ok h
  have hl : s.link? target = some m.link := by
    rw [← module?_map_link, hm]
    rfl
  rcases hsame with ⟨hmem, rfl⟩ | rfl
  · refine .joined m.link m.link hmodule hl (Nat.le_refl _) (fun v => ?_) rfl rfl fun x => ?_
    · split
      · rename_i hv
        rw [hv, hl]
      · rfl
    · refine ⟨.inl, fun hx => hx.elim id fun hx => ?_⟩
      rw [hx]
      exact List.contains_iff_mem.mp hmem
  · refine .joined m.link ⟨m.isModule, m.base, m.included ++ [module]⟩ hmodule hl
      (Nat.le_of_eq size_modifyObject.symm) (fun v => ?_) rfl rfl fun x => ?_
    · rw [← module?_map_link, module?_modifyModule, hm]
      split
      · rfl
      · exact module?_map_link
    · exact List.mem_append.trans (or_congr Iff.rfl List.mem_singleton)

end Store

theorem Payload.link?_of_isPlain {p : Payload} (h : p.isPlain = .true) : p.link? = none := by
  cases p with
  | module => cases h
  | _ => rfl

namespace Change

variable {s : Store}

/-- The inclusion that a change makes, as a class or module and what it includes. -/
def inclusion? (s : Store) : Change → Option (Value × Value)
  | includeModule target module =>
    if s.isModuleLike target && s.isModule module then some (target, module) else none
  | _ => none

open Store

theorem relinked (hs : s.Hierarchy) {ℓ : Layer} (c : Change) (hc : c.allowed ℓ = true) :
    Relinked s (c.apply s) (c.inclusion? s) := by
  cases c with
  | alloc cls payload ivars =>
    exact relinked_alloc (Payload.link?_of_isPlain (Change.isPlain_of_allowed hc))
  | allocInteger =>
    simp only [apply]
    split
    · exact relinked_of_objects rfl
    · exact relinked_alloc rfl
  | allocSymbol =>
    simp only [apply]
    split
    · exact relinked_of_objects rfl
    · refine .same (Nat.le_of_lt (size_alloc _)) fun v => ?_
      exact (link?_of_objects rfl).trans (link?_alloc_plain rfl)
  | instantiate =>
    simp only [apply]
    split
    · obtain ⟨p, hp, rfl, -⟩ := blankInstance?_eq_some ‹_›
      exact relinked_alloc (Payload.link?_of_isPlain (Payload.isPlain_of_isNew hp))
    · exact relinked_of_objects rfl
  | copyObject =>
    simp only [apply]
    split
    · obtain ⟨ivars, hp, rfl⟩ := copiedObject?_eq_some ‹_›
      exact relinked_alloc (Payload.link?_of_isPlain hp)
    · exact relinked_of_objects rfl
  | allocBlock | allocStep => exact relinked_alloc rfl
  | allocLambda p =>
    simp only [apply]
    split
    · exact relinked_alloc rfl
    · exact relinked_of_objects rfl
  | setIvar => exact relinked_modifyObject rfl
  | modifyItems | editHash | setText =>
    refine relinked_modifyObject ?_
    split
    · rename_i hp
      rw [hp]
      rfl
    · rfl
  | subclass =>
    simp only [apply]
    split
    · exact relinked_subclass ‹_›
    · exact relinked_of_objects rfl
  | copyClass =>
    simp only [apply]
    split
    · exact relinked_copyClass hs ‹_›
    · exact relinked_of_objects rfl
  | newModule =>
    exact relinked_alloc_module rfl ⟨fun hb => absurd hb (Option.some_ne_none _).symm, fun _ => rfl,
      fun hm => absurd hm List.not_mem_nil⟩
  | includeModule target module =>
    have hok := isOk_includeModule (s := s) target module
    simp only [apply, inclusion?, ← hok]
    split <;> rename_i h <;> rw [h]
    · exact relinked_includeModule h
    · exact relinked_of_objects rfl
  | extendObject =>
    simp only [apply]
    split
    · exact relinked_extendObject ‹_›
    · exact relinked_of_objects rfl
  | setCvar | setConst | nameModule => exact relinked_modifyModule fun _ => rfl
  | define | setVisibility | eraseMethod => exact relinked_modifyTable
  | aliasMethod =>
    simp only [apply]
    split
    · exact relinked_modifyModule fun _ => rfl
    · exact relinked_of_objects rfl
  | adopt =>
    simp only [apply]
    split
    · exact relinked_modifyTable
    · exact relinked_of_objects rfl
  | aliasPending | aliasVisible =>
    simp only [apply]
    split <;> exact relinked_of_objects rfl
  | promote => exact relinked_promoteAll rfl
  | _ => exact relinked_of_objects rfl

end Change

end Garnet
