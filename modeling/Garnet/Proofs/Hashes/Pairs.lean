import Garnet.Proofs.Hashes.Data

/-!
# Keys that are equal

Two keys of a hash are different when the later one is stored. They can be equal later on, but only
when one of them is a text that has been changed in place since, or when both are arrays.
-/

namespace Garnet

open Relation

namespace Store

variable {s t u : Store} {a b k v : Value} {config : Config} {input : List String}

/-! ## Where a pair of keys comes from -/

/-- One key stands before the other in some hash. -/
def Together (s : Store) (a b : Value) : Prop := ∃ v, [a, b].Sublist (s.keys v)

/-- The second key is stored in a hash that has the first one, and they are not equal. -/
structure Joins (s t : Store) (a b : Value) : Prop where
  stores : ∃ w x, a ∈ s.keys w ∧ t = (Change.editHash w (.insert b x)).apply s
  index_lt : b.index < s.objects.size
  apart : s.keyEql a b = false

theorem pair_sublist_concat {α : Type} {a b c : α} {l : List α}
    (h : [a, b].Sublist (l ++ [c])) : [a, b].Sublist l ∨ a ∈ l ∧ b = c := by
  have hrev : [b, a].Sublist (c :: l.reverse) := by simpa using h.reverse
  cases hrev with
  | cons _ h => exact .inl (by simpa using h.reverse)
  | cons_cons _ h => exact .inr ⟨by simpa using h, rfl⟩

theorem Together.of_apply {ℓ : Layer} {c : Change} (hc : c.allowed ℓ = true)
    (h : (c.apply s).Together a b) : s.Together a b ∨ s.Joins (c.apply s) a b := by
  obtain ⟨v, hab⟩ := h
  obtain ⟨w, hw⟩ | ⟨key, x, rfl, hkey, hapart, hkeys⟩ := c.keys_apply hc s v
  · exact .inl ⟨w, hab.trans hw⟩
  · rw [hkeys] at hab
    rcases pair_sublist_concat hab with hab | ⟨ha, rfl⟩
    · exact .inl ⟨v, hab⟩
    · exact .inr ⟨⟨v, x, ha, rfl⟩, hkey, hapart a ha⟩

theorem Together.of_sameData (h : SameData none s t) (ht : t.Together a b) : s.Together a b := by
  obtain ⟨v, hab⟩ := ht
  rcases Nat.lt_or_ge v.index s.objects.size with hlt | hge
  · exact ⟨v, h.keys hlt nofun ▸ hab⟩
  · obtain ⟨w, hw⟩ := h.keys_fresh v hge
    exact ⟨w, hw ▸ hab⟩

theorem together_ofHeap (a b : Value) (P : Prop) :
    OfHeap fun s t => t.Together a b → s.Together a b ∨ P where
  trans h h' hu := (h' hu).elim h .inr
  of_same h ht := .inl (.of_sameData (.of_objects h.objects) ht)
  exception _ _ _ ht := .inl (.of_sameData (.newException _ _) ht)

/-- After the run of a point a pair is one that was there before, or was joined inside of it. -/
theorem Together.of_outcome {p : Point} (h : p.outcome.store.Together a b) :
    p.store.Together a b ∨ ∃ π q, p.Running π q ∧ q.store.Joins q.outcome.store a b := by
  refine (together_ofHeap a b _).carried.outcome p (fun π q c hq hc hab => ?_) h
  cases hc with
  | @mk n ℓ α s c f hl =>
    exact (Together.of_apply hl hab).imp_right fun hj => ⟨π, _, hq, hj⟩

/-- At each moment of a session a pair is one that was there at the start, or was joined at some
moment before. -/
theorem Together.of_leads (h : ReflTransGen Leads s t) (hab : t.Together a b) :
    s.Together a b ∨ ∃ u u', ReflTransGen Leads s u ∧ Leads u u' ∧ u.Joins u' a b ∧
      ReflTransGen Leads u' t := by
  induction h with
  | refl => exact .inl hab
  | @tail t t' hst hleads ih =>
    have before (hab : t.Together a b) : s.Together a b ∨
        ∃ u u', ReflTransGen Leads s u ∧ Leads u u' ∧ u.Joins u' a b ∧
          ReflTransGen Leads u' t' :=
      (ih hab).imp_right fun ⟨u, u', hu, hstep, hj, hu'⟩ =>
        ⟨u, u', hu, hstep, hj, hu'.tail hleads⟩
    obtain hsame | ⟨c, message, rfl⟩ | ⟨p, hp, rfl, rfl⟩ := hleads.cases
    · exact before (.of_sameData (.of_objects hsame.objects) hab)
    · exact before (.of_sameData (.newException _ _) hab)
    · obtain hab | ⟨π, q, hq, hj⟩ := Together.of_outcome hab
      · exact before hab
      · exact .inr ⟨_, _, hst.trans (hp.leads hq), .ends (hp.running hq), hj,
          hp.leads_outcome hq⟩

/-! ## Keys are objects -/

/-- Every key of a hash is an object that is there. -/
def KeysExist (s : Store) : Prop := ∀ v, ∀ k ∈ s.keys v, k.index < s.objects.size

namespace KeysExist

theorem of_sameData (hs : s.KeysExist) (h : SameData none s t) : t.KeysExist := by
  intro v k hk
  refine Nat.lt_of_lt_of_le ?_ h.size_le
  rcases Nat.lt_or_ge v.index s.objects.size with hlt | hge
  · exact hs v k (h.keys hlt nofun ▸ hk)
  · obtain ⟨w, hw⟩ := h.keys_fresh v hge
    exact hs w k (hw ▸ hk)

theorem lasting : Lasting fun s t => s.KeysExist → t.KeysExist where
  trans h h' := h' ∘ h
  of_same h hs := hs.of_sameData (.of_objects h.objects)
  exception _ _ _ hs := hs.of_sameData (.newException _ _)
  change c s hc hs := by
    intro v k hk
    refine Nat.lt_of_lt_of_le ?_ (c.sameData hc s).size_le
    obtain ⟨w, hw⟩ | ⟨key, x, rfl, hkey, -, hkeys⟩ := c.keys_apply hc s v
    · exact hs w k (hw.subset hk)
    · rw [hkeys] at hk
      rcases List.mem_append.mp hk with hk | hk
      · exact hs v k hk
      · exact List.mem_singleton.mp hk ▸ hkey

end KeysExist

/-! ## How keys come to be equal -/


/-- A text that has been changed in place. -/
def Rewritten (s t : Store) (v : Value) : Prop := ∃ x, s.text? v = some x ∧ t.text? v ≠ some x

theorem keyEql_eq (hs : 0 < s.objects.size) : ∃ n, s.keyEql a b = s.keyEqlWithin (n + 1) a b := by
  obtain ⟨n, hn⟩ := Nat.exists_eq_succ_of_ne_zero (Nat.ne_of_gt hs)
  exact ⟨n, by rw [keyEql, hn]⟩

theorem payload_of_kind {p : Payload} (h : (t.payload v).kind = (s.payload v).kind)
    (hv : t.payload v = p) (hp : p.Scalar) : s.payload v = p :=
  Payload.eq_of_kind hp (hv ▸ h)

theorem text_of_kind {x : String} (h : (t.payload v).kind = (s.payload v).kind)
    (hv : t.payload v = .text x) : ∃ y, s.payload v = .text y := by
  rw [hv] at h
  cases hp : s.payload v with
  | text y => exact ⟨y, rfl⟩
  | _ => rw [hp] at h; cases h

theorem rewritten_of_ne {x y : String} (hs : s.payload v = .text y) (ht : t.payload v = .text x)
    (h : x ≠ y) : Rewritten s t v :=
  ⟨y, by rw [text?, hs], by rw [text?, ht]; exact fun he => h (Option.some.inj he)⟩

/-- Two objects come to be equal as keys only when one of them is a text that has been changed, or
when both are arrays. -/
theorem rewritten_of_keyEql (ha : (t.payload a).kind = (s.payload a).kind)
    (hb : (t.payload b).kind = (s.payload b).kind) (hs : 0 < s.objects.size)
    (ht : 0 < t.objects.size) (hold : s.keyEql a b = false) (hnew : t.keyEql a b = true) :
    (t.array? a).isSome ∧ (t.array? b).isSome ∨ Rewritten s t a ∨ Rewritten s t b := by
  obtain ⟨n, hn⟩ := keyEql_eq (a := a) (b := b) hs
  obtain ⟨k, hk⟩ := keyEql_eq (a := a) (b := b) ht
  rw [hn, keyEqlWithin, Bool.or_eq_false_iff] at hold
  obtain ⟨hne, hold⟩ := hold
  rw [hk, keyEqlWithin, hne, Bool.false_or] at hnew
  split at hnew <;> rename_i hta htb
  -- numbers and symbols are the same as before
  case h_1 | h_2 | h_4 =>
    rw [payload_of_kind ha hta trivial, payload_of_kind hb htb trivial] at hold
    exact absurd hnew (Bool.eq_false_iff.mp hold)
  case h_3 x y =>
    obtain ⟨x', hsa⟩ := text_of_kind ha hta
    obtain ⟨y', hsb⟩ := text_of_kind hb htb
    rw [hsa, hsb] at hold
    refine .inr ?_
    by_cases hx : x = x'
    · refine .inr (rewritten_of_ne hsb htb fun hy => ?_)
      rw [← hx, ← hy] at hold
      exact Bool.eq_false_iff.mp hold hnew
    · exact .inl (rewritten_of_ne hsa hta hx)
  case h_5 => exact .inl ⟨by rw [array?, hta]; rfl, by rw [array?, htb]; rfl⟩
  case h_6 => cases hnew

/-! ## At the start -/

theorem keys_alloc {o : Object} (ho : o.payload.keys = []) : (s.alloc o).2.keys v = s.keys v :=
  keep_alloc (·.payload.keys) ho

theorem keys_modifyModule {c : Value} (f : ModuleInfo → ModuleInfo) :
    (s.modifyModule c f).keys v = s.keys v :=
  keys_modifyObject fun o => by cases ho : o.payload <;> simp only [ho, Payload.keys]

theorem keys_modifyTable (holder : Holder) (f : MethodTable → MethodTable) :
    (s.modifyTable holder f).keys v = s.keys v := by
  cases holder with
  | own => exact keys_modifyObject fun _ => rfl
  | instances => exact keys_modifyModule _

theorem keys_bare : bare.keys v = [] := by
  have hfixed : ∀ o ∈ fixedObjects, o.payload.keys = [] :=
    forall_mem_fixedObjects (fun _ => rfl) (by simp [singularObjects, Payload.keys])
  have hempty : keys { bare with objects := #[] } v = [] := keys_of_size_le (Nat.zero_le _)
  exact (keep_append (·.payload.keys) (Array.empty_append ..).symm hfixed).trans hempty

/-- No session starts with a key. -/
theorem start_keys (config : Config) (input : List String) : (start config input).keys v = [] := by
  have hbase : base.keys v = [] :=
    base_induction (P := fun t => t.keys v = []) keys_bare
      (fun _ _ _ _ => (keys_modifyModule _).trans)
      fun _ _ _ _ _ _ => (keys_modifyTable _ _).trans
  have hintegers : ∀ o ∈ internedIntegers config, o.payload.keys = [] := fun o ho => by
    obtain ⟨k, -, rfl⟩ := Array.mem_map.mp ho
    rfl
  exact start_induction (P := fun t => t.keys v = []) config input hbase
    (fun _ => (keep_append (·.payload.keys) rfl hintegers).trans)
    (fun _ _ _ _ => (keys_modifyModule _).trans) fun _ _ => (keys_alloc rfl).trans

/-! ## In the course of a session -/

theorem keysExist_of_leads (h : ReflTransGen Leads (start config input) s) : s.KeysExist :=
  KeysExist.lasting.moments h fun v k hk => by
    rw [start_keys] at hk
    cases hk

/-- Two keys of one hash that are equal were not when the later one was stored; since then one of
them, a text, has been changed in place, or both are arrays. -/
theorem pairwise_keys (h : ReflTransGen Leads (start config input) t) (v : Value) :
    (t.keys v).Pairwise fun a b => t.keyEql a b = true →
      (t.array? a).isSome ∧ (t.array? b).isSome ∨
        ∃ s u, ReflTransGen Leads (start config input) s ∧ Leads s u ∧ s.Joins u a b ∧
          ReflTransGen Leads u t ∧ (Rewritten s t a ∨ Rewritten s t b) := by
  refine List.pairwise_iff_forall_sublist.mpr fun {a b} hab heql => ?_
  obtain ⟨w, hw⟩ | ⟨s, u, hs, hsu, hj, hut⟩ := Together.of_leads h ⟨v, hab⟩
  · rw [start_keys] at hw
    cases hw
  · obtain ⟨w, x, ha, -⟩ := hj.stores
    obtain ⟨hsize, hkind⟩ := Lasting.kind.moments (hut.head hsu)
    have hlt : a.index < s.objects.size := keysExist_of_leads hs w a ha
    have hpos : 0 < s.objects.size := Nat.zero_lt_of_lt hlt
    have hpos' : 0 < t.objects.size := Nat.lt_of_lt_of_le hpos hsize
    refine (rewritten_of_keyEql (hkind a hlt) (hkind b hj.index_lt) hpos hpos' hj.apart
      heql).imp_right fun hr => ?_
    exact ⟨s, u, hs, hsu, hj, hut, hr⟩

end Store

end Garnet
