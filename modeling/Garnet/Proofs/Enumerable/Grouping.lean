import Garnet.Proofs.Enumerable.Chunks
import Garnet.Proofs.Equality.Keys

/-!
# Groups of elements

Elements are put into groups by keys that a block gives them. The groups are the values of a hash, in
the order in which their keys have come first; each is an array that takes in one element after
another. To count the elements is to keep the sizes of the groups that they are themselves the keys of.
-/

namespace Garnet

open Eval

/-! ## Groups of a list -/

section Groups

variable {eql eql' : Value → Value → Bool} {before xs ys ks : List Value}
  {l l' : List (Value × Value)} {k key x : Value}

theorem firsts_append :
    firsts eql before (xs ++ ys) = firsts eql before xs ++ firsts eql (before ++ xs) ys := by
  induction xs generalizing before with
  | nil => rw [List.nil_append, List.append_nil]; rfl
  | cons x xs ih =>
    rw [List.cons_append, firsts, firsts, ih, List.append_assoc, List.singleton_append]
    split <;> rfl

theorem firsts_concat_of_any (h : xs.any (eql · k) = true) :
    firsts eql [] (xs ++ [k]) = firsts eql [] xs := by
  rw [firsts_append, List.nil_append, firsts, if_pos h, firsts, List.append_nil]

theorem firsts_concat_of_not_any (h : xs.any (eql · k) = false) :
    firsts eql [] (xs ++ [k]) = firsts eql [] xs ++ [k] := by
  rw [firsts_append, List.nil_append, firsts, if_neg (Bool.eq_false_iff.mp h), firsts]

/-- The elements, each behind its key, whose keys equal `k`. -/
def members (eql : Value → Value → Bool) (l : List (Value × Value)) (k : Value) : List Value :=
  (l.filter (eql k ·.1)).map (·.2)

/-- The groups in the order of the first ones of their keys, with the elements in order. -/
def grouped (eql : Value → Value → Bool) (l : List (Value × Value)) : List (Value × List Value) :=
  (firsts eql [] (l.map (·.1))).map fun k => (k, members eql l k)

theorem members_append : members eql (l ++ l') k = members eql l k ++ members eql l' k := by
  rw [members, List.filter_append, List.map_append]
  rfl

theorem members_concat_of_eql (h : eql k key = true) :
    members eql (l ++ [(key, x)]) k = members eql l k ++ [x] := by
  have hfilter : [(key, x)].filter (eql k ·.1) = [(key, x)] := List.filter_cons_of_pos h
  rw [members_append, members, members, hfilter]
  rfl

theorem members_concat_of_not (h : eql k key = false) :
    members eql (l ++ [(key, x)]) k = members eql l k := by
  have hfilter : [(key, x)].filter (eql k ·.1) = [] :=
    List.filter_cons_of_neg (Bool.eq_false_iff.mp h)
  rw [members_append, members, members, hfilter, List.map_nil, List.append_nil]

theorem members_eq_nil (hequiv : Equivalence fun j k => eql j k = true)
    (h : (l.map (·.1)).any (eql · k) = false) : members eql l k = [] := by
  rw [members, List.filter_eq_nil_iff.mpr, List.map_nil]
  intro p hp hkp
  exact List.any_eq_false.mp h p.1 (List.mem_map_of_mem hp) (hequiv.symm hkp)

theorem members_congr (h : ∀ p ∈ l, eql k p.1 = eql' k p.1) :
    members eql l k = members eql' l k := by
  rw [members, members, List.filter_congr h]

/-- Two equalities that agree on the keys make the same groups. -/
theorem grouped_congr (h : ∀ j ∈ l.map (·.1), ∀ k ∈ l.map (·.1), eql j k = eql' j k) :
    grouped eql l = grouped eql' l := by
  have hfirsts : firsts eql [] (l.map (·.1)) = firsts eql' [] (l.map (·.1)) := firsts_congr h
  rw [grouped, grouped, hfirsts]
  refine List.map_congr_left fun k hk => ?_
  rw [members_congr fun p hp => h k (firsts_sublist.subset hk) p.1 (List.mem_map_of_mem hp)]

/-- The groups of keys of which just one equals that of any element, have all elements. -/
theorem perm_flatMap_members (hks : ks.Pairwise fun j k => eql j k = false)
    (hequiv : Equivalence fun j k => eql j k = true)
    (hl : ∀ p ∈ l, ks.any (eql · p.1) = true) : (ks.flatMap (members eql l)).Perm (l.map (·.2)) := by
  induction ks generalizing l with
  | nil =>
    cases l with
    | nil => exact .nil
    | cons p l => cases hl p List.mem_cons_self
  | cons k ks ih =>
    obtain ⟨hk, hks⟩ := List.pairwise_cons.mp hks
    let others := l.filter (!eql k ·.1)
    have hothers : ∀ p ∈ others, ks.any (eql · p.1) = true := by
      intro p hp
      obtain ⟨hp, hkp⟩ := List.mem_filter.mp hp
      have hany := hl p hp
      have hnot : eql k p.1 = false := by rwa [Bool.not_eq_eq_eq_not] at hkp
      rw [List.any_cons, hnot] at hany
      exact hany
    -- what is in the group of `k` is in no other one
    have hsame : ∀ j ∈ ks, members eql others j = members eql l j := by
      intro j hj
      rw [members, members, List.filter_filter]
      congr 1
      refine List.filter_congr fun p hp => ?_
      cases hjp : eql j p.1 with
      | false => rfl
      | true =>
        cases hkp : eql k p.1 with
        | false => rfl
        | true =>
          have hkj : eql k j = true := hequiv.trans hkp (hequiv.symm hjp)
          rw [hk j hj] at hkj
          cases hkj
    rw [List.flatMap_cons, ← List.flatMap_congr fun j hj => hsame j hj]
    refine (List.Perm.append_left _ (ih hks hothers)).trans ?_
    rw [members, ← List.map_append]
    exact (List.filter_append_perm _ _).map _

/-- Each element is in the group of one key only. -/
theorem countP_grouped (hequiv : Equivalence fun j k => eql j k = true) {p : Value × Value}
    (hp : p ∈ l) : (grouped eql l).countP (eql ·.1 p.1) = 1 := by
  rw [grouped, List.countP_map]
  exact countP_firsts hequiv (List.mem_map_of_mem hp)

theorem perm_grouped (hequiv : Equivalence fun j k => eql j k = true) :
    ((grouped eql l).flatMap (·.2)).Perm (l.map (·.2)) := by
  rw [grouped, List.flatMap_map]
  refine perm_flatMap_members firsts_pairwise hequiv fun p hp => ?_
  rw [any_firsts_nil hequiv]
  exact List.any_eq_true.mpr ⟨p.1, List.mem_map_of_mem hp, hequiv.refl p.1⟩

/-- The sizes of the groups add up to the number of elements. -/
theorem sum_grouped (hequiv : Equivalence fun j k => eql j k = true) :
    ((grouped eql l).map (·.2.length)).sum = l.length := by
  have hlength := (perm_grouped (l := l) hequiv).length_eq
  rwa [List.length_flatMap, List.length_map] at hlength

end Groups

/-! ## Groups in a hash -/

namespace Store

variable {s u w : Store} {v x : Value} {xs : Array Value} {f : Array Value → Array Value}
  {edit : HashEdit} {out key item : Value} {h : HashData} {l : List (Value × Value)}

theorem array?_modifyItems (hv : s.array? v = some xs) :
    ((Change.modifyItems v f).apply s).array? v = some (f xs) := by
  have hpayload : (s.object v).payload = .array xs := array?_eq_some.mp hv
  rw [array?_eq_some, payload, Change.apply, object_modifyObject,
    if_pos ⟨rfl, index_lt_of_array? hv⟩, hpayload]

theorem object_modifyItems_of_ne (h : x ≠ v) :
    ((Change.modifyItems v f).apply s).object x = s.object x := by
  rw [Change.apply, object_modifyObject, if_neg fun hx => h hx.1]

theorem object_editHash_of_ne (h : x ≠ v) :
    ((Change.editHash v edit).apply s).object x = s.object x := by
  rw [Change.apply, object_modifyObject, if_neg fun hx => h hx.1]

theorem keys_get?_eq_none {eql : Value → Value → Bool} {t : Table} (h : t.get? eql key = none) :
    ∀ a ∈ t.keys, eql a key = false := by
  rw [Table.get?_eq_find?, Option.map_eq_none_iff, List.find?_eq_none] at h
  intro a ha
  obtain ⟨v, hv⟩ := Table.mem_keys.mp ha
  exact Bool.eq_false_iff.mpr (h (a, v) hv)

/-- With all there is in `u` as it was, the hash has the groups of the elements: under their keys there
are arrays of its own, and no two are the same. -/
structure HasGroups (u w : Store) (out : Value) (h : HashData) (l : List (Value × Value)) : Prop where
  keeps : u.Keeps w
  fresh : u.objects.size ≤ out.index
  hash : w.hash? out = some h
  keys : h.table.keys = firsts u.keyEql [] (l.map (·.1))
  nodup : (h.table.pairs.map (·.2)).Nodup
  arrays : ∀ p ∈ h.table.pairs, u.objects.size ≤ p.2.index ∧
    w.array? p.2 = some (members u.keyEql l p.1).toArray

/-- The entries of a hash are these groups, each under its key and in an array. -/
def HoldsGroups (t : Store) (v : Value) (gs : List (Value × List Value)) : Prop :=
  ∃ h, t.hash? v = some h ∧ List.Forall₂
    (fun p (g : Value × List Value) => p.1 = g.1 ∧ t.array? p.2 = some g.2.toArray) h.table.pairs gs

namespace HasGroups

theorem ne_out {g : Value} (hg : u.HasGroups w out h l) (hxs : w.array? g = some xs) : g ≠ out := by
  rintro rfl
  have harray := array?_eq_some.mp hxs
  rw [hash?_eq_some.mp hg.hash] at harray
  cases harray

/-- One key of the hash equals no other one. -/
theorem eq_of_keyEql (hg : u.HasGroups w out h l) {p q : Value × Value} (hp : p ∈ h.table.pairs)
    (hq : q ∈ h.table.pairs) (hpq : u.keyEql p.1 q.1 = true) : p = q := by
  by_contra hne
  have hequiv := u.keyEql_equivalence
  have hkeys : u.Apart h.table := by
    rw [Apart, hg.keys]
    exact firsts_pairwise
  have hsymm : Std.Symm fun p q : Value × Value => u.keyEql p.1 q.1 = false := ⟨fun p q hpq =>
    Bool.eq_false_iff.mpr fun hqp => Bool.eq_false_iff.mp hpq (hequiv.symm hqp)⟩
  have hdiffers := hkeys.pairs.forall hp hq hne
  rw [hpq] at hdiffers
  cases hdiffers

/-- What equals a key of the hash has come as the key of an element. -/
theorem any_of_mem (hg : u.HasGroups w out h l) {p : Value × Value} (hp : p ∈ h.table.pairs)
    (hpk : u.keyEql p.1 key = true) : (l.map (·.1)).any (u.keyEql · key) = true := by
  have hmem : p.1 ∈ h.table.keys := Table.mem_keys_of_mem hp
  rw [hg.keys] at hmem
  exact List.any_eq_true.mpr ⟨p.1, firsts_sublist.subset hmem, hpk⟩

theorem map_concat : (l ++ [(key, item)]).map (·.1) = l.map (·.1) ++ [key] :=
  List.map_append

/-- An element comes to the group of a key that is there. -/
theorem push {k g : Value} (hg : u.HasGroups w out h l) (hmem : (k, g) ∈ h.table.pairs)
    (hk : u.keyEql k key = true) :
    u.HasGroups ((Change.modifyItems g (·.push item)).apply w) out h (l ++ [(key, item)]) where
  keeps := hg.keeps.modify (hg.arrays _ hmem).1
  fresh := hg.fresh
  hash := by
    have hne : out ≠ g := (hg.ne_out (hg.arrays _ hmem).2).symm
    rw [hash?, payload, object_modifyItems_of_ne hne]
    exact hg.hash
  keys := by rw [map_concat, firsts_concat_of_any (hg.any_of_mem hmem hk), hg.keys]
  nodup := hg.nodup
  arrays := by
    intro p hp
    obtain ⟨hfresh, harray⟩ := hg.arrays p hp
    refine ⟨hfresh, ?_⟩
    by_cases hpg : p.2 = g
    · -- only one key has the group `g`
      have hsame : p = (k, g) := by
        have hinj := List.inj_on_of_nodup_map hg.nodup
        exact hinj hp hmem hpg
      rw [hpg, array?_modifyItems (hpg ▸ harray), hsame, members_concat_of_eql hk]
      exact congrArg some (List.push_toArray ..)
    · have hnot : u.keyEql p.1 key = false := by
        refine Bool.eq_false_iff.mpr fun hpk => hpg ?_
        have hequiv := u.keyEql_equivalence
        have hpk' : u.keyEql p.1 k = true := hequiv.trans hpk (hequiv.symm hk)
        exact congrArg Prod.snd (hg.eq_of_keyEql hp hmem hpk')
      rw [array?, payload, object_modifyItems_of_ne hpg, members_concat_of_not hnot]
      exact harray

/-- The first element with a new key comes to a new group. -/
theorem insert (hg : u.HasGroups w out h l) (hu : u.Whole) (hkey : key.index < u.objects.size)
    (hl : ∀ p ∈ l, p.1.index < u.objects.size)
    (hnone : (l.map (·.1)).any (u.keyEql · key) = false) :
    u.HasGroups ((Change.editHash out (.insert key ⟨w.objects.size⟩)).apply (w.withArray #[item])) out
      { h with table := h.table.insert (w.withArray #[item]).keyEql key ⟨w.objects.size⟩ }
      (l ++ [(key, item)]) := by
  let g : Value := ⟨w.objects.size⟩
  have hequiv := u.keyEql_equivalence
  have hwith : u.Keeps (w.withArray #[item]) := hg.keeps.trans (.alloc _)
  have hout : out.index < w.objects.size := index_lt_of_hash? (hg.hash ▸ rfl)
  have hne : out ≠ g := fun h => Nat.lt_irrefl _ (h ▸ hout)
  have hkeys {k : Value} (hk : k ∈ h.table.keys) : k ∈ l.map (·.1) := by
    rw [hg.keys] at hk
    exact firsts_sublist.subset hk
  -- none of the keys equals the new one
  have hdiffers : ∀ k ∈ h.table.keys, (w.withArray #[item]).keyEql k key = false := by
    intro k hk
    obtain ⟨p, hp, rfl⟩ := List.mem_map.mp (hkeys hk)
    rw [hwith.keyEql hu (hl p hp) hkey]
    exact Bool.eq_false_iff.mpr (List.any_eq_false.mp hnone _ (hkeys hk))
  have hpairs := Table.pairs_insert_of_forall (x := g) hdiffers
  have hhash : (w.withArray #[item]).hash? out = some h := by
    rw [hash?, payload, withArray, object_alloc_of_lt w _ hout]
    exact hg.hash
  have hwithout {v : Value} (hv : v ≠ out) :
      ((Change.editHash out (.insert key g)).apply (w.withArray #[item])).array? v =
        (w.withArray #[item]).array? v := by
    rw [array?, payload, object_editHash_of_ne hv]
    rfl
  exact {
    keeps := hwith.modify hg.fresh
    fresh := hg.fresh
    hash := by
      have hlt : key.index < (w.withArray #[item]).objects.size :=
        Nat.lt_of_lt_of_le hkey hwith.size_le
      rw [hash?_eq_some, payload_editHash (hash?_eq_some.mp hhash), HashEdit.apply, if_pos hlt]
    keys := by
      rw [map_concat, firsts_concat_of_not_any hnone, ← hg.keys,
        Table.keys_insert_of_forall hdiffers]
    nodup := by
      rw [hpairs, List.map_append, List.map_singleton, ← List.concat_eq_append]
      refine hg.nodup.concat fun hmem => ?_
      obtain ⟨p, hp, hpg⟩ := List.mem_map.mp hmem
      have hlt := index_lt_of_array? (hg.arrays p hp).2
      exact Nat.lt_irrefl _ (hpg ▸ hlt)
    arrays := by
      intro p hp
      rw [hpairs] at hp
      rcases List.mem_append.mp hp with hp | hp
      · obtain ⟨hfresh, harray⟩ := hg.arrays p hp
        have hnot : u.keyEql p.1 key = false := by
          have hmem : p.1 ∈ h.table.keys := Table.mem_keys_of_mem hp
          exact Bool.eq_false_iff.mpr (List.any_eq_false.mp hnone _ (hkeys hmem))
        rw [hwithout (hg.ne_out harray), members_concat_of_not hnot]
        exact ⟨hfresh, array?_alloc _ harray⟩
      · obtain rfl := List.mem_singleton.mp hp
        rw [hwithout hne.symm, members_concat_of_eql (hequiv.refl key), members_eq_nil hequiv hnone]
        refine ⟨hg.keeps.size_le, ?_⟩
        rw [array?_eq_some, payload, withArray, object_alloc]
        rfl }

theorem holdsGroups (hg : u.HasGroups w out h l) : w.HoldsGroups out (grouped u.keyEql l) := by
  have hgrouped : grouped u.keyEql l =
      h.table.pairs.map fun p => (p.1, members u.keyEql l p.1) := by
    rw [grouped, ← hg.keys, Table.keys_eq, List.map_map]
    rfl
  refine ⟨h, hg.hash, ?_⟩
  rw [hgrouped, List.forall₂_map_right_iff, List.forall₂_same]
  exact fun p hp => ⟨rfl, (hg.arrays p hp).2⟩

end HasGroups

end Store

namespace Library

open Enumerable (addToGroup groupBy pairKey pairValue)

variable {e : Engine} {I : Store → Prop} {b recv out key item : Value} {xs : List Value}
  {s t u w : Store} {h : HashData} {l l' : List (Value × Value)}

/-- An element that is added to its group, which is made when there is none. -/
theorem addToGroup_run (hg : u.HasGroups w out h l) (hu : u.Whole)
    (hl : ∀ p ∈ l, p.1.index < u.objects.size) (hkey : key.index < u.objects.size) :
    ∃ w' h', (addToGroup out key item).run e w = .ok () w' ∧
      u.HasGroups w' out h' (l ++ [(key, item)]) := by
  have hentries : w.entries out = h.table := Store.entries_of_hash? hg.hash
  have hkeys {k : Value} (hk : k ∈ h.table.keys) : k.index < u.objects.size := by
    rw [hg.keys] at hk
    obtain ⟨p, hp, rfl⟩ := List.mem_map.mp (firsts_sublist.subset hk)
    exact hl p hp
  have hagree {k : Value} (hk : k ∈ h.table.keys) : w.keyEql k key = u.keyEql k key :=
    hg.keeps.keyEql hu (hkeys hk) hkey
  cases hget : h.table.get? w.keyEql key with
  | some g =>
    obtain ⟨k, hmem, hk⟩ := Store.exists_of_get? hget
    rw [hagree (Table.mem_keys_of_mem hmem)] at hk
    refine ⟨_, h, ?_, hg.push hmem hk⟩
    rw [addToGroup, lookupEntry, Act.run_bind, run_view, Ending.andThen_ok, hentries, hget]
    rfl
  | none =>
    have hnone : (l.map (·.1)).any (u.keyEql · key) = false := by
      rw [← any_firsts_nil u.keyEql_equivalence, ← hg.keys, List.any_eq_false]
      intro k hk
      rw [← hagree hk]
      exact Bool.eq_false_iff.mp (Store.keys_get?_eq_none hget k hk)
    refine ⟨_, _, ?_, hg.insert hu hkey hl hnone⟩
    rw [addToGroup, lookupEntry, Act.run_bind, run_view, Ending.andThen_ok, hentries, hget]
    rfl

/-- The pairs that a walk has made hold the keys and the elements. -/
def PairsHold (s : Store) (ps : List Value) (l : List (Value × Value)) : Prop :=
  List.Forall₂ (fun p (q : Value × Value) => s.array? p = some #[q.1, q.2]) ps l

/-- The elements come into the groups one after another. -/
theorem addAll_run {ps : List Value} (hg : u.HasGroups w out h l) (hu : u.Whole)
    (hps : PairsHold u ps l') (hl : ∀ p ∈ l ++ l', p.1.index < u.objects.size) :
    ∃ w' h', (ps.forM fun p => do
        let (key, item) ← view fun s => (pairKey s p, pairValue s p)
        addToGroup out key item : Op Unit).run e w = .ok () w' ∧
      u.HasGroups w' out h' (l ++ l') := by
  induction hps generalizing w h l with
  | nil => exact ⟨w, h, rfl, (List.append_nil l).symm ▸ hg⟩
  | @cons p q ps l' hp _ ih =>
    have hpw : w.array? p = some #[q.1, q.2] := by
      rw [hg.keeps.array? (Store.index_lt_of_array? hp), hp]
    have happend : l ++ q :: l' = (l ++ [(q.1, q.2)]) ++ l' := by
      rw [List.append_assoc, List.singleton_append]
    have hadd : ∃ w' h', (addToGroup out q.1 q.2).run e w = .ok () w' ∧
        u.HasGroups w' out h' (l ++ [(q.1, q.2)]) :=
      addToGroup_run hg hu (fun r hr => hl r (List.mem_append_left _ hr))
        (hl q (List.mem_append_right _ List.mem_cons_self))
    obtain ⟨w', h', hrun, hg'⟩ := hadd
    rw [happend] at hl ⊢
    obtain ⟨w'', h'', hruns, hg''⟩ := ih hg' hl
    refine ⟨w'', h'', ?_, hg''⟩
    have hpair : (pairKey w p, pairValue w p) = (q.1, q.2) := by
      simp [pairKey, pairValue, hpw]
    rw [Act.run_forM_cons, Act.run_bind, run_view, Ending.andThen_ok, hpair]
    exact (congrArg (Ending.andThen · _) hrun).trans hruns

theorem PairsHold.keep {ps : List Value} (h : PairsHold s ps l) (hst : s.KeepsArrays t) :
    PairsHold t ps l :=
  h.imp fun _ _ hp => hst _ _ hp

theorem PairsHold.index_lt {ps : List Value} (h : PairsHold s ps l) (hs : s.Whole) :
    ∀ p ∈ l, p.1.index < s.objects.size := by
  induction h with
  | nil => exact List.forall_mem_nil _
  | cons hp _ ih => exact List.forall_mem_cons.mpr ⟨hs _ _ hp _ (by simp), ih⟩

/-- The walk makes a pair of each element with what the block answers for it. -/
theorem keyed_ends (hI : Steady I recv xs) (hb : AnswersEach e I b xs) (hs : I s)
    (hfuel : xs.length < e.fuel) :
    ∃ ps ks t, (Enumerable.keyed recv (some b)).run e s = .ok ps t ∧ I t ∧
      List.Forall₂ (Answered e I b) xs ks ∧ PairsHold t ps (ks.zip xs) := by
  let J (pre : List Value) (p : Progress) (s : Store) : Prop := I s ∧
    ∃ ks, List.Forall₂ (Answered e I b) pre ks ∧ PairsHold s p.items.toList (ks.zip pre)
  have hstep : ∀ pre x p s, pre ++ [x] <+: xs → J pre p s →
      ∃ q t, (visitItem (.keyed b) p x).run e s = .ok (q, false) t ∧ J (pre ++ [x]) q t := by
    rintro pre x p s hpre ⟨hs, ks, hks, hps⟩
    have hx : x ∈ xs := hpre.subset (List.mem_append_right _ (List.mem_singleton_self x))
    obtain ⟨k, t, hcall, ht, hk, hst⟩ := hb x hx s hs
    obtain ⟨u, hnew, hpair, htu⟩ := newList_run [k, x] e t
    have hu : I u := by
      cases hnew
      refine hI.withArray t #[k, x] ht fun y hy => ?_
      rcases List.mem_cons.mp (Array.mem_toList_iff.mpr hy) with rfl | hy
      · exact hk
      · exact List.mem_singleton.mp hy ▸ hI.index_lt ht hx
    have hzip : (ks ++ [k]).zip (pre ++ [x]) = ks.zip pre ++ [(k, x)] :=
      List.zip_append hks.length_eq.symm
    refine ⟨{ p with items := p.items.push ⟨t.objects.size⟩ }, u, ?_, hu, ks ++ [k],
      List.rel_append hks (.cons ⟨s, t, hs, hcall⟩ .nil), ?_⟩
    · rw [visitItem, Act.run_bind, hcall, Ending.andThen_ok, Act.run_bind, hnew, Ending.andThen_ok,
        Act.run_pure]
    · rw [hzip, Array.toList_push]
      exact List.rel_append ((hps.keep hst).keep htu) (.cons hpair .nil)
  obtain ⟨q, t, hrun, ht, ks, hks, hps⟩ := walk_array_ends (p := {}) (J := J)
    (fun _ _ s hs => hI.array s hs.1) hstep ⟨hs, [], .nil, .nil⟩ hfuel
  refine ⟨q.items.toList, ks, t, ?_, ht, hks, hps⟩
  rw [Enumerable.keyed, needBlock, Act.run_bind, Act.run_pure, Ending.andThen_ok, Act.run_bind, hrun,
    Ending.andThen_ok, Act.run_pure]

/-- The groups of what the block has answered. Which of the keys are equal is the same before the groups
are made and afterwards. -/
theorem groupBy_ends (hI : Steady I recv xs) (hb : AnswersEach e I b xs) (hs : I s)
    (hfuel : xs.length < e.fuel) :
    ∃ ks u out t, (groupBy recv [] (some b)).run e s = .ok out t ∧ I u ∧
      List.Forall₂ (Answered e I b) xs ks ∧
      (∀ j ∈ ks, ∀ k ∈ ks, t.keyEql j k = u.keyEql j k) ∧
      t.HoldsGroups out (grouped t.keyEql (ks.zip xs)) := by
  obtain ⟨ps, ks, u, hkeyed, hu, hks, hps⟩ := keyed_ends hI hb hs hfuel
  have hlength : ks.length = xs.length := hks.length_eq.symm
  have hindex := hps.index_lt (hI.whole u hu)
  have hkeys : ∀ k ∈ ks, k.index < u.objects.size := by
    intro k hk
    rw [← List.map_fst_zip (Nat.le_of_eq hlength)] at hk
    obtain ⟨p, hp, rfl⟩ := List.mem_map.mp hk
    exact hindex p hp
  have hempty : u.HasGroups (u.withHash {}) ⟨u.objects.size⟩ {} [] := {
    keeps := .alloc _
    fresh := Nat.le_refl _
    hash := Store.hash?_withHash
    keys := rfl
    nodup := .nil
    arrays := fun _ hp => absurd hp List.not_mem_nil }
  obtain ⟨t, h, hrun, hg⟩ := addAll_run (e := e) hempty (hI.whole u hu) hps hindex
  have hagree : ∀ j ∈ ks, ∀ k ∈ ks, t.keyEql j k = u.keyEql j k := fun j hj k hk =>
    hg.keeps.keyEql (hI.whole u hu) (hkeys j hj) (hkeys k hk)
  have hgrouped : grouped t.keyEql (ks.zip xs) = grouped u.keyEql (ks.zip xs) := by
    refine grouped_congr ?_
    rwa [List.map_fst_zip (Nat.le_of_eq hlength)]
  refine ⟨ks, u, ⟨u.objects.size⟩, t, ?_, hu, hks, hagree, hgrouped ▸ hg.holdsGroups⟩
  rw [groupBy, Act.run_bind, hkeyed, Ending.andThen_ok, Act.run_bind, newHash_run, Ending.andThen_ok,
    Act.run_bind]
  exact (congrArg (Ending.andThen · _) hrun).trans rfl

end Library

end Garnet
