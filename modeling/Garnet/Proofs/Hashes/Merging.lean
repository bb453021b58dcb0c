import Garnet.Proofs.Endings
import Garnet.Proofs.Equality.Keys
import Garnet.Proofs.Hashes.Entries
import Garnet.Proofs.Hashes.Keys

/-!
# The union of tables, and merged hashes

The entries of one table put into another, one by one, give the union of the two: the keys of the
first one stay where they are, those that only the second one has follow, and what both have is
taken from the second one. Of tables without equal keys this union is associative.

What `merge` returns is the union of its receiver and its arguments, as a new hash with the default
of the receiver. `merge!` leaves the same entries in the receiver.
-/

namespace Garnet

namespace Table

variable {eql : Value → Value → Bool} {t : Table} {key : Value}

/-- The entries of the second table put into the first one, from the first to the last. -/
def union (eql : Value → Value → Bool) (t u : Table) : Table :=
  u.pairs.foldl (fun t p => t.insert eql p.1 p.2) t

/-- Whether a key of the table equals `key`. -/
def has (eql : Value → Value → Bool) (t : Table) (key : Value) : Bool := (t.get? eql key).isSome

theorem get?_of_not_has (h : t.has eql key = false) : t.get? eql key = none :=
  Option.isNone_iff_eq_none.mp (Option.isSome_eq_false_iff.mp h)

theorem has_eq_true : t.has eql key = true ↔ ∃ a ∈ t.keys, eql a key = true := by
  rw [has, get?_eq_find?, Option.isSome_map, List.find?_isSome, keys_eq]
  simp only [List.mem_map, exists_exists_and_eq_and]

theorem has_eq_false : t.has eql key = false ↔ ∀ a ∈ t.keys, eql a key = false := by
  simp only [← Bool.not_eq_true, has_eq_true, not_exists, not_and]

/-- Entries of different keys are put one behind the other. -/
theorem pairs_foldl_insert {ps : List (Value × Value)}
    (h : (t.pairs ++ ps).Pairwise fun p q => eql p.1 q.1 = false) :
    (ps.foldl (fun t p => t.insert eql p.1 p.2) t).pairs = t.pairs ++ ps := by
  induction ps generalizing t with
  | nil => exact (List.append_nil _).symm
  | cons p ps ih =>
    have hnew : (t.insert eql p.1 p.2).pairs = t.pairs ++ [p] := by
      refine pairs_insert_of_forall fun a ha => ?_
      obtain ⟨_, hq⟩ := mem_keys.mp ha
      exact (List.pairwise_append.mp h).2.2 _ hq p List.mem_cons_self
    rw [List.append_cons] at h
    rw [List.foldl_cons, ih (hnew ▸ h), hnew, ← List.append_cons]

end Table

namespace Store

variable {s : Store} {t u w : Table} {key k x : Value} {ps : List (Value × Value)}

/-! ## One entry -/

theorem Apart.oneAtMost (ht : s.Apart t) (key : Value) : t.OneAtMost s.keyEql key := by
  refine ht.pairs.imp fun hpq heq => ?_
  exact Bool.eq_false_iff.mp hpq (keyEqlWithin_trans heq.1 (keyEqlWithin_symm heq.2))

theorem has_congr (h : s.keyEql k key = true) : t.has s.keyEql k = t.has s.keyEql key :=
  congrArg Option.isSome (get?_congr t h)

theorem keys_insert_of_has (h : t.has s.keyEql key = true) :
    (t.insert s.keyEql key x).keys = t.keys :=
  Table.keys_insert_of_eql (Table.has_eq_true.mp h)

theorem keys_insert_of_not_has (h : t.has s.keyEql key = false) :
    (t.insert s.keyEql key x).keys = t.keys ++ [key] :=
  Table.keys_insert_of_forall (Table.has_eq_false.mp h)

theorem Apart.insert (ht : s.Apart t) : s.Apart (t.insert s.keyEql key x) := by
  unfold Apart at ht ⊢
  cases hin : t.has s.keyEql key with
  | true => rwa [keys_insert_of_has hin]
  | false =>
    rw [keys_insert_of_not_has hin, List.pairwise_append]
    refine ⟨ht, List.pairwise_singleton _ _, fun a ha b hb => ?_⟩
    exact List.mem_singleton.mp hb ▸ Table.has_eq_false.mp hin a ha

/-- A key that was given a value has this one, and all others have what they had. -/
theorem Apart.get?_insert (ht : s.Apart t) :
    (t.insert s.keyEql key x).get? s.keyEql k =
      if s.keyEql key k = true then some x else t.get? s.keyEql k := by
  have hkeys : s.keyEql key k = true → ∀ a, s.keyEql a key = s.keyEql a k := keyEql_congr_right
  rw [Table.get?_eq_find?, Table.get?_eq_find?]
  cases hin : t.has s.keyEql key with
  | true =>
    rw [Table.pairs_insert_of_eql (ht.oneAtMost key) (Table.has_eq_true.mp hin), List.find?_map,
      Option.map_map]
    have hkey : ((fun p : Value × Value => s.keyEql p.1 k) ∘ fun p =>
        if s.keyEql p.1 key = true then (p.1, x) else p) = fun p => s.keyEql p.1 k := by
      funext p
      simp only [Function.comp_apply]
      split <;> rfl
    rw [hkey]
    split
    · rename_i heql
      obtain ⟨v, hv⟩ := Option.isSome_iff_exists.mp ((has_congr heql).symm.trans hin)
      rw [Table.get?_eq_find?] at hv
      obtain ⟨p, hp, -⟩ := Option.map_eq_some_iff.mp hv
      have hpk := List.find?_some hp
      rw [hp, Option.map_some, Function.comp_apply, if_pos (hkeys heql p.1 ▸ hpk)]
    · rename_i hne
      refine Option.map_congr fun p hp => ?_
      have hpk := List.find?_some hp
      rw [Function.comp_apply, if_neg fun hpkey => hne ?_]
      exact keyEqlWithin_trans (keyEqlWithin_symm hpkey) hpk
  | false =>
    rw [Table.pairs_insert_of_forall (Table.has_eq_false.mp hin), List.find?_append]
    split
    · rename_i heql
      have hnone := Table.get?_of_not_has ((has_congr heql).symm.trans hin)
      rw [Table.get?_eq_find?, Option.map_eq_none_iff] at hnone
      simp only [hnone, Option.none_or, List.find?_cons, heql, Option.map_some]
    · rename_i hne
      simp only [List.find?_cons, Bool.eq_false_iff.mpr hne, List.find?_nil, Option.or_none]

theorem Apart.has_insert (ht : s.Apart t) :
    (t.insert s.keyEql key x).has s.keyEql k = (s.keyEql key k || t.has s.keyEql k) := by
  rw [Table.has, ht.get?_insert, Table.has]
  cases s.keyEql key k <;> rfl

/-! ## All entries of a table -/

theorem Apart.foldl_insert (ht : s.Apart t) :
    s.Apart (ps.foldl (fun t p => t.insert s.keyEql p.1 p.2) t) := by
  induction ps generalizing t with
  | nil => exact ht
  | cons p ps ih => exact ih ht.insert

theorem Apart.keys_foldl_insert (ht : s.Apart t)
    (hps : ps.Pairwise fun p q => s.keyEql p.1 q.1 = false) :
    (ps.foldl (fun t p => t.insert s.keyEql p.1 p.2) t).keys =
      t.keys ++ (ps.map Prod.fst).filter fun k => !t.has s.keyEql k := by
  induction hps generalizing t with
  | nil => exact (List.append_nil _).symm
  | @cons p ps hp _ ih =>
    have hothers : ((ps.map Prod.fst).filter fun k => !(t.insert s.keyEql p.1 p.2).has s.keyEql k) =
        (ps.map Prod.fst).filter fun k => !t.has s.keyEql k := by
      refine List.filter_congr fun k hk => ?_
      obtain ⟨q, hq, rfl⟩ := List.mem_map.mp hk
      rw [ht.has_insert, hp q hq, Bool.false_or]
    rw [List.foldl_cons, ih ht.insert, hothers, List.map_cons]
    cases hin : t.has s.keyEql p.1 with
    | true => rw [keys_insert_of_has hin, List.filter_cons_of_neg (by simp [hin])]
    | false =>
      rw [keys_insert_of_not_has hin, List.filter_cons_of_pos (by simp [hin]), List.append_assoc,
        List.singleton_append]

theorem Apart.get?_foldl_insert (ht : s.Apart t)
    (hps : ps.Pairwise fun p q => s.keyEql p.1 q.1 = false) :
    (ps.foldl (fun t p => t.insert s.keyEql p.1 p.2) t).get? s.keyEql k =
      ((ps.find? fun p => s.keyEql p.1 k).map Prod.snd).or (t.get? s.keyEql k) := by
  induction hps generalizing t with
  | nil => rfl
  | @cons p ps hp _ ih =>
    rw [List.foldl_cons, ih ht.insert, ht.get?_insert]
    split
    · rename_i heql
      have hnone : ps.find? (fun q => s.keyEql q.1 k) = none :=
        List.find?_eq_none.mpr fun q hq hqk => Bool.eq_false_iff.mp (hp q hq)
          (keyEqlWithin_trans heql (keyEqlWithin_symm hqk))
      simp only [hnone, List.find?_cons, heql, Option.map_none, Option.none_or, Option.map_some,
        Option.some_or]
    · rename_i hne
      simp only [List.find?_cons, Bool.eq_false_iff.mpr hne]

section

variable (ht : s.Apart t) (hu : s.Apart u)

include ht

theorem Apart.union : s.Apart (t.union s.keyEql u) := ht.foldl_insert

include hu

theorem Apart.keys_union :
    (t.union s.keyEql u).keys = t.keys ++ u.keys.filter fun k => !t.has s.keyEql k := by
  rw [Table.keys_eq u]
  exact ht.keys_foldl_insert hu.pairs

theorem Apart.get?_union :
    (t.union s.keyEql u).get? s.keyEql k = (u.get? s.keyEql k).or (t.get? s.keyEql k) := by
  rw [Table.get?_eq_find? (t := u)]
  exact ht.get?_foldl_insert hu.pairs

theorem Apart.has_union :
    (t.union s.keyEql u).has s.keyEql k = (u.has s.keyEql k || t.has s.keyEql k) := by
  rw [Table.has, ht.get?_union hu, Option.isSome_or, ← Table.has, ← Table.has]

end

/-- A table is given by its keys in order and what is found under each. -/
theorem Apart.eq_of_get? (ht : s.Apart t) (hu : s.Apart u) (hkeys : t.keys = u.keys)
    (hget : ∀ k, t.get? s.keyEql k = u.get? s.keyEql k) : t = u := by
  have hlookup {t : Table} (ht : s.Apart t) :
      t.pairs.map (fun p => (p.1, some p.2)) = t.keys.map fun k => (k, t.get? s.keyEql k) := by
    rw [Table.keys_eq, List.map_map]
    exact List.map_congr_left fun p hp => congrArg (p.1, ·) (ht.get?_of_mem hp).symm
  have hpairs : t.pairs.map (fun p => (p.1, some p.2)) = u.pairs.map fun p => (p.1, some p.2) := by
    rw [hlookup ht, hlookup hu, hkeys]
    simp only [hget]
  have hinjective : Function.Injective fun p : Value × Value => (p.1, some p.2) := fun p q hpq => by
    obtain ⟨hkey, hvalue⟩ := Prod.mk.inj hpq
    exact Prod.ext hkey (Option.some.inj hvalue)
  exact Table.eq_of_pairs (hinjective.list_map hpairs)

/-- Whichever two of three tables come together first, the outcome is the same. -/
theorem Apart.union_assoc (ht : s.Apart t) (hu : s.Apart u) (hw : s.Apart w) :
    (t.union s.keyEql u).union s.keyEql w = t.union s.keyEql (u.union s.keyEql w) := by
  refine Apart.eq_of_get? ht.union.union ht.union ?_ fun k => ?_
  · rw [ht.union.keys_union hw, ht.keys_union hu, ht.keys_union hu.union, hu.keys_union hw,
      List.filter_append, List.filter_filter, List.append_assoc]
    refine congrArg (t.keys ++ ·) (congrArg (_ ++ ·) (List.filter_congr fun k _ => ?_))
    rw [ht.has_union hu, Bool.not_or, Bool.and_comm]
  · rw [ht.union.get?_union hw, ht.get?_union hu, ht.get?_union hu.union, hu.get?_union hw,
      Option.or_assoc]

end Store

namespace Store

variable {s : Store} {h : HashData} {v : Value}

/-! ## One more hash -/

/-- The store with one more object, a hash. -/
def withHash (s : Store) (h : HashData) : Store :=
  (s.alloc { cls := CoreClass.hash.value, payload := .hash h }).2

theorem index_lt_of_hash? (hv : (s.hash? v).isSome) : v.index < s.objects.size := by
  obtain ⟨d, hd⟩ := payload_of_hash? hv
  exact index_lt_of_payload s hd (by simp)

theorem hash?_withHash : (s.withHash h).hash? ⟨s.objects.size⟩ = some h := by
  rw [hash?, payload, withHash, object_alloc]

theorem hash?_withHash_of_lt (hv : v.index < s.objects.size) :
    (s.withHash h).hash? v = s.hash? v := by
  rw [hash?, payload, withHash, object_alloc_of_lt s _ hv, ← payload, ← hash?]

theorem entries_of_hash? (hv : s.hash? v = some h) : s.entries v = h.table := by
  rw [entries, hv, Option.getD_some]

/-- A hash more makes no difference to the comparison of keys. -/
theorem keyEql_withHash : (s.withHash h).keyEql = s.keyEql :=
  keyEql_of_compared fun _ => keep_alloc (·.payload.compared) rfl

theorem Apart.of_compared {t : Store} {d : Table}
    (hst : ∀ v, (t.payload v).compared = (s.payload v).compared) (h : s.Apart d) : t.Apart d := by
  rw [Apart, keyEql_of_compared hst]
  exact h

theorem size_withHash : (s.withHash h).objects.size = s.objects.size + 1 := Array.size_push _

theorem modify_push {xs : Array Object} {o : Object} (f : Object → Object) :
    (xs.push o).modify xs.size f = xs.push (f o) := by
  refine Array.ext_getElem? fun i => ?_
  rw [Array.getElem?_modify, Array.getElem?_push, Array.getElem?_push]
  split
  · rename_i hi
    rw [if_pos hi.symm, if_pos hi.symm]
    rfl
  · rename_i hi
    rw [if_neg fun h => hi h.symm, if_neg fun h => hi h.symm]

theorem editHash_withHash {e : HashEdit} :
    (Change.editHash ⟨s.objects.size⟩ e).apply (s.withHash h) =
      s.withHash (e.apply (s.withHash h) h) := by
  simp only [Change.apply, hash?_withHash, Option.getD_some]
  exact congrArg (fun os => { s with objects := os }) (modify_push _)

/-- The default of a hash is no entry. -/
theorem entries_setFallback {x p : Option Value} :
    ((Change.editHash v (.setFallback x p)).apply s).entries v = s.entries v := by
  cases hv : s.payload v with
  | hash d =>
    rw [entries_of_hash? (hash?_eq_some.mpr hv),
      entries_of_hash? (hash?_eq_some.mpr (payload_editHash hv))]
    rfl
  | _ =>
    have hsame : ((Change.editHash v (.setFallback x p)).apply s).payload v = s.payload v := by
      rw [payload, Change.apply, object_modifyObject]
      split
      · rw [show (s.object v).payload = _ from hv, hv]
        exact hv
      · rfl
    rw [entries, hash?, hsame, ← hash?, ← entries]

end Store

namespace Eval

open Library.Hashes hiding entries
open Store

variable {e : Engine} {s : Store} {h : HashData} {a b c : Value} {bs : List Value}

theorem newHash_run : newHash.run e s = .ok ⟨s.objects.size⟩ (s.withHash {}) := rfl

theorem pairsOf_run : (pairsOf a).run e s = .ok (s.entries a).pairs s := rfl

/-! ## Merging without a block -/

theorem resolved_none_run (out : Value) (entry : Value × Value) (u : Store) :
    (resolved none out entry).run e u = .ok entry u := by
  simp only [resolved, lookupEntry, Act.run_bind, run_view, Ending.andThen_ok]
  cases (u.entries out).get? u.keyEql entry.1 <;> rfl

theorem fill_withHash (ps : List (Value × Value))
    (hps : ∀ p ∈ ps, p.1.index < s.objects.size) :
    (fill ⟨s.objects.size⟩ (resolved none ⟨s.objects.size⟩) ps).run e (s.withHash h) =
      .ok () (s.withHash
        { h with table := ps.foldl (fun t p => t.insert s.keyEql p.1 p.2) h.table }) := by
  induction ps generalizing h with
  | nil => rfl
  | cons p ps ih =>
    have hp : p.1.index < (s.withHash h).objects.size :=
      size_withHash ▸ Nat.lt_succ_of_lt (hps p List.mem_cons_self)
    rw [fill_run (resolved_none_run _ p _), editHash_withHash, HashEdit.apply, if_pos hp,
      keyEql_withHash, ih fun q hq => hps q (List.mem_cons_of_mem p hq), List.foldl_cons]

variable (hkeys : s.KeysExist)

include hkeys

theorem mergeInto_run (hb : (s.hash? b).isSome) :
    (mergeInto none ⟨s.objects.size⟩ b).run e (s.withHash h) =
      .ok () (s.withHash { h with table := h.table.union s.keyEql (s.entries b) }) := by
  obtain ⟨d, hd⟩ := Option.isSome_iff_exists.mp hb
  have hd' : (s.withHash h).hash? b = some d :=
    (hash?_withHash_of_lt (index_lt_of_hash? hb)).trans hd
  have hentries : s.entries b = d.table := entries_of_hash? hd
  simp only [mergeInto, Act.run_bind, run_view, Ending.andThen_ok, hd', hentries]
  refine fill_withHash _ fun p hp => hkeys b p.1 ?_
  rw [← keys_entries, hentries]
  exact Table.mem_keys_of_mem hp

theorem mergeInto_all_run (hbs : ∀ b ∈ bs, (s.hash? b).isSome) :
    (bs.forM (mergeInto none ⟨s.objects.size⟩)).run e (s.withHash h) =
      .ok () (s.withHash { h with
        table := bs.foldl (fun t b => t.union s.keyEql (s.entries b)) h.table }) := by
  induction bs generalizing h with
  | nil => rfl
  | cons b bs ih =>
    rw [Act.run_forM_cons, mergeInto_run hkeys (hbs b List.mem_cons_self), Ending.andThen_ok,
      ih fun c hc => hbs c (List.mem_cons_of_mem b hc), List.foldl_cons]

/-- Without a block, `merge` makes a hash with the entries of all and the default of the
receiver. -/
theorem merge_run (ha : s.hash? a = some h) (hbs : ∀ b ∈ bs, (s.hash? b).isSome) :
    (merge a bs none).run e s = .ok ⟨s.objects.size⟩ (s.withHash { h with
      table := bs.foldl (fun t b => t.union s.keyEql (s.entries b)) h.table }) := by
  have hsome : (s.hash? a).isSome := ha ▸ rfl
  have hentries : (s.withHash {}).entries a = h.table :=
    entries_of_hash? ((hash?_withHash_of_lt (index_lt_of_hash? hsome)).trans ha)
  have hedit (d : HashData) (c : HashEdit) :
      (edit ⟨s.objects.size⟩ c).run e (s.withHash d) =
        .ok () (s.withHash (c.apply (s.withHash d) d)) := by
    rw [← editHash_withHash]
    rfl
  simp only [merge, merged, dataOf, Act.run_bind, run_view, Ending.andThen_ok, Act.run_pure,
    newHash_run, hedit, mergeInto_all_run hkeys hbs, HashEdit.apply, hentries, ha,
    Option.getD_some]

theorem mergeTwo_run {d : HashData} (ha : s.hash? a = some h) (hb : s.hash? b = some d) (n : Nat) :
    (merge a [b] none).run (.ofFuel n) s =
        .ok ⟨s.objects.size⟩ (s.withHash { h with table := h.table.union s.keyEql d.table }) ∧
      (s.withHash { h with table := h.table.union s.keyEql d.table }).KeysExist := by
  have hrun : (merge a [b] none).run (.ofFuel n) s = _ :=
    merge_run hkeys ha fun c hc => List.mem_singleton.mp hc ▸ hb ▸ rfl
  rw [List.foldl_cons, List.foldl_nil, entries_of_hash? hb] at hrun
  exact ⟨hrun, KeysExist.lasting.kept.outcome_ok (p := ⟨n, merge a [b] none, s⟩) hrun hkeys⟩

/-- `merge` is associative: each of the three ways to merge three hashes gives the same table, and
the default of the first hash. -/
theorem merge_assoc {da db dc : HashData} (ha : s.hash? a = some da) (hb : s.hash? b = some db)
    (hc : s.hash? c = some dc) (hda : s.Apart da.table) (hdb : s.Apart db.table)
    (hdc : s.Apart dc.table) (n : Nat) :
    ∀ x ∈ [(do merge (← merge a [b] none) [c] none : Op Value),
        (do merge a [← merge b [c] none] none), merge a [b, c] none],
      ∃ out t, x.run (.ofFuel n) s = .ok out t ∧ t.hash? out = some { da with
        table := (da.table.union s.keyEql db.table).union s.keyEql dc.table } := by
  have old {v : Value} {d h : HashData} (hv : s.hash? v = some d) :
      (s.withHash h).hash? v = some d :=
    (hash?_withHash_of_lt (index_lt_of_hash? (hv ▸ rfl))).trans hv
  obtain ⟨hab, habkeys⟩ := mergeTwo_run hkeys ha hb n
  obtain ⟨hbc, hbckeys⟩ := mergeTwo_run hkeys hb hc n
  -- the second merge finds the hash that the first one has made, and keys compare as before
  have hleft := (mergeTwo_run habkeys hash?_withHash (old hc) n).1
  have hright := (mergeTwo_run hbckeys (old ha) hash?_withHash n).1
  have hboth : (merge a [b, c] none).run (.ofFuel n) s = _ :=
    merge_run hkeys ha (by simp [hb, hc])
  rw [keyEql_withHash] at hleft hright
  rw [← hda.union_assoc hdb hdc] at hright
  rw [List.foldl_cons, List.foldl_cons, List.foldl_nil, entries_of_hash? hb,
    entries_of_hash? hc] at hboth
  simp only [List.forall_mem_cons, List.not_mem_nil, false_imp_iff, implies_true, and_true]
  refine ⟨⟨_, _, Eq.trans ?_ hleft, hash?_withHash⟩, ⟨_, _, Eq.trans ?_ hright, hash?_withHash⟩,
    _, _, hboth, hash?_withHash⟩
  · rw [Act.run_bind, hab, Ending.andThen_ok]
  · rw [Act.run_bind, hbc, Ending.andThen_ok]

omit hkeys

/-- `merge!` ends as `merge` does, and leaves in the receiver the entries that `merge` returns. -/
theorem mergeInPlace_run (ha : (s.hash? a).isSome) (args : List Value) (block : Option Value)
    (n : Nat) :
    (∀ out t, (merge a args block).run (.ofFuel n) s = .ok out t →
      ∃ u, (mergeInPlace a args block).run (.ofFuel n) s = .ok a u ∧
        u.entries a = t.entries out) ∧
    ∀ stop t, (merge a args block).run (.ofFuel n) s = .error stop t →
      (mergeInPlace a args block).run (.ofFuel n) s = .error stop t := by
  have hmerge : (merge a args block).run (.ofFuel n) s =
      ((merged a args block).run (.ofFuel n) s).andThen fun out u =>
        .ok out ((Change.editHash out (.setFallback ((s.hash? a).getD {}).fallback
          ((s.hash? a).getD {}).fallbackProc)).apply u) := by
    simp only [merge, dataOf, Act.run_bind, run_view, Ending.andThen_ok, Act.run_pure]
    rfl
  have hplace : (mergeInPlace a args block).run (.ofFuel n) s =
      ((merged a args block).run (.ofFuel n) s).andThen fun out u =>
        .ok a ((Change.editHash a (.copy out)).apply u) := by
    simp only [mergeInPlace, Act.run_bind]
    rfl
  rw [hmerge, hplace]
  cases hrun : (merged a args block).run (.ofFuel n) s with
  | error stop u => exact ⟨nofun, fun _ _ h => h⟩
  | ok out u =>
    refine ⟨fun _ t h => ?_, nofun⟩
    cases h
    obtain ⟨d, hd⟩ := payload_of_hash? (hash?_of_run hrun ha)
    refine ⟨_, rfl, ?_⟩
    rw [entries_setFallback, entries_of_hash? (hash?_eq_some.mpr (payload_editHash hd))]
    rfl

end Eval

end Garnet
