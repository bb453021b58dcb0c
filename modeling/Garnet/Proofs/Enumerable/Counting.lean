import Garnet.Proofs.Enumerable.Grouping

/-!
# Counts of elements

The elements of an array are counted in a hash, each under the first one that it equals. The counts
are the sizes of the groups in which the elements stand for themselves.
-/

namespace Garnet

open Eval

/-! ## Groups of elements under themselves -/

section Groups

variable {eql : Value → Value → Bool} {xs : List Value} {k x : Value}

theorem map_fst_zip_self : (xs.zip xs).map (·.1) = xs := List.map_fst_zip (Nat.le_refl _)

theorem length_members_self : (members eql (xs.zip xs) k).length = xs.countP (eql k ·) := by
  have hcount : (xs.zip xs).countP (eql k ·.1) = ((xs.zip xs).map (·.1)).countP (eql k ·) :=
    List.countP_map.symm
  rw [members, List.length_map, ← List.countP_eq_length_filter, hcount, map_fst_zip_self]

theorem countP_concat_of_eql (h : eql k x = true) :
    (xs ++ [x]).countP (eql k ·) = xs.countP (eql k ·) + 1 := by
  rw [List.countP_append]
  exact congrArg _ (List.countP_cons_of_pos h)

theorem countP_concat_of_not (h : eql k x = false) :
    (xs ++ [x]).countP (eql k ·) = xs.countP (eql k ·) := by
  rw [List.countP_append]
  exact congrArg _ (List.countP_cons_of_neg (Bool.eq_false_iff.mp h))

/-- Equal elements equal the same ones. -/
theorem countP_congr_of_eql (hequiv : Equivalence fun x y => eql x y = true) (h : eql k x = true) :
    xs.countP (eql k ·) = xs.countP (eql x ·) :=
  List.countP_congr fun _ _ => ⟨fun hky => hequiv.trans (hequiv.symm h) hky, hequiv.trans h⟩

end Groups

/-! ## Counts in a hash -/

namespace Store

variable {u w t : Store} {out x c : Value} {h : HashData} {l : List Value}

theorem Keeps.of_grows (h : w.Grows t) : w.Keeps t := ⟨h.size_le, fun _ hv => h.object hv⟩

/-- With all there is in `u` as it was, the hash has the number of elements that equal each of its
keys. -/
structure HasCounts (u w : Store) (out : Value) (h : HashData) (l : List Value) : Prop where
  keeps : u.Keeps w
  fresh : u.objects.size ≤ out.index
  hash : w.hash? out = some h
  keys : h.table.keys = firsts u.keyEql [] l
  counts : ∀ p ∈ h.table.pairs, w.payload p.2 = .integer (l.countP (u.keyEql p.1 ·))
  cached : w.IntegersCached

/-- The entries of a hash are the sizes of these groups, each under its key. -/
def HoldsSizes (t : Store) (v : Value) (gs : List (Value × List Value)) : Prop :=
  ∃ h, t.hash? v = some h ∧ List.Forall₂
    (fun p (g : Value × List Value) => p.1 = g.1 ∧ t.payload p.2 = .integer g.2.length)
    h.table.pairs gs

namespace HasCounts

theorem mem_of_mem_keys {k : Value} (hc : u.HasCounts w out h l) (hk : k ∈ h.table.keys) : k ∈ l := by
  rw [hc.keys] at hk
  exact firsts_sublist.subset hk

theorem holdsSizes (hc : u.HasCounts w out h l) : w.HoldsSizes out (grouped u.keyEql (l.zip l)) := by
  have hgrouped : grouped u.keyEql (l.zip l) =
      h.table.pairs.map fun p => (p.1, members u.keyEql (l.zip l) p.1) := by
    rw [grouped, map_fst_zip_self, ← hc.keys, Table.keys_eq, List.map_map]
    rfl
  refine ⟨h, hc.hash, ?_⟩
  rw [hgrouped, List.forall₂_map_right_iff, List.forall₂_same]
  exact fun p hp => ⟨rfl, by rw [hc.counts p hp, length_members_self]⟩

/-- What the hash has for an element is how many equal ones have come before. -/
theorem seen (hc : u.HasCounts w out h l) (hu : u.Whole) (hx : x.index < u.objects.size)
    (hl : ∀ y ∈ l, y.index < u.objects.size) (hlength : (l.length : Int) ≤ Number.maxWord) :
    ((h.table.get? w.keyEql x).bind w.word?).getD 0 = l.countP (u.keyEql x ·) := by
  have hequiv := u.keyEql_equivalence
  have hagree {k : Value} (hk : k ∈ h.table.keys) : w.keyEql k x = u.keyEql k x :=
    hc.keeps.keyEql hu (hl k (hc.mem_of_mem_keys hk)) hx
  cases hget : h.table.get? w.keyEql x with
  | some c =>
    obtain ⟨k, hmem, hk⟩ := exists_of_get? hget
    have hkx : u.keyEql k x = true := hagree (Table.mem_keys_of_mem hmem) ▸ hk
    have hle : l.countP (u.keyEql k ·) ≤ l.length := List.countP_le_length
    have hword : Number.isWord (l.countP (u.keyEql k ·)) = true := by
      have hmin : Number.minWord ≤ 0 := by decide
      rw [Number.isWord, Bool.and_eq_true, decide_eq_true_iff, decide_eq_true_iff]
      omega
    rw [Option.bind_some, word?, hc.counts _ hmem]
    simp only [hword, if_true, Option.getD_some]
    rw [countP_congr_of_eql hequiv hkx]
  | none =>
    have hzero : l.countP (u.keyEql x ·) = 0 := by
      refine List.countP_eq_zero.mpr fun y hy hxy => ?_
      have hany : l.any (u.keyEql · x) = true := List.any_eq_true.mpr ⟨y, hy, hequiv.symm hxy⟩
      rw [← any_firsts_nil hequiv, ← hc.keys] at hany
      obtain ⟨k, hk, hkx⟩ := List.any_eq_true.mp hany
      rw [← hagree hk, keys_get?_eq_none hget k hk] at hkx
      cases hkx
    rw [hzero]
    rfl

/-- An element is counted once more. -/
theorem insert (hc : u.HasCounts w out h l) (hwt : w.Grows t) (hu : u.Whole)
    (hx : x.index < u.objects.size) (hl : ∀ y ∈ l, y.index < u.objects.size)
    (hcount : t.payload c = .integer (l.countP (u.keyEql x ·) + 1)) :
    u.HasCounts ((Change.editHash out (.insert x c)).apply t) out
      { h with table := h.table.insert t.keyEql x c } (l ++ [x]) := by
  have hequiv := u.keyEql_equivalence
  have hkeeps : u.Keeps t := hc.keeps.trans (.of_grows hwt)
  have hhash : t.payload out = .hash h := hwt.payload (hash?_eq_some.mp hc.hash) Payload.noConfusion
  have hlt : x.index < t.objects.size := Nat.lt_of_lt_of_le hx hkeeps.size_le
  have hagree {k : Value} (hk : k ∈ h.table.keys) : t.keyEql k x = u.keyEql k x :=
    hkeeps.keyEql hu (hl k (hc.mem_of_mem_keys hk)) hx
  -- the hash is the only object that changes
  have hinteger {v : Value} {i : Int} (hv : t.payload v = .integer i) :
      ((Change.editHash out (.insert x c)).apply t).payload v = .integer i := by
    have hne : v ≠ out := fun hvo => by
      rw [hvo, hhash] at hv
      cases hv
    rw [payload, object_editHash_of_ne hne]
    exact hv
  have hnew : ((Change.editHash out (.insert x c)).apply t).payload c =
      .integer ((l ++ [x]).countP (u.keyEql x ·)) := by
    rw [countP_concat_of_eql (hequiv.refl x)]
    exact hinteger hcount
  have hold {p : Value × Value} (hp : p ∈ h.table.pairs) (hpx : u.keyEql p.1 x = false) :
      ((Change.editHash out (.insert x c)).apply t).payload p.2 =
        .integer ((l ++ [x]).countP (u.keyEql p.1 ·)) := by
    rw [countP_concat_of_not hpx]
    exact hinteger (hwt.payload (hc.counts p hp) Payload.noConfusion)
  refine {
    keeps := hkeeps.modify hc.fresh
    fresh := hc.fresh
    hash := by rw [hash?_eq_some, payload_editHash hhash, HashEdit.apply, if_pos hlt]
    keys := ?_
    counts := ?_
    cached := fun i hi => hinteger (hwt.integersCached hc.cached i hi) }
  · cases hany : l.any (u.keyEql · x) with
    | false =>
      rw [firsts_concat_of_not_any hany, ← hc.keys]
      refine Table.keys_insert_of_forall fun k hk => ?_
      rw [hagree hk]
      exact Bool.eq_false_iff.mpr (List.any_eq_false.mp hany k (hc.mem_of_mem_keys hk))
    | true =>
      rw [firsts_concat_of_any hany, ← hc.keys]
      rw [← any_firsts_nil hequiv, ← hc.keys] at hany
      obtain ⟨k, hk, hkx⟩ := List.any_eq_true.mp hany
      exact Table.keys_insert_of_eql ⟨k, hk, hagree hk ▸ hkx⟩
  · intro p hp
    by_cases hin : ∃ k ∈ h.table.keys, t.keyEql k x = true
    · have hone : h.table.OneAtMost t.keyEql x := by
        have hkeys : u.Apart h.table := by
          rw [Apart, hc.keys]
          exact firsts_pairwise
        refine hkeys.pairs.imp_of_mem fun {p q} hp hq hpq hboth => ?_
        obtain ⟨hpx, hqx⟩ := hboth
        rw [hagree (Table.mem_keys_of_mem hp)] at hpx
        rw [hagree (Table.mem_keys_of_mem hq)] at hqx
        have hsame : u.keyEql p.1 q.1 = true := hequiv.trans hpx (hequiv.symm hqx)
        rw [hpq] at hsame
        cases hsame
      rw [Table.pairs_insert_of_eql hone hin] at hp
      obtain ⟨q, hq, rfl⟩ := List.mem_map.mp hp
      have hsame := hagree (Table.mem_keys_of_mem hq : q.1 ∈ h.table.keys)
      cases hqx : u.keyEql q.1 x with
      | true =>
        rw [if_pos (hsame.trans hqx), hnew, countP_congr_of_eql hequiv hqx]
      | false =>
        rw [if_neg (Bool.eq_false_iff.mp (hsame.trans hqx))]
        exact hold hq hqx
    · have hdiffers : ∀ k ∈ h.table.keys, t.keyEql k x = false := fun k hk =>
        Bool.eq_false_iff.mpr fun hkx => hin ⟨k, hk, hkx⟩
      rw [Table.pairs_insert_of_forall hdiffers] at hp
      rcases List.mem_append.mp hp with hp | hp
      · have hmem : p.1 ∈ h.table.keys := Table.mem_keys_of_mem hp
        exact hold hp ((hagree hmem).symm.trans (hdiffers _ hmem))
      · obtain rfl := List.mem_singleton.mp hp
        exact hnew

end HasCounts

end Store

namespace Library

variable {e : Engine} {recv out x : Value} {xs pre : List Value} {s u w : Store} {h : HashData}
  {p : Progress}

theorem visitItem_tally_run (hc : u.HasCounts w out h pre) (hu : u.Whole)
    (hx : x.index < u.objects.size) (hpre : ∀ y ∈ pre, y.index < u.objects.size)
    (hlength : (pre.length : Int) ≤ Number.maxWord) :
    ∃ w' h', (visitItem (.tally out) p x).run e w = .ok (p, false) w' ∧
      u.HasCounts w' out h' (pre ++ [x]) := by
  have hentries : w.entries out = h.table := Store.entries_of_hash? hc.hash
  have hseen := hc.seen hu hx hpre hlength
  obtain ⟨c, t, hnew, hwt, -, hcount⟩ :=
    newInt_makes hc.cached (((h.table.get? w.keyEql x).bind w.word?).getD 0 + 1) (e := e)
  rw [hseen] at hcount
  refine ⟨_, _, ?_, hc.insert hwt hu hx hpre hcount⟩
  simp only [visitItem, lookupEntry, insertEntry, Act.run_bind, run_view, Ending.andThen_ok, hentries,
    hnew]
  rfl

/-- The elements are counted by the sizes of the groups in which they stand for themselves. -/
theorem tally_ends (hs : s.Whole) (hcached : s.IntegersCached) (hrecv : s.array? recv = some xs.toArray)
    (hlength : (xs.length : Int) ≤ Number.maxWord) (hfuel : xs.length < e.fuel) (args : List Value)
    (block : Option Value) :
    ∃ out t, (Enumerable.tally recv args block).run e s = .ok out t ∧
      t.HoldsSizes out (grouped s.keyEql (xs.zip xs)) := by
  let out : Value := ⟨s.objects.size⟩
  let J (pre : List Value) (_ : Progress) (w : Store) : Prop :=
    pre <+: xs ∧ ∃ h, s.HasCounts w out h pre
  have hindex : ∀ y ∈ xs, y.index < s.objects.size := fun y hy =>
    hs recv _ hrecv y (List.mem_toArray.mpr hy)
  have hempty : s.HasCounts (s.withHash {}) out {} [] := {
    keeps := .alloc _
    fresh := Nat.le_refl _
    hash := Store.hash?_withHash
    keys := rfl
    counts := fun _ hp => absurd hp List.not_mem_nil
    cached := fun i hi => by
      have hplace : s.payload (s.config.place i) = .integer i := hcached i hi
      have hlt := Store.index_lt_of_payload s hplace Payload.noConfusion
      exact ((Store.Keeps.alloc (s := s) _).payload hlt).trans hplace }
  have hstep : ∀ pre x p w, pre ++ [x] <+: xs → J pre p w →
      ∃ q w', (visitItem (.tally out) p x).run e w = .ok (q, false) w' ∧ J (pre ++ [x]) q w' := by
    rintro pre x p w hnext ⟨hpre, h, hc⟩
    have hshort := hpre.length_le
    have hx : x ∈ xs := hnext.subset (List.mem_append_right _ (List.mem_singleton_self x))
    obtain ⟨w', h', hrun, hc'⟩ := visitItem_tally_run (e := e) (p := p) hc hs (hindex x hx)
      (fun y hy => hindex y (hpre.subset hy)) (by omega)
    exact ⟨p, w', hrun, hnext, h', hc'⟩
  obtain ⟨q, t, hrun, -, h, hc⟩ := walk_array_ends (p := {}) (J := J)
    (fun _ _ w hw => hw.2.elim fun _ hc =>
      (hc.keeps.array? (Store.index_lt_of_array? hrecv)).trans hrecv)
    hstep ⟨List.nil_prefix, {}, hempty⟩ hfuel
  refine ⟨out, t, ?_, hc.holdsSizes⟩
  rw [Enumerable.tally, Act.run_bind, newHash_run, Ending.andThen_ok, Act.run_bind, Act.run_discard,
    hrun, Ending.andThen_ok]
  rfl

end Library

end Garnet
