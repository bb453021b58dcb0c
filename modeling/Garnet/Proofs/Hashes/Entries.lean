import Garnet.Proofs.Heap

/-!
# The keys of a hash

A key comes into a hash behind those that are there, and only when none of them equals it.
-/

namespace Garnet

namespace Table

variable {eql : Value → Value → Bool} {t : Table} {key x : Value}

/-! ### The two lists of a table -/

theorem keys_eq (t : Table) : t.keys = t.pairs.map Prod.fst :=
  (List.map_fst_zip (Nat.le_of_eq t.aligned)).symm

theorem values_eq (t : Table) : t.values = t.pairs.map Prod.snd :=
  (List.map_snd_zip (Nat.le_of_eq t.aligned.symm)).symm

theorem mem_keys {k : Value} : k ∈ t.keys ↔ ∃ v, (k, v) ∈ t.pairs := by
  rw [keys_eq, List.mem_map]
  constructor
  · rintro ⟨⟨_, v⟩, h, rfl⟩
    exact ⟨v, h⟩
  · rintro ⟨v, h⟩
    exact ⟨(k, v), h, rfl⟩

theorem mem_keys_of_mem {p : Value × Value} (h : p ∈ t.pairs) : p.1 ∈ t.keys :=
  mem_keys.mpr ⟨p.2, h⟩

/-- The entries of a table are the ones with its keys and its values. -/
theorem pairs_eq {entries : List (Value × Value)} (hkeys : entries.map Prod.fst = t.keys)
    (hvalues : entries.map Prod.snd = t.values) : t.pairs = entries :=
  (List.zip_of_prod hkeys hvalues).symm

theorem eq_of_pairs {u : Table} (h : t.pairs = u.pairs) : t = u := by
  have hkeys : t.keys = u.keys := by rw [keys_eq, h, keys_eq]
  have hvalues : t.values = u.values := by rw [values_eq, h, values_eq]
  cases t
  cases u
  cases hkeys
  cases hvalues
  rfl

theorem position?_eq_none : t.position? eql key = none ↔ ∀ a ∈ t.keys, eql a key = false :=
  List.findIdx?_eq_none_iff

/-- A key is looked up among the entries as it is among the keys. -/
theorem get?_eq_find? :
    t.get? eql key = (t.pairs.find? fun p => eql p.1 key).map Prod.snd := by
  rw [get?, position?, values_eq, keys_eq, List.findIdx?_map]
  induction t.pairs with
  | nil => rfl
  | cons p ps ih =>
    rw [List.findIdx?_cons, List.find?_cons]
    cases h : eql p.1 key with
    | true => simp only [Function.comp_apply, h, if_true]; rfl
    | false =>
      simp only [Function.comp_apply, h]
      rw [← ih, if_neg Bool.false_ne_true]
      cases ps.findIdx? ((fun k => eql k key) ∘ Prod.fst) <;> rfl

/-! ### Insertion and removal -/

theorem keys_insert_of_eql (h : ∃ a ∈ t.keys, eql a key = true) :
    (t.insert eql key x).keys = t.keys := by
  obtain ⟨a, ha, heql⟩ := h
  unfold insert
  split
  · rfl
  · rename_i hnone
    rw [position?_eq_none.mp hnone a ha] at heql
    cases heql

theorem keys_insert_of_forall (h : ∀ a ∈ t.keys, eql a key = false) :
    (t.insert eql key x).keys = t.keys ++ [key] := by
  rw [insert, position?_eq_none.mpr h]

theorem keys_erase_sublist : ((t.erase eql key).keys).Sublist t.keys := by
  unfold erase
  split
  · exact List.eraseIdx_sublist _ _
  · exact .refl _

/-- At most one key of the table equals `key`. -/
def OneAtMost (eql : Value → Value → Bool) (t : Table) (key : Value) : Prop :=
  t.pairs.Pairwise fun p q => ¬(eql p.1 key = true ∧ eql q.1 key = true)

/-- A key that is found stands between entries of other keys. -/
theorem OneAtMost.split {i : Nat} (hone : t.OneAtMost eql key) (h : t.position? eql key = some i) :
    ∃ l p r, t.pairs = l ++ p :: r ∧ l.length = i ∧ eql p.1 key = true ∧
      ∀ q ∈ l ++ r, eql q.1 key = false := by
  rw [position?, keys_eq, List.findIdx?_map] at h
  obtain ⟨hi, hp, -⟩ := List.findIdx?_eq_some_iff_getElem.mp h
  have hpairs : t.pairs = t.pairs.take i ++ t.pairs[i] :: t.pairs.drop (i + 1) :=
    (List.take_append_drop i t.pairs).symm.trans (congrArg _ (List.drop_eq_getElem_cons hi))
  refine ⟨_, _, _, hpairs, List.length_take_of_le (Nat.le_of_lt hi), hp, fun q hq => ?_⟩
  rw [OneAtMost, hpairs] at hone
  have hmid := List.perm_middle.pairwise hone fun h h' => h h'.symm
  exact Bool.eq_false_iff.mpr fun hq' => (List.pairwise_cons.mp hmid).1 q hq ⟨hp, hq'⟩

theorem pairs_erase (hone : t.OneAtMost eql key) :
    (t.erase eql key).pairs = t.pairs.filter fun p => !eql p.1 key := by
  unfold erase
  split
  · rename_i i hi
    obtain ⟨l, p, r, hpairs, rfl, hp, hothers⟩ := hone.split hi
    have hall : ∀ q ∈ l ++ r, (!eql q.1 key) = true := fun q hq => by rw [hothers q hq]; rfl
    have hfilter : (l ++ p :: r).filter (fun p => !eql p.1 key) = l ++ r := by
      rw [List.filter_append, List.filter_cons_of_neg (by simp [hp]), ← List.filter_append,
        List.filter_eq_self.mpr hall]
    rw [hpairs, hfilter]
    have herase (f : Value × Value → Value) :
        ((l ++ p :: r).map f).eraseIdx l.length = (l ++ r).map f := by
      rw [List.map_append, List.map_append, List.map_cons,
        List.eraseIdx_append_of_length_le (Nat.le_of_eq (List.length_map f)), List.length_map,
        Nat.sub_self]
      rfl
    have hkeys : t.keys.eraseIdx l.length = (l ++ r).map Prod.fst := by
      rw [keys_eq, hpairs, herase]
    have hvalues : t.values.eraseIdx l.length = (l ++ r).map Prod.snd := by
      rw [values_eq, hpairs, herase]
    exact pairs_eq hkeys.symm hvalues.symm
  · rename_i hnone
    refine (List.filter_eq_self.mpr fun q hq => ?_).symm
    rw [position?_eq_none.mp hnone q.1 (mem_keys_of_mem hq)]
    rfl

theorem pairs_insert_of_forall (h : ∀ a ∈ t.keys, eql a key = false) :
    (t.insert eql key x).pairs = t.pairs ++ [(key, x)] := by
  rw [insert, position?_eq_none.mpr h]
  exact List.zip_append t.aligned

theorem pairs_insert_of_eql (hone : t.OneAtMost eql key) (hin : ∃ a ∈ t.keys, eql a key = true) :
    (t.insert eql key x).pairs = t.pairs.map fun p => if eql p.1 key then (p.1, x) else p := by
  unfold insert
  split
  · rename_i i hi
    obtain ⟨l, p, r, hpairs, rfl, hp, hothers⟩ := hone.split hi
    have hall : ∀ q ∈ l ++ r, (if eql q.1 key = true then (q.1, x) else q) = q := fun q hq =>
      if_neg (Bool.eq_false_iff.mp (hothers q hq))
    rw [hpairs, List.map_append, List.map_cons, if_pos hp,
      List.map_congr_left fun q hq => hall q (List.mem_append_right l hq), List.map_id',
      List.map_congr_left fun q hq => hall q (List.mem_append_left r hq), List.map_id']
    have hkeys : t.keys = (l ++ (p.1, x) :: r).map Prod.fst := by
      rw [keys_eq, hpairs, List.map_append, List.map_append, List.map_cons, List.map_cons]
    have hvalues : t.values.set l.length x = (l ++ (p.1, x) :: r).map Prod.snd := by
      rw [values_eq, hpairs, List.map_append, List.map_append, List.map_cons, List.map_cons,
        List.set_append_right _ _ (Nat.le_of_eq (List.length_map _)), List.length_map, Nat.sub_self]
      rfl
    exact pairs_eq hkeys.symm hvalues.symm
  · rename_i hnone
    obtain ⟨a, ha, heql⟩ := hin
    rw [position?_eq_none.mp hnone a ha] at heql
    cases heql

end Table

def Payload.keys : Payload → List Value
  | .hash h => h.table.keys
  | _ => []

namespace Store

variable {s : Store} {a b v w : Value}

/-- The keys of a hash in order of insertion. -/
def keys (s : Store) (v : Value) : List Value := (s.payload v).keys

theorem keys_entries : (s.entries v).keys = s.keys v := by
  unfold entries hash? keys
  cases s.payload v <;> rfl

theorem keys_of_size_le (h : s.objects.size ≤ v.index) : s.keys v = [] := by
  rw [keys, payload, object_of_size_le h]
  rfl

end Store

/-- An edit adds a key to a hash only by insertion, when none that is there equals it. -/
theorem HashEdit.keys_apply (s : Store) (h : HashData) (e : HashEdit) :
    (e.apply s h).table.keys.Sublist h.table.keys ∨ (∃ w, (e.apply s h).table.keys = s.keys w) ∨
      ∃ key x, e = .insert key x ∧ key.index < s.objects.size ∧
        (∀ a ∈ h.table.keys, s.keyEql a key = false) ∧
        (e.apply s h).table.keys = h.table.keys ++ [key] := by
  cases e with
  | insert key x =>
    simp only [apply]
    split
    · rename_i hkey
      by_cases hin : ∃ a ∈ h.table.keys, s.keyEql a key = true
      · exact .inl (Table.keys_insert_of_eql hin ▸ .refl _)
      · have hnone : ∀ a ∈ h.table.keys, s.keyEql a key = false := fun a ha =>
          Bool.eq_false_iff.mpr fun heql => hin ⟨a, ha, heql⟩
        exact .inr (.inr ⟨key, x, rfl, hkey, hnone, Table.keys_insert_of_forall hnone⟩)
    · exact .inl (.refl _)
  | erase key => exact .inl Table.keys_erase_sublist
  | clear => exact .inl (List.nil_sublist _)
  | copy source => exact .inr (.inl ⟨source, Store.keys_entries⟩)
  | setFallback => exact .inl (.refl _)

end Garnet
