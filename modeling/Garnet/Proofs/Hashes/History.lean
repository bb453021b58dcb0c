import Garnet.Proofs.Equality.Keys
import Garnet.Proofs.Hashes.Datum
import Garnet.Proofs.Hashes.Entries

/-!
# A table and its history

What a table of keys and values holds after insertions, removals and lookups can be told from the
history of these alone. A key has the value that it was given last, unless it has been removed
since, and its place among the keys is that of its first insertion since it was last removed.
-/

namespace Garnet

/-! ## Histories -/

open Store

/-- What is done with a table. -/
inductive TableStep where
  | insert (key value : Value)
  | remove (key : Value)
  | get (key : Value)

namespace TableStep

def key : TableStep → Value
  | insert k _ | remove k | get k => k

/-- What a step leaves of a table, in the store in which it is made. -/
def apply (s : Store) (h : HashData) : TableStep → HashData
  | insert k v => (HashEdit.insert k v).apply s h
  | remove k => (HashEdit.erase k).apply s h
  | get _ => h

/-- The step removes the keys of a datum. -/
def Removes (datum : Value → Datum) (d : Datum) : TableStep → Prop
  | remove k => datum k = d
  | insert .. | get _ => False

/-- The step inserts or removes a key of a datum. -/
def Writes (datum : Value → Datum) (d : Datum) : TableStep → Prop
  | insert k _ | remove k => datum k = d
  | get _ => False

end TableStep

/-- The steps that a table has gone through, each with the store in which it was made. -/
abbrev History := List (Store × TableStep)

namespace History

/-- The table at the end of a history that begins with an empty one. -/
def table (hist : History) : HashData := hist.foldl (fun h a => a.2.apply a.1 h) {}

/-- Behind a beginning that satisfies `B`, `k` is inserted with `v`, and none of the steps after
that satisfies `S`. -/
def Inserted (hist : History) (B : History → Prop) (k v : Value) (S : TableStep → Prop) : Prop :=
  ∃ before s after, hist = before ++ (s, .insert k v) :: after ∧ B before ∧ ∀ a ∈ after, ¬S a.2

variable (datum : Value → Datum)

/-- A key of the datum has been inserted and not been removed since. -/
def Present (hist : History) (d : Datum) : Prop :=
  ∃ k v, datum k = d ∧ hist.Inserted (fun _ => True) k v (·.Removes datum d)

/-- The last that was done with keys of the datum was to insert one with `v`. -/
def LastValue (hist : History) (d : Datum) (v : Value) : Prop :=
  ∃ k, datum k = d ∧ hist.Inserted (fun _ => True) k v (·.Writes datum d)

/-- Step `i` inserts `k` when no key of its datum is present, and none has been removed since. -/
def FirstInsertion (hist : History) (i : Nat) (k : Value) : Prop :=
  ∃ v, hist.Inserted (fun before => before.length = i ∧ ¬Present datum before (datum k)) k v
    (·.Removes datum (datum k))

variable {datum} {hist : History} {a : Store × TableStep} {d : Datum} {k v : Value} {i : Nat}

theorem inserted_concat {B : History → Prop} {S : TableStep → Prop} :
    Inserted (hist ++ [a]) B k v S ↔
      (a.2 = .insert k v ∧ B hist) ∨ (hist.Inserted B k v S ∧ ¬S a.2) := by
  constructor
  · rintro ⟨before, s, after, heq, hB, hS⟩
    obtain rfl | ⟨after, b, rfl⟩ := after.eq_nil_or_concat
    · obtain ⟨rfl, hlast⟩ := List.append_inj' heq rfl
      cases hlast
      exact .inl ⟨rfl, hB⟩
    · rw [List.concat_eq_append, ← List.cons_append, ← List.append_assoc] at heq
      obtain ⟨rfl, hlast⟩ := List.append_inj' heq rfl
      cases hlast
      exact .inr ⟨⟨before, s, after, rfl, hB, fun a ha => hS a (by simp [ha])⟩, hS _ (by simp)⟩
  · rintro (⟨ha, hB⟩ | ⟨⟨before, s, after, rfl, hB, hS⟩, ha⟩)
    · exact ⟨hist, a.1, [], by rw [← ha], hB, nofun⟩
    · refine ⟨before, s, after ++ [a], by simp, hB, fun b hb => ?_⟩
      obtain hb | hb := List.mem_append.mp hb
      · exact hS b hb
      · exact List.mem_singleton.mp hb ▸ ha

theorem present_concat :
    Present datum (hist ++ [a]) d ↔
      (∃ k v, a.2 = .insert k v ∧ datum k = d) ∨ (Present datum hist d ∧ ¬a.2.Removes datum d) := by
  simp only [Present, inserted_concat, and_true]
  constructor
  · rintro ⟨k, v, hk, ha | h⟩
    · exact .inl ⟨k, v, ha, hk⟩
    · exact .inr ⟨⟨k, v, hk, h.1⟩, h.2⟩
  · rintro (⟨k, v, ha, hk⟩ | ⟨⟨k, v, hk, h⟩, ha⟩)
    · exact ⟨k, v, hk, .inl ha⟩
    · exact ⟨k, v, hk, .inr ⟨h, ha⟩⟩

theorem lastValue_concat :
    LastValue datum (hist ++ [a]) d v ↔
      (∃ k, a.2 = .insert k v ∧ datum k = d) ∨
        (LastValue datum hist d v ∧ ¬a.2.Writes datum d) := by
  simp only [LastValue, inserted_concat, and_true]
  constructor
  · rintro ⟨k, hk, ha | h⟩
    · exact .inl ⟨k, ha, hk⟩
    · exact .inr ⟨⟨k, hk, h.1⟩, h.2⟩
  · rintro (⟨k, ha, hk⟩ | ⟨⟨k, hk, h⟩, ha⟩)
    · exact ⟨k, hk, .inl ha⟩
    · exact ⟨k, hk, .inr ⟨h, ha⟩⟩

theorem firstInsertion_concat :
    FirstInsertion datum (hist ++ [a]) i k ↔
      (∃ v, a.2 = .insert k v ∧ hist.length = i ∧ ¬Present datum hist (datum k)) ∨
        (FirstInsertion datum hist i k ∧ ¬a.2.Removes datum (datum k)) := by
  simp only [FirstInsertion, inserted_concat]
  constructor
  · rintro ⟨v, ha | h⟩
    · exact .inl ⟨v, ha⟩
    · exact .inr ⟨⟨v, h.1⟩, h.2⟩
  · rintro (⟨v, ha⟩ | ⟨⟨v, h⟩, ha⟩)
    · exact ⟨v, .inl ha⟩
    · exact ⟨v, .inr ⟨h, ha⟩⟩

theorem FirstInsertion.lt_length (h : FirstInsertion datum hist i k) : i < hist.length := by
  obtain ⟨v, before, s, after, rfl, ⟨rfl, -⟩, -⟩ := h
  rw [List.length_append, List.length_cons]
  omega

theorem not_inserted_nil {B : History → Prop} {S : TableStep → Prop} : ¬Inserted [] B k v S := by
  rintro ⟨before, s, after, heq, -⟩
  exact List.append_ne_nil_of_right_ne_nil _ (List.cons_ne_nil _ _) heq.symm

/-! ## Tables that follow a history -/

/-- A table holds what its history says. -/
structure Follows (datum : Value → Datum) (hist : History) (t : Table) : Prop where
  known : ∀ k ∈ t.keys, ∃ a ∈ hist, a.2.key = k
  apart : (t.keys.map datum).Nodup
  present : ∀ d, (∃ k ∈ t.keys, datum k = d) ↔ Present datum hist d
  value : ∀ d v, (∃ k, (k, v) ∈ t.pairs ∧ datum k = d) ↔ LastValue datum hist d v
  order : ∃ marks : List (Nat × Value), marks.map Prod.snd = t.keys ∧
    (marks.map Prod.fst).Pairwise (· < ·) ∧
    ∀ i k, (i, k) ∈ marks ↔ FirstInsertion datum hist i k

namespace Follows

variable {t : Table} {eql : Value → Value → Bool} {key x : Value} {s : Store}

theorem nil : Follows datum [] {} where
  known := nofun
  apart := List.nodup_nil
  present _ := ⟨nofun, fun ⟨_, _, _, h⟩ => absurd h not_inserted_nil⟩
  value _ _ := ⟨nofun, fun ⟨_, _, h⟩ => absurd h not_inserted_nil⟩
  order := ⟨[], rfl, .nil, fun _ _ => ⟨nofun, fun ⟨_, h⟩ => absurd h not_inserted_nil⟩⟩

theorem oneAtMost (h : Follows datum hist t)
    (heql : ∀ k ∈ t.keys, eql k key = true ↔ datum k = datum key) : t.OneAtMost eql key := by
  have hpairs := h.apart
  rw [Table.keys_eq, List.map_map, List.Nodup, List.pairwise_map] at hpairs
  refine hpairs.imp_of_mem fun hp hq hne heq => hne ?_
  exact ((heql _ (Table.mem_keys_of_mem hp)).mp heq.1).trans
    ((heql _ (Table.mem_keys_of_mem hq)).mp heq.2).symm

theorem get (h : Follows datum hist t) : Follows datum (hist ++ [(s, .get key)]) t where
  known k hk := (h.known k hk).imp fun _ ha => ⟨List.mem_append_left _ ha.1, ha.2⟩
  apart := h.apart
  present d := by simp [present_concat, h.present, TableStep.Removes]
  value d v := by simp [lastValue_concat, h.value, TableStep.Writes]
  order := by simpa [firstInsertion_concat, TableStep.Removes] using h.order

theorem remove (h : Follows datum hist t)
    (heql : ∀ k ∈ t.keys, eql k key = true ↔ datum k = datum key) :
    Follows datum (hist ++ [(s, .remove key)]) (t.erase eql key) := by
  have hpairs := Table.pairs_erase (h.oneAtMost heql)
  have hkeys : (t.erase eql key).keys = t.keys.filter fun k => !eql k key := by
    rw [Table.keys_eq, hpairs, Table.keys_eq, List.filter_map]
    rfl
  have hne (k) (hk : k ∈ t.keys) : (!eql k key) = true ↔ ¬datum key = datum k := by
    rw [Bool.not_eq_true', Bool.eq_false_iff, ne_eq, heql k hk, eq_comm]
  obtain ⟨marks, hmarks, hsorted, hfirst⟩ := h.order
  have hkey (m) (hm : m ∈ marks) : m.2 ∈ t.keys := hmarks ▸ List.mem_map_of_mem hm
  refine ⟨fun k hk => ?_, ?_, fun d => ?_, fun d v => ?_,
    marks.filter fun m => !eql m.2 key, ?_, ?_, fun i k => ?_⟩
  · rw [hkeys, List.mem_filter] at hk
    exact (h.known k hk.1).imp fun _ ha => ⟨List.mem_append_left _ ha.1, ha.2⟩
  · rw [hkeys]
    exact h.apart.sublist (List.filter_sublist.map _)
  · simp only [hkeys, List.mem_filter, present_concat, ← h.present, TableStep.Removes]
    constructor
    · rintro ⟨k, ⟨hk, hkne⟩, rfl⟩
      exact .inr ⟨⟨k, hk, rfl⟩, (hne k hk).mp hkne⟩
    · rintro (⟨k, v, hins, -⟩ | ⟨⟨k, hk, rfl⟩, hkne⟩)
      · cases hins
      · exact ⟨k, ⟨hk, (hne k hk).mpr hkne⟩, rfl⟩
  · simp only [hpairs, List.mem_filter, lastValue_concat, ← h.value, TableStep.Writes]
    constructor
    · rintro ⟨k, ⟨hk, hkne⟩, rfl⟩
      exact .inr ⟨⟨k, hk, rfl⟩, (hne k (Table.mem_keys_of_mem hk)).mp hkne⟩
    · rintro (⟨k, hins, -⟩ | ⟨⟨k, hk, rfl⟩, hkne⟩)
      · cases hins
      · exact ⟨k, ⟨hk, (hne k (Table.mem_keys_of_mem hk)).mpr hkne⟩, rfl⟩
  · rw [hkeys, ← hmarks, List.filter_map]
    rfl
  · exact hsorted.sublist (List.filter_sublist.map _)
  · simp only [List.mem_filter, firstInsertion_concat, ← hfirst, TableStep.Removes]
    constructor
    · rintro ⟨hm, hkne⟩
      exact .inr ⟨hm, (hne k (hkey _ hm)).mp hkne⟩
    · rintro (⟨v, hins, -⟩ | ⟨hm, hkne⟩)
      · cases hins
      · exact ⟨hm, (hne k (hkey _ hm)).mpr hkne⟩

/-- A key that is present keeps its place and its object, and gets the value. -/
theorem insert_present (h : Follows datum hist t)
    (heql : ∀ k ∈ t.keys, eql k key = true ↔ datum k = datum key)
    (hin : ∃ k ∈ t.keys, datum k = datum key) :
    Follows datum (hist ++ [(s, .insert key x)]) (t.insert eql key x) := by
  have hin' : ∃ a ∈ t.keys, eql a key = true := hin.imp fun k hk => ⟨hk.1, (heql k hk.1).mpr hk.2⟩
  have hpairs := Table.pairs_insert_of_eql (x := x) (h.oneAtMost heql) hin'
  have hkeys := Table.keys_insert_of_eql (x := x) hin'
  refine ⟨fun k hk => ?_, ?_, fun d => ?_, fun d v => ?_, ?_⟩
  · rw [hkeys] at hk
    exact (h.known k hk).imp fun _ ha => ⟨List.mem_append_left _ ha.1, ha.2⟩
  · rw [hkeys]
    exact h.apart
  · simp only [hkeys, present_concat, ← h.present]
    constructor
    · exact fun hd => .inr ⟨hd, id⟩
    · rintro (⟨k, v, hins, rfl⟩ | hd)
      · cases hins
        exact hin
      · exact hd.1
  · simp only [hpairs, List.mem_map, lastValue_concat, ← h.value]
    constructor
    · rintro ⟨k, ⟨p, hp, hpv⟩, rfl⟩
      have hpk := heql p.1 (Table.mem_keys_of_mem hp)
      split at hpv <;> cases hpv
      · exact .inl ⟨key, rfl, (hpk.mp ‹_›).symm⟩
      · exact .inr ⟨⟨_, hp, rfl⟩, fun hkey => ‹¬_› (hpk.mpr hkey.symm)⟩
    · rintro (⟨k, hins, rfl⟩ | ⟨⟨k, hk, rfl⟩, hkey⟩)
      · cases hins
        obtain ⟨k, hk, hkd⟩ := hin
        obtain ⟨w, hp⟩ := Table.mem_keys.mp hk
        exact ⟨k, ⟨(k, w), hp, if_pos ((heql _ hk).mpr hkd)⟩, hkd⟩
      · refine ⟨k, ⟨_, hk, if_neg fun hk' => hkey ?_⟩, rfl⟩
        exact ((heql k (Table.mem_keys_of_mem hk)).mp hk').symm
  · obtain ⟨marks, hmarks, hsorted, hfirst⟩ := h.order
    refine ⟨marks, hmarks.trans hkeys.symm, hsorted, fun i k => ?_⟩
    simp only [firstInsertion_concat, ← hfirst]
    constructor
    · exact fun hm => .inr ⟨hm, id⟩
    · rintro (⟨v, hins, -, hnot⟩ | hm)
      · cases hins
        exact absurd ((h.present _).mp hin) hnot
      · exact hm.1

/-- A key that is not present comes last. -/
theorem insert_absent (h : Follows datum hist t)
    (heql : ∀ k ∈ t.keys, eql k key = true ↔ datum k = datum key)
    (hnot : ∀ k ∈ t.keys, datum k ≠ datum key) :
    Follows datum (hist ++ [(s, .insert key x)]) (t.insert eql key x) := by
  have hnot' : ∀ a ∈ t.keys, eql a key = false := fun a ha =>
    Bool.eq_false_iff.mpr fun h => hnot a ha ((heql a ha).mp h)
  have hpairs := Table.pairs_insert_of_forall (x := x) hnot'
  have hkeys := Table.keys_insert_of_forall (x := x) hnot'
  refine ⟨fun k hk => ?_, ?_, fun d => ?_, fun d v => ?_, ?_⟩
  · rw [hkeys] at hk
    obtain hk | hk := List.mem_append.mp hk
    · exact (h.known k hk).imp fun _ ha => ⟨List.mem_append_left _ ha.1, ha.2⟩
    · exact ⟨_, List.mem_append_right _ List.mem_cons_self, (List.mem_singleton.mp hk).symm⟩
  · rw [hkeys, List.map_append, List.map_singleton, ← List.concat_eq_append]
    refine h.apart.concat fun hmem => ?_
    obtain ⟨k, hk, hkd⟩ := List.mem_map.mp hmem
    exact hnot k hk hkd
  · simp only [hkeys, List.mem_append, List.mem_singleton, present_concat, ← h.present]
    constructor
    · rintro ⟨k, hk | rfl, rfl⟩
      · exact .inr ⟨⟨k, hk, rfl⟩, id⟩
      · exact .inl ⟨k, x, rfl, rfl⟩
    · rintro (⟨k, v, hins, rfl⟩ | ⟨⟨k, hk, rfl⟩, -⟩)
      · cases hins
        exact ⟨key, .inr rfl, rfl⟩
      · exact ⟨k, .inl hk, rfl⟩
  · simp only [hpairs, List.mem_append, List.mem_singleton, lastValue_concat, ← h.value]
    constructor
    · rintro ⟨k, hk | hk, rfl⟩
      · exact .inr ⟨⟨k, hk, rfl⟩, fun hkey => hnot k (Table.mem_keys_of_mem hk) hkey.symm⟩
      · cases hk
        exact .inl ⟨key, rfl, rfl⟩
    · rintro (⟨k, hins, rfl⟩ | ⟨⟨k, hk, rfl⟩, -⟩)
      · cases hins
        exact ⟨key, .inr rfl, rfl⟩
      · exact ⟨k, .inl hk, rfl⟩
  · obtain ⟨marks, hmarks, hsorted, hfirst⟩ := h.order
    have habsent : ¬Present datum hist (datum key) := fun hp => by
      obtain ⟨k, hk, hkd⟩ := (h.present _).mpr hp
      exact hnot k hk hkd
    refine ⟨marks ++ [(hist.length, key)], ?_, ?_, fun i k => ?_⟩
    · rw [hkeys, ← hmarks, List.map_append, List.map_singleton]
    · rw [List.map_append, List.map_singleton, List.pairwise_append]
      refine ⟨hsorted, List.pairwise_singleton _ _, fun i hi j hj => ?_⟩
      obtain ⟨m, hm, rfl⟩ := List.mem_map.mp hi
      exact List.mem_singleton.mp hj ▸ ((hfirst _ _).mp hm).lt_length
    · simp only [List.mem_append, List.mem_singleton, firstInsertion_concat, ← hfirst]
      constructor
      · rintro (hm | hm)
        · exact .inr ⟨hm, id⟩
        · cases hm
          exact .inl ⟨x, rfl, rfl, habsent⟩
      · rintro (⟨v, hins, rfl, -⟩ | hm)
        · cases hins
          exact .inr rfl
        · exact .inl hm.1

theorem insert (h : Follows datum hist t)
    (heql : ∀ k ∈ t.keys, eql k key = true ↔ datum k = datum key) :
    Follows datum (hist ++ [(s, .insert key x)]) (t.insert eql key x) := by
  by_cases hin : ∃ k ∈ t.keys, datum k = datum key
  · exact h.insert_present heql hin
  · exact h.insert_absent heql fun k hk hkd => hin ⟨k, hk, hkd⟩

end Follows

/-- The key of each step stands for its datum when the step is made, in the store of every later
step and in `u`. -/
structure Unmutated (datum : Value → Datum) (hist : History) (u : Store) : Prop where
  now : ∀ a ∈ hist, a.1.Denotes a.2.key (datum a.2.key)
  later : hist.Pairwise fun a b => b.1.Denotes a.2.key (datum a.2.key)
  last : ∀ a ∈ hist, u.Denotes a.2.key (datum a.2.key)

variable {u : Store}

theorem Unmutated.init (h : Unmutated datum (hist ++ [a]) u) : Unmutated datum hist a.1 where
  now b hb := h.now b (List.mem_append_left _ hb)
  later := (List.pairwise_append.mp h.later).1
  last b hb := (List.pairwise_append.mp h.later).2.2 b hb a (List.mem_singleton_self a)

theorem Follows.denotes {t : Table} (hf : Follows datum hist t) (h : Unmutated datum hist u)
    {k : Value} (hk : k ∈ t.keys) : u.Denotes k (datum k) := by
  obtain ⟨b, hb, rfl⟩ := hf.known k hk
  exact h.last b hb

/-- Every table follows its history. -/
theorem Unmutated.follows (h : Unmutated datum hist u) : Follows datum hist hist.table.table := by
  induction hist using List.reverseRecOn generalizing u with
  | nil => exact .nil
  | append_singleton hist a ih =>
    have hf := ih h.init
    have hkey : a.1.Denotes a.2.key (datum a.2.key) := h.now a (by simp)
    have heql (k) (hk : k ∈ (table hist).table.keys) :
        a.1.keyEql k a.2.key = true ↔ datum k = datum a.2.key :=
      (hf.denotes h.init hk).keyEql_iff hkey
    have htable : table (hist ++ [a]) = a.2.apply a.1 (table hist) := by
      rw [table, List.foldl_append]
      rfl
    obtain ⟨s, step⟩ := a
    rw [htable]
    cases step with
    | insert k v =>
      have hlt : k.index < s.objects.size := hkey.index_lt
      simp only [TableStep.apply, HashEdit.apply, if_pos hlt]
      exact hf.insert heql
    | remove k => exact hf.remove heql
    | get k => exact hf.get

/-- A hash is a finite map in the order of insertion. However it was built, as many keys as values
are in it, and no two of its keys are equal. A key has the value that was inserted last under an
equal one and not removed since. The keys are those that were inserted when no equal one was there
and not removed since, in the order of these insertions; so that inserting a key again leaves them
as they are. -/
theorem table_of_history (h : Unmutated datum hist u) :
    hist.table.table.keys.length = hist.table.table.values.length ∧
    hist.table.table.keys.Pairwise (fun k l => u.keyEql k l = false) ∧
    (∀ k d v, u.Denotes k d →
      (hist.table.table.get? u.keyEql k = some v ↔ LastValue datum hist d v)) ∧
    (∃ marks : List (Nat × Value), marks.map Prod.snd = hist.table.table.keys ∧
      (marks.map Prod.fst).Pairwise (· < ·) ∧
      ∀ i k, (i, k) ∈ marks ↔ FirstInsertion datum hist i k) ∧
    ∀ k d v, u.Denotes k d → Present datum hist d →
      ((HashEdit.insert k v).apply u hist.table).table.keys = hist.table.table.keys := by
  have hf := h.follows
  have heql {k l d} (hk : k ∈ hist.table.table.keys) (hl : u.Denotes l d) :
      u.keyEql k l = true ↔ datum k = d := (hf.denotes h hk).keyEql_iff hl
  have hapart : u.Apart hist.table.table := by
    have hnodup := hf.apart
    rw [List.Nodup, List.pairwise_map] at hnodup
    refine hnodup.imp_of_mem fun hk hl hne => Bool.eq_false_iff.mpr fun h' => hne ?_
    exact (heql hk (hf.denotes h hl)).mp h'
  refine ⟨hist.table.table.aligned, hapart, fun k d v hk => ?_,
    hf.order, fun k d v hk hd => ?_⟩
  · rw [← hf.value]
    constructor
    · intro hget
      obtain ⟨l, hl, hlk⟩ := exists_of_get? hget
      exact ⟨l, hl, (heql (Table.mem_keys_of_mem hl) hk).mp hlk⟩
    · rintro ⟨l, hl, hld⟩
      have hlk := (heql (Table.mem_keys_of_mem hl) hk).mpr hld
      rw [← get?_congr _ hlk]
      exact hapart.get?_of_mem hl
  · obtain ⟨l, hl, hld⟩ := (hf.present d).mpr hd
    simp only [HashEdit.apply, if_pos hk.index_lt]
    exact Table.keys_insert_of_eql ⟨l, hl, (heql hl hk).mpr hld⟩

/-- Two equal texts, an array of each, and two integers. -/
def equalArrays : Store where
  config := {}
  objects := #[{ cls := ⟨0⟩, payload := .text "a" }, { cls := ⟨0⟩, payload := .text "a" },
    { cls := ⟨0⟩, payload := .array #[⟨0⟩] }, { cls := ⟨0⟩, payload := .array #[⟨1⟩] },
    { cls := ⟨0⟩, payload := .integer 1 }, { cls := ⟨0⟩, payload := .integer 2 }]
  scopes := #[]
  frames := []
  scopeStack := []

def equalArraysDatum (v : Value) : Datum :=
  if v.index < 2 then .text "a" else .list [.text "a"]

/-- An array and a text are inserted, the equal array after them, and the text is removed. -/
def reinserted : History :=
  [(equalArrays, .insert ⟨2⟩ ⟨4⟩), (equalArrays, .insert ⟨0⟩ ⟨4⟩),
    (equalArrays, .insert ⟨3⟩ ⟨5⟩), (equalArrays, .remove ⟨1⟩)]

/-- What is left is the first array, with the value that came with the second. -/
theorem table_of_history_reinserted :
    Unmutated equalArraysDatum reinserted equalArrays ∧
      reinserted.table.table.keys = [⟨2⟩] ∧
      reinserted.table.table.get? equalArrays.keyEql ⟨3⟩ = some ⟨5⟩ := by
  have hdenotes : ∀ i < 4, equalArrays.Denotes ⟨i⟩ (equalArraysDatum ⟨i⟩) := by
    intro i hi
    have htext : equalArrays.Denotes ⟨0⟩ (.text "a") ∧ equalArrays.Denotes ⟨1⟩ (.text "a") :=
      ⟨rfl, rfl⟩
    match i with
    | 0 | 1 => rfl
    | 2 => exact ⟨#[⟨0⟩], rfl, htext.1, trivial⟩
    | 3 => exact ⟨#[⟨1⟩], rfl, htext.2, trivial⟩
  have hkey : ∀ a ∈ reinserted, a.1 = equalArrays ∧ a.2.key.index < 4 := by
    simp [reinserted, TableStep.key]
  have hunmutated : Unmutated equalArraysDatum reinserted equalArrays :=
    ⟨fun a ha => (hkey a ha).1 ▸ hdenotes _ (hkey a ha).2,
      List.pairwise_of_forall_mem_list fun a ha b hb =>
        (hkey b hb).1 ▸ hdenotes _ (hkey a ha).2,
      fun a ha => hdenotes _ (hkey a ha).2⟩
  have hlast : LastValue equalArraysDatum reinserted (.list [.text "a"]) ⟨5⟩ :=
    ⟨⟨3⟩, rfl, [(equalArrays, .insert ⟨2⟩ ⟨4⟩), (equalArrays, .insert ⟨0⟩ ⟨4⟩)], equalArrays,
      [(equalArrays, .remove ⟨1⟩)], rfl, trivial, fun a ha => by
        cases List.mem_singleton.mp ha
        exact nofun⟩
  obtain ⟨-, -, hget, -⟩ := table_of_history hunmutated
  exact ⟨hunmutated, by decide +kernel, (hget ⟨3⟩ _ _ (hdenotes 3 (by decide))).mpr hlast⟩

end History

end Garnet
