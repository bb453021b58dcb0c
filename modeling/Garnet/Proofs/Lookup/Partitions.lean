import Garnet.Object.Method
import Mathlib.Data.List.Induction

/-!
# Method tables as one map

A method table keeps a map for each visibility. What is found under a name after an edit depends on
the edit and on what was found under that name before, as in one map from names to definitions with
their visibility. After a history of edits that begins with an empty table, a name has the
definition that it was bound to last, unless it has been removed since, and the visibility that it
was given last.
-/

namespace Garnet

namespace Partitions

variable {p q : Partitions} {name n : String} {m : MethodDef} {v w : Visibility}

/-! ## What is found after an edit -/

theorem lookup_eq :
    p.lookup name = (((p.get? .pub name).map (·, Visibility.pub)).or
      ((p.get? .prot name).map (·, .prot))).or ((p.get? .priv name).map (·, .priv)) := by
  simp only [lookup, List.findSome?]
  cases p.get? .pub name <;> cases p.get? .prot name <;> cases p.get? .priv name <;> rfl

theorem lookup_congr (h : ∀ v, p.get? v n = q.get? v n) : p.lookup n = q.lookup n := by
  simp only [lookup_eq, h]

/-- A lookup of a name that is found under one visibility only. -/
theorem lookup_of_single {d : Option MethodDef} (h : ∀ w, p.get? w n = if w = v then d else none) :
    p.lookup n = d.map (·, v) := by
  simp only [lookup_eq, h]
  cases d <;> cases v <;> rfl

theorem lookup_eq_none_iff : p.lookup n = none ↔ ∀ v, p.get? v n = none := by
  simp only [lookup_eq, Option.or_eq_none_iff, Option.map_eq_none_iff]
  exact ⟨fun h v => by cases v <;> tauto, fun h => ⟨⟨h _, h _⟩, h _⟩⟩

theorem get?_of_lookup (h : p.lookup n = some (m, v)) : p.get? v n = some m := by
  obtain ⟨w, -, hw⟩ := List.exists_of_findSome?_eq_some h
  obtain ⟨d, hd, heq⟩ := Option.map_eq_some_iff.mp hw
  cases heq
  exact hd

/-- Where every name has one visibility at most, a lookup finds what is in the maps. -/
theorem Apart.lookup_eq_some_iff (h : p.Apart) :
    p.lookup n = some (m, v) ↔ p.get? v n = some m := by
  refine ⟨get?_of_lookup, fun hm => ?_⟩
  have hv : (p.get? v n).isSome := hm ▸ rfl
  rw [lookup_of_single (v := v) (d := some m) fun w => ?_]
  · rfl
  · split
    · rename_i hw
      rw [hw, hm]
    · rename_i hw
      exact Option.not_isSome_iff_eq_none.mp fun hsome => hw (h n w v hsome hv)

theorem lookup_empty : ({} : Partitions).lookup n = none :=
  lookup_eq_none_iff.mpr fun _ => get?_empty

theorem remove_fst : (p.remove n).1 = (p.lookup n).map (·.1) := by
  simp only [remove, lookup_eq, Option.map_or, Option.map_map]
  simp only [Function.comp_def, Option.map_id']

theorem lookup_insert :
    (p.insert name m v).lookup n = if n = name then some (m, v) else p.lookup n := by
  by_cases hn : n = name
  · rw [if_pos hn]
    exact lookup_of_single (d := some m) fun w => by rw [get?_insert, if_pos hn]
  · rw [if_neg hn]
    exact lookup_congr fun w => by rw [get?_insert, if_neg hn]

theorem lookup_remove : (p.remove name).2.lookup n = if n = name then none else p.lookup n := by
  by_cases hn : n = name
  · rw [if_pos hn]
    exact lookup_eq_none_iff.mpr fun w => by rw [get?_remove, if_pos hn]
  · rw [if_neg hn]
    exact lookup_congr fun w => by rw [get?_remove, if_neg hn]

theorem lookup_setVisibility :
    (p.setVisibility name v).2.lookup n =
      if n = name then (p.lookup name).map fun e => (e.1, v) else p.lookup n := by
  by_cases hn : n = name
  · rw [if_pos hn, lookup_of_single fun w => by rw [get?_setVisibility, if_pos hn], remove_fst,
      Option.map_map]
    rfl
  · rw [if_neg hn]
    exact lookup_congr fun w => by rw [get?_setVisibility, if_neg hn]

theorem setVisibility_fst : (p.setVisibility name v).1 = (p.lookup name).isSome := by
  have hfound : (p.remove name).1 = _ := remove_fst
  rw [← Option.isSome_map (f := Prod.fst), ← hfound, setVisibility]
  obtain ⟨_ | m, rest⟩ := p.remove name <;> rfl

/-- To move a name that is not there changes no map. -/
theorem setVisibility_equiv (h : p.lookup name = none) (v w : Visibility) :
    ((p.setVisibility name v).2.part w).Equiv (p.part w) := by
  refine Std.TreeMap.Equiv.of_forall_constGet?_eq fun n => ?_
  change (p.setVisibility name v).2.get? w n = p.get? w n
  rw [get?_setVisibility, remove_fst, h, Option.map_none, ite_self]
  split
  · rename_i hn
    rw [hn, lookup_eq_none_iff.mp h]
  · rfl

theorem mem_names : name ∈ p.names v ↔ (p.get? v name).isSome := by
  rw [names, Std.TreeMap.mem_keys, Std.TreeMap.mem_iff_isSome_getElem?, get?]

end Partitions

/-! ## Histories of edits -/

namespace Partitions

/-- What is done with a table of methods. -/
inductive Edit where
  | insert (name : String) (m : MethodDef) (v : Visibility)
  | remove (name : String)
  | setVisibility (name : String) (v : Visibility)

namespace Edit

def name : Edit → String
  | insert n _ _ | remove n | setVisibility n _ => n

def apply (p : Partitions) : Edit → Partitions
  | insert n m v => p.insert n m v
  | remove n => (p.remove n).2
  | setVisibility n v => (p.setVisibility n v).2

/-- The edit binds the name to a definition. -/
def Defines (n : String) (m : MethodDef) : Edit → Prop
  | insert n' m' _ => n' = n ∧ m' = m
  | remove _ | setVisibility .. => False

/-- The edit binds the name, or removes it. -/
def Rebinds (n : String) : Edit → Prop
  | insert n' .. | remove n' => n' = n
  | setVisibility .. => False

/-- The edit gives a visibility to the name. -/
def Shows (n : String) (v : Visibility) : Edit → Prop
  | insert n' _ v' | setVisibility n' v' => n' = n ∧ v' = v
  | remove _ => False

variable {p : Partitions} {n : String} {m : MethodDef} {v : Visibility}

theorem get?_apply (e : Edit) (h : n ≠ e.name) : (e.apply p).get? v n = p.get? v n := by
  cases e with
  | insert => exact get?_insert.trans (if_neg h)
  | remove => exact get?_remove.trans (if_neg h)
  | setVisibility => exact get?_setVisibility.trans (if_neg h)

theorem not_of_ne {e : Edit} (h : n ≠ e.name) :
    (∀ m, ¬e.Defines n m) ∧ ¬e.Rebinds n ∧ ∀ v, ¬e.Shows n v := by
  cases e <;> simp only [Defines, Rebinds, Shows, name] at h ⊢ <;> tauto

theorem apart_apply (e : Edit) (h : p.Apart) : (e.apply p).Apart := by
  cases e with
  | insert => exact h.insert
  | remove => exact h.remove
  | setVisibility => exact h.setVisibility

end Edit

/-- The table that a history of edits makes of an empty one. -/
def after (hist : List Edit) : Partitions := hist.foldl Edit.apply {}

/-- There is an edit that satisfies `P`, and none of those after it satisfies `S`. -/
def Last (hist : List Edit) (P S : Edit → Prop) : Prop :=
  ∃ before e later, hist = before ++ e :: later ∧ P e ∧ ∀ a ∈ later, ¬S a

/-- The name was bound to the definition, and was neither bound nor removed since. -/
def LastDefinition (hist : List Edit) (n : String) (m : MethodDef) : Prop :=
  Last hist (·.Defines n m) (·.Rebinds n)

/-- The name was given the visibility, and was given none since. Where the name is bound, it has been
bound with the visibility or before it was given: to bind a name gives it one, too. -/
def LastVisibility (hist : List Edit) (n : String) (v : Visibility) : Prop :=
  Last hist (·.Shows n v) fun e => ∃ w, e.Shows n w

variable {hist : List Edit} {e : Edit} {P S : Edit → Prop}
variable {n : String} {m : MethodDef} {v : Visibility}

theorem last_concat : Last (hist ++ [e]) P S ↔ P e ∨ (Last hist P S ∧ ¬S e) := by
  constructor
  · rintro ⟨before, a, later, heq, hP, hS⟩
    obtain rfl | ⟨later, b, rfl⟩ := later.eq_nil_or_concat
    · obtain ⟨rfl, hlast⟩ := List.append_inj' heq rfl
      cases hlast
      exact .inl hP
    · rw [List.concat_eq_append, ← List.cons_append, ← List.append_assoc] at heq
      obtain ⟨rfl, hlast⟩ := List.append_inj' heq rfl
      cases hlast
      exact .inr ⟨⟨before, a, later, rfl, hP, fun b hb => hS b (by simp [hb])⟩, hS _ (by simp)⟩
  · rintro (hP | ⟨⟨before, a, later, rfl, hP, hS⟩, he⟩)
    · exact ⟨hist, e, [], rfl, hP, fun _ ha => absurd ha List.not_mem_nil⟩
    · refine ⟨before, a, later ++ [e], by simp, hP, fun b hb => ?_⟩
      obtain hb | hb := List.mem_append.mp hb
      · exact hS b hb
      · exact List.mem_singleton.mp hb ▸ he

theorem not_last_nil : ¬Last [] P S := by
  rintro ⟨before, e, later, h, -⟩
  simp at h

theorem lastDefinition_concat :
    LastDefinition (hist ++ [e]) n m ↔ e.Defines n m ∨ (LastDefinition hist n m ∧ ¬e.Rebinds n) :=
  last_concat

theorem lastVisibility_concat :
    LastVisibility (hist ++ [e]) n v ↔
      e.Shows n v ∨ (LastVisibility hist n v ∧ ∀ w, ¬e.Shows n w) := by
  rw [LastVisibility, last_concat, not_exists]
  rfl

theorem after_concat : after (hist ++ [e]) = e.apply (after hist) := by
  rw [after, List.foldl_append]
  rfl

theorem apart_after (hist : List Edit) : (after hist).Apart := by
  induction hist using List.reverseRecOn with
  | nil => exact apart_empty
  | append_singleton hist e ih => exact after_concat ▸ e.apart_apply ih

/-- To bind a name is to give it a visibility. -/
theorem LastDefinition.exists_lastVisibility (h : LastDefinition hist n m) :
    ∃ v, LastVisibility hist n v := by
  induction hist using List.reverseRecOn with
  | nil => exact absurd h not_last_nil
  | append_singleton hist e ih =>
    simp only [lastVisibility_concat]
    by_cases he : ∃ v, e.Shows n v
    · exact he.imp fun _ => .inl
    · obtain hdef | ⟨hlast, -⟩ := lastDefinition_concat.mp h
      · cases e with
        | insert n' m' v => exact absurd ⟨v, hdef.1, rfl⟩ he
        | remove | setVisibility => cases hdef
      · exact (ih hlast).imp fun _ hv => .inr ⟨hv, not_exists.mp he⟩

/-- A name has the definition that it was bound to last and the visibility that it was given
last. -/
theorem lookup_after :
    (after hist).lookup n = some (m, v) ↔ LastDefinition hist n m ∧ LastVisibility hist n v := by
  induction hist using List.reverseRecOn generalizing m v with
  | nil =>
    rw [after, List.foldl_nil, lookup_empty]
    exact ⟨nofun, fun h => absurd h.1 not_last_nil⟩
  | append_singleton hist e ih =>
    rw [after_concat, lastDefinition_concat, lastVisibility_concat]
    by_cases hn : n = e.name
    · cases e with
      | insert n' m' v' =>
        obtain rfl : n = n' := hn
        simp [Edit.apply, lookup_insert, Edit.Defines, Edit.Rebinds, Edit.Shows]
      | remove n' =>
        obtain rfl : n = n' := hn
        simp [Edit.apply, lookup_remove, Edit.Defines, Edit.Rebinds]
      | setVisibility n' v' =>
        obtain rfl : n = n' := hn
        have hbound : LastDefinition hist n m ↔ ∃ w, (after hist).lookup n = some (m, w) := by
          simp only [ih, exists_and_left]
          exact (and_iff_left_of_imp LastDefinition.exists_lastVisibility).symm
        simp [Edit.apply, lookup_setVisibility, Edit.Defines, Edit.Rebinds, Edit.Shows, hbound]
    · obtain ⟨hdef, hbind, hshow⟩ := Edit.not_of_ne hn
      rw [lookup_congr fun w => e.get?_apply hn, ih]
      simp only [hdef, hbind, hshow, false_or, implies_true, not_false_eq_true, and_true]

/-- Three maps are edited as one map from names to definitions with a visibility. Whatever has been
done with a table that was empty, a name has one visibility at most. A lookup finds the definition
that the name was bound to last, unless it was removed since, with the visibility that it was given
last, and finds it in the map of that visibility. To give a visibility to a name that is not there
is answered with false and changes nothing, and no edit of one name concerns another. -/
theorem one_map_of_edits (hist : List Edit) :
    (after hist).Apart ∧
    (∀ n m v, (after hist).lookup n = some (m, v) ↔
      LastDefinition hist n m ∧ LastVisibility hist n v) ∧
    (∀ n m v, (after hist).get? v n = some m ↔ (after hist).lookup n = some (m, v)) ∧
    (∀ n v, ((after hist).setVisibility n v).1 = false ↔ (after hist).lookup n = none) ∧
    (∀ n v, (after hist).lookup n = none →
      ∀ w, (((after hist).setVisibility n v).2.part w).Equiv ((after hist).part w)) ∧
    ∀ (e : Edit) n, n ≠ e.name →
      (e.apply (after hist)).lookup n = (after hist).lookup n ∧
      ∀ v, (e.apply (after hist)).get? v n = (after hist).get? v n := by
  refine ⟨apart_after hist, fun n m v => lookup_after,
    fun n m v => (apart_after hist).lookup_eq_some_iff.symm, fun n v => ?_,
    fun n v h w => setVisibility_equiv h v w, fun e n h => ⟨?_, fun v => e.get?_apply h⟩⟩
  · rw [setVisibility_fst, Option.isSome_eq_false_iff, Option.isNone_iff_eq_none]
  · exact lookup_congr fun v => e.get?_apply h

/-- A method is made private and another one removed, after each has been bound twice. -/
def hidden : List Edit :=
  [.insert "open" ⟨"open", .answer "a", true⟩ .pub, .insert "close" ⟨"close", .answer "b", true⟩ .prot,
    .insert "open" ⟨"open", .answer "c", true⟩ .prot, .setVisibility "open" .priv,
    .insert "close" ⟨"close", .answer "d", true⟩ .pub, .remove "close"]

/-- What is left is the second definition, which is private. -/
theorem one_map_of_edits_hidden :
    (after hidden).lookup "open" = some (⟨"open", .answer "c", true⟩, .priv) ∧
    (after hidden).get? .prot "open" = none ∧
    (after hidden).lookup "close" = none ∧
    (∀ w, (((after hidden).setVisibility "close" .pub).2.part w).Equiv ((after hidden).part w)) ∧
    ((Edit.remove "open").apply (after hidden)).lookup "close" = none := by
  obtain ⟨hapart, hlookup, hpart, -, habsent, hother⟩ := one_map_of_edits hidden
  have hopen : (after hidden).lookup "open" = some (⟨"open", .answer "c", true⟩, .priv) := by
    refine (hlookup _ _ _).mpr ⟨⟨hidden.take 2, _, hidden.drop 3, rfl, ⟨rfl, rfl⟩, ?_⟩,
      ⟨hidden.take 3, _, hidden.drop 4, rfl, ⟨rfl, rfl⟩, ?_⟩⟩ <;>
      simp [hidden, Edit.Rebinds, Edit.Shows]
  have hclose : (after hidden).lookup "close" = none := lookup_remove.trans (if_pos rfl)
  have hpriv : ((after hidden).get? .priv "open").isSome := (hpart _ _ _).mpr hopen ▸ rfl
  refine ⟨hopen, ?_, hclose, habsent _ _ hclose, ?_⟩
  · exact Option.not_isSome_iff_eq_none.mp fun hprot => nomatch hapart _ _ _ hprot hpriv
  · rw [(hother (.remove "open") "close" (by decide)).1, hclose]

end Partitions

namespace MethodTable

variable (t : MethodTable) (name n : String) (m : MethodDef) (v : Visibility)

theorem lookup_empty : ({} : MethodTable).lookup name = none := Partitions.lookup_empty

theorem lookup_insert :
    (t.insert name m v).lookup n = if n = name then some (m, v) else t.lookup n :=
  Partitions.lookup_insert

theorem lookup_erase : (t.erase name).lookup n = if n = name then none else t.lookup n :=
  Partitions.lookup_remove

theorem lookup_setVisibility :
    (t.setVisibility name v).lookup n =
      if n = name then (t.lookup name).map fun e => (e.1, v) else t.lookup n :=
  Partitions.lookup_setVisibility

end MethodTable

end Garnet
