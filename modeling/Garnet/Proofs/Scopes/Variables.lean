import Garnet.Proofs.Bodies.Moves
import Garnet.Proofs.Hierarchy.Order
import Garnet.Proofs.Lookup.Reach

/-!
# Variables along the scopes that are visible

From a scope one sees outward through blocks, up to the first scope that is no block. A variable
belongs to the nearest scope on that path that holds it. An assignment goes to that scope, or to the
scope at hand when there is none, and is noticed by exactly the scopes from which one comes to it
before another scope that holds the variable.
-/

namespace Garnet.Scopes

open Store (addNew mem_foldl_addNew nodup_foldl_addNew findSome?_congr)

/-- A scope comes after the scope around it, so that no scope is around itself. -/
def Nested (ss : Scopes) : Prop :=
  ∀ id p : ScopeId, (ss.scope id).parent = some p → p.index < id.index

/-- The scopes from `id` outward through blocks, up to the first that is no block. -/
inductive Path (ss : Scopes) : ScopeId → List ScopeId → Prop
  | boundary {id : ScopeId} : (ss.scope id).kind ≠ .block → Path ss id [id]
  | outermost {id : ScopeId} : (ss.scope id).kind = .block → (ss.scope id).parent = none →
      Path ss id [id]
  | block {id p : ScopeId} {path : List ScopeId} : (ss.scope id).kind = .block →
      (ss.scope id).parent = some p → Path ss p path → Path ss id (id :: path)

def Holds (ss : Scopes) (id : ScopeId) (name : String) : Prop :=
  ∃ v, (ss.scope id).vars.get? name = some v

/-- From `id` one comes to the scope `target` before any other that holds the variable. -/
def Reaches (ss : Scopes) (id : ScopeId) (name : String) (target : ScopeId) : Prop :=
  ∃ inner outer, ss.Path id (inner ++ target :: outer) ∧ ∀ i ∈ inner, ¬ss.Holds i name

/-- The nearest scope that holds the variable, seen from `id`. -/
def Nearest (ss : Scopes) (id : ScopeId) (name : String) (holder : ScopeId) : Prop :=
  ss.Reaches id name holder ∧ ss.Holds holder name

/-- What can happen to the scopes and their variables. -/
inductive Edit where
  | new (kind : ScopeKind) (parent : Option ScopeId)
  | set (id : ScopeId) (name : String) (v : Value)
  | declare (id : ScopeId) (name : String) (v : Value)

namespace Edit

/-- An edit names scopes that are there. -/
def Applies (ss : Scopes) : Edit → Prop
  | new _ parent => ∀ p ∈ parent, p.index < ss.size
  | set id _ _ | declare id _ _ => id.index < ss.size

def apply (ss : Scopes) : Edit → Scopes
  | new kind parent => (ss.push kind parent).2
  | set id name v => ss.set id name v
  | declare id name v => ss.declare id name v

end Edit

/-- One edit leads from `ss` to `tt`. -/
def Step (ss tt : Scopes) : Prop := ∃ e : Edit, e.Applies ss ∧ tt = e.apply ss

variable {ss tt : Scopes} {id i p target : ScopeId} {path : List ScopeId} {name : String}
  {v w : Value}

/-! ## Paths -/

theorem Path.unique {path' : List ScopeId} (h : ss.Path id path) (h' : ss.Path id path') :
    path' = path := by
  induction h generalizing path' with
  | boundary hkind =>
    cases h' with
    | boundary => rfl
    | outermost hblock | block hblock => exact absurd hblock hkind
  | outermost hblock hnone =>
    cases h' with
    | boundary hkind => exact absurd hblock hkind
    | outermost => rfl
    | block _ hsome => cases hnone.symm.trans hsome
  | block hblock hsome _ ih =>
    cases h' with
    | boundary hkind => exact absurd hblock hkind
    | outermost _ hnone => cases hnone.symm.trans hsome
    | block _ hsome' hpath =>
      cases hsome.symm.trans hsome'
      rw [ih hpath]

/-- There is a path from every scope, and it is no longer than the scopes up to it. -/
theorem Nested.exists_path (h : ss.Nested) (id : ScopeId) :
    ∃ path, ss.Path id path ∧ path.length ≤ id.index + 1 := by
  obtain ⟨n⟩ := id
  induction n using Nat.strongRecOn with
  | ind n ih =>
    by_cases hkind : (ss.scope ⟨n⟩).kind = .block
    · cases hparent : (ss.scope ⟨n⟩).parent with
      | none => exact ⟨_, .outermost hkind hparent, Nat.le_add_left ..⟩
      | some p =>
        have hp : p.index < n := h _ _ hparent
        obtain ⟨path, hpath, hlength⟩ := ih p.index hp
        exact ⟨_, .block hkind hparent hpath, Nat.succ_le_succ (Nat.le_trans hlength hp)⟩
    · exact ⟨_, .boundary hkind, Nat.le_add_left ..⟩

/-- A path leads outward, to scopes that came before. -/
theorem Path.index_le (hss : ss.Nested) (h : ss.Path id path) : ∀ i ∈ path, i.index ≤ id.index := by
  induction h with
  | boundary | outermost => simp
  | block _ hparent _ ih =>
    refine List.forall_mem_cons.mpr ⟨Nat.le_refl _, fun i hi => ?_⟩
    exact Nat.le_of_lt (Nat.lt_of_le_of_lt (ih i hi) (hss _ _ hparent))

theorem Path.visible (h : ss.Path id path) {n : Nat} (hn : path.length ≤ n) :
    ss.visible n id = path := by
  induction h generalizing n with
  | boundary hkind =>
    obtain ⟨n, rfl⟩ := Nat.exists_eq_add_of_le' hn
    simp [Scopes.visible, hkind]
  | outermost hblock hnone =>
    obtain ⟨n, rfl⟩ := Nat.exists_eq_add_of_le' hn
    simp [Scopes.visible, hblock, hnone]
  | block hblock hsome _ ih =>
    rw [List.length_cons] at hn
    obtain ⟨n, rfl⟩ := Nat.exists_eq_add_of_le' (Nat.le_of_add_left_le hn)
    simp [Scopes.visible, hblock, hsome, ih (Nat.le_of_add_le_add_right hn)]

theorem contains_iff : (ss.scope id).vars.contains name ↔ ss.Holds id name :=
  Option.isSome_iff_exists

/-- The search for a holder goes along the path. -/
theorem Path.holderOf? (h : ss.Path id path) {n : Nat} (hn : path.length ≤ n) :
    ss.holderOf? name n id = path.find? fun i => (ss.scope i).vars.contains name := by
  induction h generalizing n with
  | @boundary i hkind =>
    obtain ⟨n, rfl⟩ := Nat.exists_eq_add_of_le' hn
    cases hc : (ss.scope i).vars.contains name <;> simp [Scopes.holderOf?, hc, hkind]
  | @outermost i hblock hnone =>
    obtain ⟨n, rfl⟩ := Nat.exists_eq_add_of_le' hn
    cases hc : (ss.scope i).vars.contains name <;> simp [Scopes.holderOf?, hc, hblock, hnone]
  | @block i p path hblock hsome _ ih =>
    rw [List.length_cons] at hn
    obtain ⟨n, rfl⟩ := Nat.exists_eq_add_of_le' (Nat.le_of_add_left_le hn)
    cases hc : (ss.scope i).vars.contains name <;>
      simp [Scopes.holderOf?, hc, hblock, hsome, ih (Nat.le_of_add_le_add_right hn)]

/-! ## What is read -/

/-- The path from a scope that is there is not too long for a search. -/
theorem Nested.exists_short_path (h : ss.Nested) (hid : id.index < ss.size) :
    ∃ path, ss.Path id path ∧ path.length ≤ ss.size + 1 := by
  obtain ⟨path, hpath, hlength⟩ := h.exists_path id
  exact ⟨path, hpath, by omega⟩

theorem nearest_iff (h : ss.Path id path) :
    ss.Nearest id name i ↔ path.find? (fun i => (ss.scope i).vars.contains name) = some i := by
  rw [List.find?_eq_some_iff_append, contains_iff, and_comm]
  simp only [Bool.not_eq_true', ← Bool.not_eq_true, contains_iff]
  constructor
  · rintro ⟨⟨inner, outer, hpath, hinner⟩, hholds⟩
    exact ⟨⟨inner, outer, h.unique hpath ▸ rfl, hinner⟩, hholds⟩
  · rintro ⟨⟨inner, outer, rfl, hinner⟩, hholds⟩
    exact ⟨⟨inner, outer, h, hinner⟩, hholds⟩

theorem holder?_eq_some_iff (hss : ss.Nested) (hid : id.index < ss.size) :
    ss.holder? id name = some i ↔ ss.Nearest id name i := by
  obtain ⟨path, hpath, hlength⟩ := hss.exists_short_path hid
  rw [holder?, hpath.holderOf? hlength, nearest_iff hpath]

theorem get?_eq_findSome? (hpath : ss.Path id path) (hlength : path.length ≤ ss.size + 1) :
    ss.get? id name = path.findSome? fun i => (ss.scope i).vars.get? name := by
  rw [get?, holder?, hpath.holderOf? hlength]
  clear hpath hlength
  induction path with
  | nil => rfl
  | cons i path ih =>
    rw [List.find?_cons, List.findSome?_cons, Dict.contains]
    cases hi : (ss.scope i).vars.get? name with
    | none => exact ih
    | some v => exact hi

theorem get?_eq_some_iff (hss : ss.Nested) (hid : id.index < ss.size) :
    ss.get? id name = some v ↔
      ∃ i, ss.Nearest id name i ∧ (ss.scope i).vars.get? name = some v := by
  simp only [get?, Option.bind_eq_some_iff, holder?_eq_some_iff hss hid]

theorem localNames_eq (hpath : ss.Path id path) (hlength : path.length ≤ ss.size + 1) :
    ss.localNames id =
      ((path.flatMap fun i => (ss.scope i).vars.keys).foldl addNew #[]).toList := by
  rw [localNames, hpath.visible hlength]
  rfl

/-- To go through a list and keep what is new is to keep each element where it comes first. -/
theorem foldl_addNew_eq (names : List String) (seen : Array String) :
    (names.foldl addNew seen).toList =
      seen.toList ++ (names.filter fun n => !seen.contains n).eraseDups := by
  induction names generalizing seen with
  | nil => simp
  | cons n names ih =>
    rw [List.foldl_cons, ih, addNew, List.filter_cons]
    cases hn : seen.contains n with
    | true => simp
    | false =>
      have hfilter : (names.filter fun m => !(seen.push n).contains m) =
          (names.filter fun m => !seen.contains m).filter fun m => !m == n := by
        rw [List.filter_filter]
        refine List.filter_congr fun m _ => ?_
        rw [Array.contains_push, Bool.not_or, Bool.and_comm]
      simp only [Bool.false_eq_true, if_false, Bool.not_false, if_true]
      rw [hfilter, Array.toList_push, List.eraseDups_cons, List.append_assoc]
      rfl

/-! ## What is written -/

theorem scope_declare (hid : id.index < ss.size) :
    (ss.declare id name v).scope i =
      if i = id then { ss.scope id with vars := (ss.scope id).vars.insert name v }
      else ss.scope i := by
  simp only [declare, scope_modifyScope, hid, and_true]

theorem vars_declare (hid : id.index < ss.size) {n : String} :
    ((ss.declare id name v).scope i).vars.get? n =
      if i = id ∧ n = name then some v else (ss.scope i).vars.get? n := by
  rw [scope_declare hid]
  by_cases hi : i = id
  · subst hi
    simp
  · simp [hi]

theorem kind_declare : ((ss.declare id name v).scope i).kind = (ss.scope i).kind := by
  rw [declare, scope_modifyScope]
  split
  case isTrue h => rw [h.1]
  case isFalse => rfl

theorem parent_declare : ((ss.declare id name v).scope i).parent = (ss.scope i).parent := by
  rw [declare, scope_modifyScope]
  split
  case isTrue h => rw [h.1]
  case isFalse => rfl

theorem size_declare : (ss.declare id name v).size = ss.size := Array.size_modify

theorem path_declare (h : ss.Path i path) : (ss.declare id name v).Path i path := by
  induction h with
  | boundary hkind => exact .boundary (by rwa [kind_declare])
  | outermost hblock hnone =>
    exact .outermost (by rwa [kind_declare]) (by rwa [parent_declare])
  | block hblock hsome _ ih => exact .block (by rwa [kind_declare]) (by rwa [parent_declare]) ih

theorem Nested.declare (h : ss.Nested) : (ss.declare id name v).Nested := by
  intro i p hp
  rw [parent_declare] at hp
  exact h i p hp

theorem scope_push {kind : ScopeKind} {parent : Option ScopeId} :
    (ss.push kind parent).2.scope i =
      if i.index = ss.size then { kind, parent } else ss.scope i := by
  simp only [scope, push, Array.getD_eq_getD_getElem?, Array.getElem?_push]
  split <;> rfl

theorem Nested.push (h : ss.Nested) {kind : ScopeKind} {parent : Option ScopeId}
    (hparent : ∀ p ∈ parent, p.index < ss.size) : (ss.push kind parent).2.Nested := by
  intro i p hp
  rw [scope_push] at hp
  split at hp
  case isTrue hi => exact hi ▸ hparent p hp
  case isFalse => exact h i p hp

/-- Every edit keeps the scopes nested. -/
theorem Step.nested (h : Step ss tt) (hss : ss.Nested) : tt.Nested := by
  obtain ⟨e, happlies, rfl⟩ := h
  cases e with
  | new => exact hss.push happlies
  | set | declare => exact hss.declare

theorem nested_of_steps (hss : ss.Nested) (h : Relation.ReflTransGen Step ss tt) : tt.Nested := by
  induction h with
  | refl => exact hss
  | tail _ hstep ih => exact hstep.nested ih

/-- After a variable was written to one scope. -/
theorem get?_declare (hss : ss.Nested) (hid : id.index < ss.size) (hi : i.index < ss.size)
    (name n : String) (v : Value) :
    ∃ path, ss.Path i path ∧ (ss.get? i n = path.findSome? fun j => (ss.scope j).vars.get? n) ∧
      (ss.declare id name v).get? i n =
        path.findSome? fun j => if j = id ∧ n = name then some v else (ss.scope j).vars.get? n := by
  obtain ⟨path, hpath, hlength⟩ := hss.exists_short_path hi
  refine ⟨path, hpath, get?_eq_findSome? hpath hlength, ?_⟩
  rw [get?_eq_findSome? (path_declare hpath) (by rwa [size_declare])]
  simp only [vars_declare hid]

/-- The value is found where one comes to that scope before another holder of the variable. -/
theorem get?_declare_of_reaches (hss : ss.Nested) (hid : id.index < ss.size)
    (hi : i.index < ss.size) (h : ss.Reaches i name id) :
    (ss.declare id name v).get? i name = some v := by
  obtain ⟨inner, outer, hreach, hinner⟩ := h
  obtain ⟨path, hpath, -, hget⟩ := get?_declare hss hid hi name name v
  cases hreach.unique hpath
  rw [hget, List.findSome?_append, List.findSome?_cons, if_pos ⟨rfl, rfl⟩]
  cases hw : inner.findSome? fun j => if j = id ∧ name = name then some v
      else (ss.scope j).vars.get? name with
  | none => rfl
  | some w =>
    obtain ⟨j, hj, hw⟩ := List.exists_of_findSome?_eq_some hw
    split at hw
    case isTrue => exact hw.symm
    case isFalse => exact absurd ⟨w, hw⟩ (hinner j hj)

/-- Nothing else changes. -/
theorem get?_declare_of_not_reaches (hss : ss.Nested) (hid : id.index < ss.size)
    (hi : i.index < ss.size) {n : String} (h : ¬(n = name ∧ ss.Reaches i name id)) :
    (ss.declare id name v).get? i n = ss.get? i n := by
  obtain ⟨path, hpath, hbefore, hafter⟩ := get?_declare hss hid hi name n v
  rw [hbefore, hafter]
  by_cases hn : n = name
  · subst hn
    by_cases hmem : id ∈ path
    · obtain ⟨inner, outer, rfl, hfirst⟩ := List.eq_append_cons_of_mem hmem
      -- some scope on the way holds the variable, and hides the scope that was written to
      obtain ⟨j, hj, w, hw⟩ : ∃ j ∈ inner, ss.Holds j n := by
        by_contra hnone
        exact h ⟨rfl, inner, outer, hpath, fun j hj hholds => hnone ⟨j, hj, hholds⟩⟩
      have hsame : (inner.findSome? fun j => if j = id ∧ n = n then some v
          else (ss.scope j).vars.get? n) = inner.findSome? fun j => (ss.scope j).vars.get? n :=
        findSome?_congr fun j hj => if_neg fun heq : j = id ∧ _ => hfirst (heq.1 ▸ hj)
      have hsome : (inner.findSome? fun j => (ss.scope j).vars.get? n).isSome :=
        List.findSome?_isSome_iff.mpr ⟨j, hj, by rw [hw]; rfl⟩
      obtain ⟨u, hu⟩ := Option.isSome_iff_exists.mp hsome
      rw [List.findSome?_append, List.findSome?_append, hsame, hu]
      rfl
    · exact findSome?_congr fun j hj => if_neg fun heq : j = id ∧ _ => hmem (heq.1 ▸ hj)
  · exact findSome?_congr fun j _ => if_neg fun heq : j = id ∧ _ => hn heq.2

/-- Where an assignment goes: to the nearest holder, or here when there is none. -/
theorem exists_set_eq (hss : ss.Nested) (hid : id.index < ss.size) (name : String) (v : Value) :
    ∃ target, (ss.Nearest id name target ∨ (∀ i, ¬ss.Nearest id name i) ∧ target = id) ∧
      target.index < ss.size ∧ ss.set id name v = ss.declare target name v := by
  cases hholder : ss.holder? id name with
  | none =>
    refine ⟨id, .inr ⟨fun i hi => ?_, rfl⟩, hid, by rw [Scopes.set, hholder]; rfl⟩
    cases hholder.symm.trans ((holder?_eq_some_iff hss hid).mpr hi)
  | some holder =>
    have hnearest := (holder?_eq_some_iff hss hid).mp hholder
    refine ⟨holder, .inl hnearest, ?_, by rw [Scopes.set, hholder]; rfl⟩
    obtain ⟨⟨inner, outer, hpath, -⟩, -⟩ := hnearest
    have := hpath.index_le hss holder (List.mem_append_right _ List.mem_cons_self)
    omega

/-! ## What is listed -/

/-- The names along the path, each where it comes first. -/
theorem localNames_eq_eraseDups (hpath : ss.Path id path) (hlength : path.length ≤ ss.size + 1) :
    ss.localNames id = (path.flatMap fun i => (ss.scope i).vars.keys).eraseDups := by
  rw [localNames_eq hpath hlength, foldl_addNew_eq]
  simp

theorem nodup_localNames : (ss.localNames id).Nodup :=
  nodup_foldl_addNew _ _ List.nodup_nil

/-- A name is defined when some scope on the path has it. -/
theorem isDefined_iff (hss : ss.Nested) (hid : id.index < ss.size) :
    ss.isDefined id name ↔ name ∈ ss.localNames id := by
  obtain ⟨path, hpath, hlength⟩ := hss.exists_short_path hid
  rw [localNames_eq_eraseDups hpath hlength, List.mem_eraseDups, List.mem_flatMap, isDefined,
    holder?, hpath.holderOf? hlength, List.find?_isSome]
  simp only [contains_iff, Dict.mem_keys_iff, Holds]

/-- After any edits of nested scopes, a variable is read from the nearest scope that holds it, an
assignment goes there or makes the variable here, exactly the scopes that come there first notice
it, and the defined names are those listed, from the innermost scope outward. -/
theorem variables_of_steps (hss : ss.Nested) (hsteps : Relation.ReflTransGen Step ss tt)
    (hid : id.index < tt.size) (name : String) (v : Value) :
    (∀ w, tt.get? id name = some w ↔
      ∃ i, tt.Nearest id name i ∧ (tt.scope i).vars.get? name = some w) ∧
    (∃ target, (tt.Nearest id name target ∨ (∀ i, ¬tt.Nearest id name i) ∧ target = id) ∧
      (tt.set id name v).scope target =
        { tt.scope target with vars := (tt.scope target).vars.insert name v } ∧
      (∀ i, i ≠ target → (tt.set id name v).scope i = tt.scope i) ∧
      ∀ i, i.index < tt.size →
        (tt.Reaches i name target → (tt.set id name v).get? i name = some v) ∧
        ∀ n, ¬(n = name ∧ tt.Reaches i name target) →
          (tt.set id name v).get? i n = tt.get? i n) ∧
    (tt.isDefined id name ↔ name ∈ tt.localNames id) ∧
    (tt.localNames id).Nodup ∧
    ∃ path, tt.Path id path ∧
      tt.localNames id = (path.flatMap fun i => (tt.scope i).vars.keys).eraseDups := by
  have htt := nested_of_steps hss hsteps
  obtain ⟨target, htarget, hindex, hset⟩ := exists_set_eq htt hid name v
  obtain ⟨path, hpath, hlength⟩ := htt.exists_short_path hid
  refine ⟨fun w => get?_eq_some_iff htt hid, ⟨target, htarget, ?_, fun i hi => ?_, fun i hi => ?_⟩,
    isDefined_iff htt hid, nodup_localNames, path, hpath, localNames_eq_eraseDups hpath hlength⟩
  · rw [hset, scope_declare hindex, if_pos rfl]
  · rw [hset, scope_declare hindex, if_neg hi]
  · rw [hset]
    exact ⟨get?_declare_of_reaches htt hindex hi,
      fun n => get?_declare_of_not_reaches htt hindex hi⟩

/-- A block in a method in a block, and a variable outside of all of them. -/
def sampleScopes : Scopes :=
  let outer := (push #[] .top none).2.declare ⟨0⟩ "x" ⟨7⟩
  let block := (outer.push .block (some ⟨0⟩)).2
  let method := (block.push .method (some ⟨1⟩)).2
  (method.push .block (some ⟨2⟩)).2

theorem steps_sampleScopes : Relation.ReflTransGen Step #[] sampleScopes := by
  refine .head ⟨.new .top none, nofun, rfl⟩ ?_
  refine .head ⟨.declare ⟨0⟩ "x" ⟨7⟩, Nat.zero_lt_one, rfl⟩ ?_
  refine .head ⟨.new .block (some ⟨0⟩), by rintro _ ⟨⟩; decide, rfl⟩ ?_
  refine .head ⟨.new .method (some ⟨1⟩), by rintro _ ⟨⟩; decide, rfl⟩ ?_
  exact .single ⟨.new .block (some ⟨2⟩), by rintro _ ⟨⟩; decide, rfl⟩

/-- The block in the block sees the variable, and the one in the method does not. -/
theorem variables_of_steps_sample :
    Nested #[] ∧ Relation.ReflTransGen Step #[] sampleScopes ∧
    (∃ i, sampleScopes.Nearest ⟨1⟩ "x" i ∧ (sampleScopes.scope i).vars.get? "x" = some ⟨7⟩) ∧
    "x" ∉ sampleScopes.localNames ⟨3⟩ := by
  have hnested : Nested #[] := fun id p h => nomatch h
  have hsteps := steps_sampleScopes
  have hinner : (⟨1⟩ : ScopeId).index < sampleScopes.size := by decide
  have hmethod : (⟨3⟩ : ScopeId).index < sampleScopes.size := by decide
  have hsees := variables_of_steps hnested hsteps hinner "x" ⟨8⟩
  have hmisses := variables_of_steps hnested hsteps hmethod "x" ⟨8⟩
  refine ⟨hnested, hsteps, (hsees.1 ⟨7⟩).mp (by decide), fun hx => ?_⟩
  exact absurd (hmisses.2.2.1.mpr hx) (by decide)

end Garnet.Scopes
