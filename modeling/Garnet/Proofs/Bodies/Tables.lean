import Garnet.Proofs.Bodies.Statements

/-!
# The tables that a body leaves

However a body ends, what is parked in its scope then moves to the table of the class. Where no move
clashes with a parked method, the class has the tables that the text of the body says.
-/

namespace Garnet

variable {s : Store} {c : Value}

/-- How a body of a class ends: what is parked in its scope is promoted. -/
def Ending.closed (c : Value) (scope : ScopeId) : Ending Value → Ending Value
  | .ok v t => .ok v ((Change.promote c false scope).apply t.leave)
  | .error (.signal sig) t => .error (.signal sig) ((Change.promote c false scope).apply t.leave)
  | .error .exhausted t => .error .exhausted t.leave

namespace Store

/-- The tables of a class. -/
def tables (s : Store) (c : Value) : ClassTables :=
  ⟨(s.tableOf (.instances c)).lookup, (s.tableOf (.own c)).lookup⟩

/-- A store in which the body of a class has just been opened. -/
def opened (s : Store) (c : Value) : Store :=
  ((Change.newScope .classBody (some s.scopeId)).apply s).enter (.classBody c) ⟨s.scopes.size⟩

/-- A body runs in a scope of its own. -/
theorem runBody_run {e : Engine} {body : Option Expr} :
    (Eval.runBody c false body).run e s =
      ((match body with
        | some x => Eval.perform (.eval x)
        | none => pure .nil : Eval Value).run e (s.opened c)).closed c ⟨s.scopes.size⟩ := by
  have hbody (x : Eval Value) (scope : ScopeId) (t : Store) :
      (Act.ensure (.within (.classBody c) scope x rfl)
          (Eval.update (.promote c false scope))).run e t =
        (x.run e (t.enter (.classBody c) scope)).closed c scope := by
    simp only [Act.run, Eval.update]
    cases x.run e (t.enter (.classBody c) scope) with
    | ok v t => rfl
    | error stop t => cases stop <;> rfl
  exact hbody _ _ _

theorem sameLinks_opened : SameLinks s (s.opened c) := ⟨fun _ => rfl, fun _ => rfl⟩

theorem inherited_opened : (s.opened c).inherited c = s.inherited c := by
  have hmodules (m : Value) : (s.opened c).moduleSteps false s.objects.size m =
      s.moduleSteps false s.objects.size m :=
    sameLinks_opened.moduleSteps false s.objects.size m
  funext name
  rw [inherited, inherited, sameLinks_opened.instanceSteps hmodules]
  rfl

theorem scope_opened :
    Scopes.scope (s.opened c).scopes ⟨s.scopes.size⟩ =
      { kind := .classBody, parent := some s.scopeId } := by
  simp only [opened, enter, Change.apply, Scopes.push, Scopes.scope, Array.getD_eq_getD_getElem?,
    Array.getElem?_push_size, Option.getD_some]

theorem scope_opened_of_ne {i : ScopeId} (hi : i ≠ ⟨s.scopes.size⟩) :
    Scopes.scope (s.opened c).scopes i = Scopes.scope s.scopes i := by
  have hne : i.index ≠ s.scopes.size := fun h => hi (congrArg ScopeId.mk h)
  simp only [opened, enter, Change.apply, Scopes.push, Scopes.scope, Array.getD_eq_getD_getElem?,
    Array.getElem?_push, if_neg hne]

/-- A message means in the body what it means around it. -/
theorem Means.opened {name : String} {f : Native} (h : s.Means c name f) :
    (s.opened c).Means c name f := by
  refine ⟨fun id => ?_, ?_⟩
  · rw [Scopes.pending?]
    by_cases hid : id = ⟨s.scopes.size⟩
    · rw [hid, scope_opened]
      rfl
    · rw [scope_opened_of_ne hid]
      exact h.unbound id
  · rw [findMethod_congr (s := s) (sameLinks_opened.chain rfl rfl) fun _ => rfl]
    exact h.builtin

end Store

namespace Body

/-- The body of `c`, just opened. -/
def start (hc : s.isModuleLike c) (hs : s.Hierarchy) (ha : s.Acyclic) : Body where
  store := s.opened c
  target := c
  scope := ⟨s.scopes.size⟩
  self := rfl
  home := rfl
  scopeId := rfl
  scope_lt := by
    simp only [Store.opened, Store.enter, Change.apply, Scopes.push, Array.size_push,
      Nat.lt_add_one]
  kind := by rw [Store.scope_opened]
  visibility := by rw [Store.scope_opened]
  hasTable := Store.isModuleLike_eq_link?.symm.trans hc
  hierarchy := ⟨hs.nonempty, fun hl => ⟨(hs.fits hl).base_isClass, (hs.fits hl).base_of_isModule,
    (hs.fits hl).included_isModule⟩, hs.older⟩
  acyclic := ha

theorem at_start (hc : s.isModuleLike c) (hs : s.Hierarchy) (ha : s.Acyclic)
    (hsymbols : s.SymbolsFit) : (start hc hs ha).At (s.opened c) ⟨s.tables c, fun _ => none⟩ := by
  refine ⟨⟨fun _ => rfl, fun _ => rfl⟩, Nat.le_refl _, rfl, fun _ _ => rfl, rfl, rfl, rfl, rfl,
    hsymbols.of_same rfl rfl, {}, ?_, .nil, fun _ hx => absurd hx List.not_mem_nil, fun _ => rfl⟩
  refine (Scopes.modifyScope_eq_self ?_).symm
  change { Scopes.scope (s.opened c).scopes ⟨s.scopes.size⟩ with pending := {} } =
    Scopes.scope (s.opened c).scopes ⟨s.scopes.size⟩
  rw [Store.scope_opened]

variable {B : Body} {u : Store} {d : Drafts}

/-- What was parked comes to the table of the class, and no other table changes. -/
theorem At.promote (h : B.At u d) :
    ((Change.promote B.target false B.scope).apply u.leave).tables B.target = d.promoted ∧
      ∀ holder, holder ≠ .instances B.target → holder ≠ .own B.target →
        ((Change.promote B.target false B.scope).apply u.leave).tableOf holder =
          B.store.tableOf holder := by
  obtain ⟨p, hscopes, hnodup, hsource, hp⟩ := h.parked
  have hpending : (Scopes.scope u.scopes B.scope).pending = p := by
    rw [hscopes, Scopes.scope_modifyScope, if_pos ⟨rfl, B.scope_lt⟩]
  obtain ⟨t, ht, happly⟩ : ∃ t : Store, t.objects = u.objects ∧
      (Change.promote B.target false B.scope).apply u.leave =
        t.promoteAll (.instances B.target) p.entries := by
    rw [← hpending]
    exact ⟨{ u.leave with scopes := (Scopes.takeMethods u.scopes B.scope).2 }, rfl, rfl⟩
  have htable : t.HasTable (.instances B.target) := by
    rw [Store.HasTable, Store.link?_of_objects ht]
    exact h.hasTable
  have hother (holder : Holder) (hne : holder ≠ .instances B.target) :
      (t.promoteAll (.instances B.target) p.entries).tableOf holder = u.tableOf holder := by
    rw [Store.tableOf_promoteAll_of_ne htable hne, Store.tableOf_of_objects ht]
  rw [happly]
  refine ⟨?_, fun holder hi ho => (hother holder hi).trans (h.tables hi ho)⟩
  simp only [Store.tables, Drafts.promoted, ClassTables.mk.injEq]
  constructor
  · funext name
    rw [Store.lookup_promoteAll htable hnodup hsource, Store.tableOf_of_objects ht, h.instances,
      ← hp name]
    rfl
  · rw [hother (.own B.target) Holder.own_ne_instances, h.own]

/-- However a body ends, its moves tell the tables of the class. -/
theorem Ends.closed {out : Ending Value} {r : Drafts × Bool} (h : B.Ends out r) :
    let out' := out.closed B.target B.scope
    Later out.store out'.store ∧
    (if r.2 then ∃ v, out' = .ok v out'.store
      else ∃ exc, out' = .error (.signal (.raise exc)) out'.store) ∧
    out'.store.tables B.target = r.1.promoted ∧
    ∀ holder, holder ≠ .instances B.target → holder ≠ .own B.target →
      out'.store.tableOf holder = B.store.tableOf holder := by
  have hlater (t : Store) :
      Later t ((Change.promote B.target false B.scope).apply t.leave) := by
    have hleave : Later t t.leave := .of_objects rfl (Nat.le_refl _)
    exact hleave.trans (.of_edited (.change (ℓ := .call) _ rfl))
  cases h with
  | @ok v t d ht => exact ⟨hlater t, ⟨v, rfl⟩, ht.promote⟩
  | @raise exc t d ht => exact ⟨hlater t, ⟨exc, rfl⟩, ht.promote⟩

end Body

namespace Store

/-- The statements of a body make their moves one after another until one fails, and however the
body ends, the class gets the tables that the moves leave, with what they parked in front; no other
table changes. Where no move clashes with what is parked, these are the tables that come from making
the moves to the class at once, in the order of the text. -/
theorem tables_runBody (n : Nat) {sts : List Statement} (hc : s.isModuleLike c) (hs : s.Hierarchy)
    (ha : s.Acyclic) (hsymbols : s.SymbolsFit) (hdepth : s.depth < s.config.maxDepth)
    (hsts : ∀ m, .message m ∈ sts → s.Means c m.keyword m.native ∧
      ∀ st ∈ sts, st.Spares m.keyword) :
    ∃ done rest moves,
      let out := (Eval.runBody c false (Statement.bodyOf sts)).run (.ofFuel (n + 3)) s
      let drafts := runMoves (Move.step (s.inherited c)) moves.flatten ⟨s.tables c, fun _ => none⟩
      sts = done ++ rest ∧
      List.Forall₂ (Statement.Denotes out.store ⟨c, none, ⟨s.scopes.size⟩, none⟩) done moves ∧
      (if drafts.2 then rest = [] ∧ ∃ v, out = .ok v out.store
        else ∃ exc, out = .error (.signal (.raise exc)) out.store) ∧
      out.store.tables c = drafts.1.promoted ∧
      (∀ holder, holder ≠ .instances c → holder ≠ .own c →
        out.store.tableOf holder = s.tableOf holder) ∧
      (Harmonious (s.inherited c) moves.flatten ⟨s.tables c, fun _ => none⟩ →
        runMoves (Move.apply (s.inherited c)) moves.flatten (s.tables c) =
          (out.store.tables c, drafts.2)) := by
  have hstart := Body.at_start hc hs ha hsymbols
  have hready : (Body.start hc hs ha).Ready ⟨s.tables c, fun _ => none⟩ sts := by
    intro m hm
    obtain ⟨hmeans, hspares⟩ := hsts m hm
    exact ⟨hmeans.opened, ⟨rfl, rfl, rfl⟩, hspares⟩
  obtain ⟨done, rest, moves, hsplit, hdone, hends, hrest⟩ :=
    hstart.ran_body (n := n) hdepth hready
  have hinherited : (Body.start hc hs ha).inherited = s.inherited c := inherited_opened
  rw [Body.after, hinherited] at hends hrest
  obtain ⟨hlater, hend, htables, hother⟩ := hends.closed
  refine ⟨done, rest, moves, ?_⟩
  rw [runBody_run]
  refine ⟨hsplit, hdone.imp fun _ _ h => h.mono hlater, ?_, htables, hother, fun hh => ?_⟩
  · split
    · rename_i hall
      rw [if_pos hall] at hend
      exact ⟨hrest hall, hend⟩
    · rename_i hfails
      rw [if_neg hfails] at hend
      exact hend
  · have hpromoted := runMoves_promoted hh
    rw [← htables] at hpromoted
    exact hpromoted

/-- A class without methods that answers `define_method`. -/
def blankClass : Store :=
  let native : MethodDef := ⟨"define_method", .builtin 83, false⟩
  let defining := ({} : MethodTable).insert "define_method" native .pub
  let above : ModuleInfo :=
    { name := "Class", isModule := false, base := none, alloc := .newClass, methods := defining }
  let blank : ModuleInfo := { name := "C", isModule := false, base := none, alloc := .object }
  { config := {}
    objects := #[{ cls := ⟨0⟩, payload := .module above }, { cls := ⟨0⟩, payload := .module blank }]
    scopes := #[{ kind := .top, parent := none }]
    frames := [.outermost]
    scopeStack := [⟨0⟩] }

theorem blankClass_link? {v : Value} {l : Link} (h : blankClass.link? v = some l) :
    l = ⟨false, none, []⟩ := by
  obtain ⟨_ | _ | i⟩ := v
  · exact (Option.some.inj h).symm
  · exact (Option.some.inj h).symm
  · exact nomatch h

theorem blankClass_means :
    blankClass.Means ⟨1⟩ "define_method" Library.Modules.defineMethod := by
  have hentry : Library.all[83]? =
      some (Entry.method .moduleClass "define_method" Library.Modules.defineMethod) := by
    rw [Library.all, List.getElem?_toArray]
    rfl
  refine ⟨fun ⟨i⟩ => ?_, _, 83, rfl, rfl, Library.run_eq hentry⟩
  cases i <;> rfl

theorem blankClass_hierarchy : blankClass.Hierarchy := by
  refine ⟨by decide, fun hl => ?_, fun hl hb => ?_⟩
  · rw [blankClass_link? hl]
    exact ⟨nofun, fun _ => rfl, nofun⟩
  · rw [blankClass_link? hl] at hb
    cases hb

theorem blankClass_acyclic : blankClass.Acyclic := by
  intro c hc
  have hnone (d : Value) : ¬blankClass.Above c d := by
    rw [above_iff]
    rintro ⟨l, hl, hd⟩
    rw [blankClass_link? hl] at hd
    rcases hd with hd | hd <;> cases hd
  obtain ⟨d, hd, _⟩ := Relation.TransGen.head'_iff.mp hc
  exact hnone d hd

/-- A method is defined and then defined again from a block. -/
def redefinition : List Statement :=
  [.define "m" {} (.int 1), .message (.defineMethod "m" ⟨{}, .int 2, 0⟩)]

/-- The first definition comes to the class last. -/
theorem tables_runBody_redefinition :
    (((Eval.runBody ⟨1⟩ false (Statement.bodyOf redefinition)).run (.ofFuel 3)
        blankClass).store.tables ⟨1⟩).instances "m" =
      some (⟨"m", .compiled {} (.int 1) (some ⟨1⟩), true⟩, .pub) := by
  have hspares (st : Statement) (hst : st ∈ redefinition) : st.Spares "define_method" := by
    intro scope p m hm
    rcases List.mem_pair.mp hst with rfl | rfl
    · rw [List.mem_singleton.mp hm]
      exact (by decide : "define_method" ≠ "m")
    · rw [List.mem_singleton.mp hm]
      exact (by decide : "define_method" ≠ "m")
  have hsts (m : ClassMessage) (hm : .message m ∈ redefinition) :
      blankClass.Means ⟨1⟩ m.keyword m.native ∧ ∀ st ∈ redefinition, st.Spares m.keyword := by
    rcases List.mem_pair.mp hm with h | h
    · cases h
    · cases h
      exact ⟨blankClass_means, hspares⟩
  obtain ⟨done, rest, moves, hsplit, hdone, hend, htables, _⟩ :=
    tables_runBody 0 (c := ⟨1⟩) rfl blankClass_hierarchy blankClass_acyclic nofun (by decide) hsts
  rw [htables]
  -- a run that stops before the last statement has failed, and neither of the two fails
  cases hdone with
  | nil => exact nomatch hsplit.trans hend.1
  | cons hst hdone =>
    obtain ⟨p, rfl, _⟩ := hst
    obtain ⟨rfl, hlast⟩ := List.cons.inj hsplit
    cases hdone with
    | nil => exact nomatch hlast.trans hend.1
    | cons hst hdone =>
      obtain ⟨p, rfl, _⟩ := hst
      obtain ⟨rfl, hnone⟩ := List.cons.inj hlast
      obtain ⟨rfl, rfl⟩ := List.append_eq_nil_iff.mp hnone.symm
      cases hdone
      rfl

end Store

end Garnet
