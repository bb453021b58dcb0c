import Garnet.Eval.Bodies
import Garnet.Proofs.Lookup.Tables
import Garnet.Session.Engine

/-!
# Making a method private

Making a method of a class private outside of the body of the class hides it in the table of the
class, where an inherited method is first copied to. A lookup passes over a method that the caller
may not see, so that another table of the chain that shows the name publicly still answers a public
call.
-/

namespace Garnet

namespace Store

/-- Whether the current scope is the body of a class. -/
def InBodyOf (s : Store) (c : Value) : Prop :=
  (Scopes.scope s.scopes s.scopeId).kind = .classBody ∧ s.self = c

/-- The first public method of that name in the chain of a class, the table of the class itself left
out. -/
def publicElsewhere? (s : Store) (c : Value) (name : String) : Option Resolved :=
  (s.instanceSteps s.objects.size c).findSome? fun step =>
    if step.holder = .instances c then none else s.shown name .onlyPublic step

end Store

namespace Eval

variable {e : Engine} {s t : Store} {c : Value} {v : Visibility} {name : String}

theorem bodyScope?_run_outside (h : ¬s.InBodyOf c) : (bodyScope? c).run e s = .ok none s := by
  have hcond : ((Scopes.scope s.scopes s.scopeId).kind == .classBody && s.self == c) = false := by
    rw [Bool.eq_false_iff]
    intro hb
    obtain ⟨hk, hs⟩ := Bool.and_eq_true_iff.mp hb
    exact h ⟨eq_of_beq hk, eq_of_beq hs⟩
  simp only [bodyScope?, view, Act.run, hcond, Bool.false_eq_true, if_false]

section Unbound

variable {body : Option ScopeId}
  (hbody : body.filter (fun id => (Scopes.pending? s.scopes id name).isSome) = none)
  (hc : s.HasTable (.instances c))

include hbody hc

/-- Where no body has the method bound, the table of the class gets an entry with the new
visibility. -/
theorem setVisibilityOf_found {m : MethodDef × Visibility}
    (hm : s.findInstanceMethod? c name = some m) :
    ∃ f, (setVisibilityOf c body v name).run e s = .ok () (s.modifyTable (.instances c) f) ∧
      ∀ n, (f (s.tableOf (.instances c))).lookup n =
        if n = name then some (m.1, v) else (s.tableOf (.instances c)).lookup n := by
  obtain ⟨info, hinfo⟩ := Option.isSome_iff_exists.mp (Store.module?_isSome.trans hc)
  have htable : s.tableOf (.instances c) = info.methods := by
    rw [Store.tableOf, hinfo]
    rfl
  have hfind := Store.findInstanceMethod?_eq_or hc name
  rw [hm, htable] at hfind
  rw [htable]
  cases hl : info.methods.lookup name with
  | some entry =>
    rw [hl, Option.some_or] at hfind
    refine ⟨(·.setVisibility name v), ?_, fun n => ?_⟩
    · simp only [setVisibilityOf, view, update, bind, Act.run, hbody, hinfo, MethodTable.contains,
        hl, Option.isSome_some, if_true, Change.apply]
    · rw [MethodTable.lookup_setVisibility, hl, Option.some.inj hfind]
      rfl
  | none =>
    refine ⟨(·.insert name m.1 v), ?_, fun n => MethodTable.lookup_insert ..⟩
    simp only [setVisibilityOf, view, update, bind, Act.run, hbody, hinfo, MethodTable.contains, hl,
      Option.isSome_none, Bool.false_eq_true, if_false, hm, Option.isSome_some, if_true,
      Change.apply]

theorem setVisibilityOf_missing (hm : s.findInstanceMethod? c name = none) :
    (setVisibilityOf c body v name).run e s = (undefinedMethod c name).run e s := by
  obtain ⟨info, hinfo⟩ := Option.isSome_iff_exists.mp (Store.module?_isSome.trans hc)
  have hfind := Store.findInstanceMethod?_eq_or hc name
  have hl : info.methods.lookup name = none := by
    rw [hm, Store.tableOf, hinfo] at hfind
    exact (Option.or_eq_none_iff.mp hfind.symm).1
  simp only [setVisibilityOf, view, bind, Act.run, hbody, hinfo, MethodTable.contains, hl,
    Option.isSome_none, Bool.false_eq_true, if_false, hm]

end Unbound

theorem setVisibilityOf_ok (hc : (s.link? c).isSome)
    (h : (setVisibilityOf c none v name).run e s = .ok () t) :
    ∃ d f, t = s.modifyTable (.instances c) f ∧
      ∀ n, (f (s.tableOf (.instances c))).lookup n =
        if n = name then some (d, v) else (s.tableOf (.instances c)).lookup n := by
  cases hm : s.findInstanceMethod? c name with
  | some m =>
    obtain ⟨f, hrun, hf⟩ := setVisibilityOf_found (e := e) (v := v) (Option.filter_none _) hc hm
    rw [hrun] at h
    cases h
    exact ⟨m.1, f, rfl, hf⟩
  | none =>
    rw [setVisibilityOf_missing (Option.filter_none _) hc hm] at h
    cases h

theorem setVisibility_ok (houtside : ¬s.InBodyOf c) (hc : (s.link? c).isSome)
    (h : (setVisibility c v [name]).run e s = .ok () t) :
    ∃ d f, t = s.modifyTable (.instances c) f ∧
      ∀ n, (f (s.tableOf (.instances c))).lookup n =
        if n = name then some (d, v) else (s.tableOf (.instances c)).lookup n := by
  simp only [setVisibility, List.isEmpty_cons, Bool.false_eq_true, if_false, bind, Act.run,
    bodyScope?_run_outside houtside, List.forM, pure] at h
  split at h
  · rename_i hname
    cases h
    exact setVisibilityOf_ok hc hname
  · cases h

end Eval

namespace Store

variable {e : Engine} {s t : Store} {c o : Value} {name : String} {step : Step}

theorem shown_onlyPublic_eq_none :
    s.shown name .onlyPublic step = none ↔ s.visibilityAt name step ≠ some .pub := by
  unfold shown visibilityAt
  cases (s.tableOf step.holder).lookup name with
  | none => simp only [Option.bind_none, Option.map_none, ne_eq, reduceCtorEq, not_false_eq_true]
  | some entry =>
    obtain ⟨m, v⟩ := entry
    cases v <;> simp [Access.onlyPublic, Access.allows]

theorem publicElsewhere?_eq_none :
    s.publicElsewhere? c name = none ↔
      ∀ step ∈ s.instanceSteps s.objects.size c, step.holder ≠ .instances c →
        s.visibilityAt name step ≠ some .pub := by
  rw [publicElsewhere?, List.findSome?_eq_none_iff]
  refine forall₂_congr fun step _ => ?_
  by_cases h : step.holder = .instances c
  · simp only [h, if_true, ne_eq, not_true_eq_false, false_implies]
  · simp only [h, if_false, shown_onlyPublic_eq_none, ne_eq, not_false_eq_true, true_implies]

/-! ## A table with a private entry -/

section Hidden

variable {d : MethodDef} {f : MethodTable → MethodTable} (hc : s.HasTable (.instances c))
  (hf : (f (s.tableOf (.instances c))).lookup name = some (d, .priv))

include hc hf

theorem visibilityAt_hidden :
    (s.modifyTable (.instances c) f).visibilityAt name step =
      if step.holder = .instances c then some .priv else s.visibilityAt name step := by
  rw [visibilityAt, tableOf_modifyTable hc]
  split
  · rw [hf]
    rfl
  · rfl

theorem shown_hidden :
    (s.modifyTable (.instances c) f).shown name .onlyPublic step =
      if step.holder = .instances c then none else s.shown name .onlyPublic step := by
  rw [shown, tableOf_modifyTable hc]
  split
  · rw [hf]
    rfl
  · rfl

section Instance

variable (ho : s.classOf o = c)
  (hown : ∀ step ∈ s.ownSteps s.objects.size o, s.visibilityAt name step = none)

include ho hown

/-- The tables of the object itself pass a public lookup on to those of its class. -/
theorem findSome?_shown_hidden :
    (s.chain o).findSome? ((s.modifyTable (.instances c) f).shown name .onlyPublic) =
      s.publicElsewhere? c name := by
  have hnone : (s.ownSteps s.objects.size o).findSome?
      ((s.modifyTable (.instances c) f).shown name .onlyPublic) = none := by
    refine List.findSome?_eq_none_iff.mpr fun step hstep => ?_
    rw [shown_onlyPublic_eq_none, visibilityAt_hidden hc hf, hown step hstep]
    split <;> simp
  rw [chain, List.findSome?_append, hnone, Option.none_or, ho, publicElsewhere?]
  exact congrArg (List.findSome? · _) (funext fun _ => shown_hidden hc hf)

/-- The private entry is the first one of the chain. -/
theorem findSome?_visibilityAt_hidden :
    (s.chain o).findSome? ((s.modifyTable (.instances c) f).visibilityAt name) = some .priv := by
  obtain ⟨rest, hrest⟩ := instanceSteps_head hc
  rw [chain, List.findSome?_append, ho, hrest, List.findSome?_cons, visibilityAt_hidden hc hf,
    if_pos rfl]
  cases hfirst : (s.ownSteps s.objects.size o).findSome?
      ((s.modifyTable (.instances c) f).visibilityAt name) with
  | none => rfl
  | some v =>
    obtain ⟨step, hstep, hv⟩ := List.exists_of_findSome?_eq_some hfirst
    rw [visibilityAt_hidden hc hf, hown step hstep] at hv
    split at hv
    · exact hv.symm
    · cases hv

end Instance

end Hidden

/-- After a method of a class has been made private outside of the body of the class, a public call
on a direct instance without such a method of its own finds the first public method of that name in
another table of the chain. The method is hidden exactly where there is none. -/
theorem findMethod_setVisibility_priv
    (hrun : (Eval.setVisibility c .priv [name]).run e s = .ok () t) (houtside : ¬s.InBodyOf c)
    (hc : s.isClass c) (ho : s.classOf o = c)
    (hown : ∀ step ∈ s.ownSteps s.objects.size o, s.visibilityAt name step = none) :
    (t.findMethod o name .onlyPublic =
      match s.publicElsewhere? c name with
      | some r => .ok r
      | none => .error (.hidden .priv)) ∧
    (t.findMethod o name .onlyPublic = .error (.hidden .priv) ↔
      ∀ step ∈ s.instanceSteps s.objects.size c, step.holder ≠ .instances c →
        s.visibilityAt name step ≠ some .pub) := by
  have htable : s.HasTable (.instances c) := link?_isSome_of_isClass hc
  obtain ⟨d, f, rfl, hf⟩ := Eval.setVisibility_ok houtside htable hrun
  have hentry : (f (s.tableOf (.instances c))).lookup name = some (d, .priv) := by
    rw [hf, if_pos rfl]
  have hfind : (s.modifyTable (.instances c) f).findMethod o name .onlyPublic =
      match s.publicElsewhere? c name with
      | some r => .ok r
      | none => .error (.hidden .priv) := by
    have hshown := findSome?_shown_hidden htable hentry ho hown
    have hfirst := findSome?_visibilityAt_hidden htable hentry ho hown
    rw [findMethod_eq, chain_modifyTable, hshown]
    cases s.publicElsewhere? c name with
    | none =>
      dsimp only
      rw [hfirst]
    | some r => rfl
  refine ⟨hfind, ?_⟩
  rw [hfind, ← publicElsewhere?_eq_none]
  cases s.publicElsewhere? c name with
  | none => exact iff_of_true rfl rfl
  | some r => exact iff_of_false nofun nofun

/-- A class that redefines the public method `m` of the class above it, and an instance of it. -/
def overriddenMethod : Store :=
  let answering := fun text => ({} : MethodTable).insert "m" ⟨"m", .answer text, true⟩ .pub
  let above : ModuleInfo :=
    { name := "B", isModule := false, base := none, alloc := .object, methods := answering "b" }
  let below : ModuleInfo :=
    { name := "C", isModule := false, base := some ⟨0⟩, alloc := .object, methods := answering "c" }
  { config := {}
    objects :=
      #[{ cls := ⟨0⟩, payload := .module above }, { cls := ⟨0⟩, payload := .module below },
        { cls := ⟨1⟩, payload := .object }]
    scopes := #[{ kind := .top, parent := none }]
    frames := [.outermost]
    scopeStack := [⟨0⟩] }

theorem findMethod_setVisibility_priv_overridden :
    ((Eval.setVisibility ⟨1⟩ .priv ["m"]).run (.ofFuel 0) overriddenMethod).store.findMethod ⟨2⟩ "m"
      .onlyPublic ≠ .error (.hidden .priv) := by
  have hrun : (Eval.setVisibility ⟨1⟩ .priv ["m"]).run (.ofFuel 0) overriddenMethod =
      .ok () ((Eval.setVisibility ⟨1⟩ .priv ["m"]).run (.ofFuel 0) overriddenMethod).store := rfl
  have houtside : ¬overriddenMethod.InBodyOf ⟨1⟩ := fun h => nomatch h.1
  have hown : ∀ step ∈ overriddenMethod.ownSteps 3 ⟨2⟩,
      overriddenMethod.visibilityAt "m" step = none := by decide
  intro hmiss
  exact (findMethod_setVisibility_priv hrun houtside rfl rfl hown).2.mp hmiss
    ⟨.instances ⟨0⟩, false⟩ (by decide) (by decide) (by decide)

end Store

end Garnet
