import Garnet.Object.Lookup

/-!
# The chain of a lookup

The tables that a walk visits form a list, and the walk is a fold over it that may end early. What a
name denotes on a receiver, and what a `super` call denotes after a holder, are therefore the first
table of this list, or of what comes after the holder, that shows the name.
-/

namespace Garnet.Store

variable (s : Store)

/-- The tables of a module and of the modules it includes; `n` bounds the nesting. -/
def moduleSteps (extended : Bool) : Nat → Value → List Step
  | 0, _ => []
  | n + 1, m => ⟨.instances m, extended⟩ :: (s.included m).reverse.flatMap (moduleSteps extended n)

/-- The tables of a class and of the classes above it, each followed by its modules. -/
def instanceSteps : Nat → Value → List Step
  | 0, _ => []
  | n + 1, c =>
    s.moduleSteps false s.objects.size c ++
      match s.base? c with
      | some b => instanceSteps n b
      | none => []

/-- The tables of an object itself and of its extensions; for a class also those of the classes
above it. -/
def ownSteps : Nat → Value → List Step
  | 0, _ => []
  | n + 1, v =>
    ⟨.own v, false⟩ :: ((s.object v).extended.flatMap (s.moduleSteps true s.objects.size) ++
      match if s.isClass v then s.base? v else none with
      | some b => ownSteps n b
      | none => [])

/-- Every table that a lookup on `recv` visits, in order. -/
def chain (recv : Value) : List Step :=
  s.ownSteps s.objects.size recv ++ s.instanceSteps s.objects.size (s.classOf recv)

/-! ## Walks as folds -/

section Walks

variable {σ ρ : Type} (visit : σ → Step → Except ρ σ)

theorem foldlM_flatMap {α β : Type} (f : α → List β) (visit : σ → β → Except ρ σ) (xs : List α)
    (st : σ) :
    (xs.flatMap f).foldlM visit st = xs.foldlM (fun st x => (f x).foldlM visit st) st := by
  induction xs generalizing st with
  | nil => rfl
  | cons x xs ih =>
    rw [List.flatMap_cons, List.foldlM_append, List.foldlM_cons]
    congr 1
    funext st
    exact ih st

theorem walkModule_eq_foldlM (extended : Bool) (n : Nat) (m : Value) (st : σ) :
    s.walkModule visit extended n m st = (s.moduleSteps extended n m).foldlM visit st := by
  induction n generalizing m st with
  | zero => rfl
  | succ n ih =>
    rw [walkModule, moduleSteps, List.foldlM_cons]
    congr 1
    funext st
    simp only [foldlM_flatMap, ih]

theorem walkInstances_eq_foldlM (n : Nat) (c : Value) (st : σ) :
    s.walkInstances visit n c st = (s.instanceSteps n c).foldlM visit st := by
  induction n generalizing c st with
  | zero => rfl
  | succ n ih =>
    rw [walkInstances, instanceSteps, List.foldlM_append, walkModule_eq_foldlM]
    congr 1
    funext st
    cases s.base? c with
    | none => rfl
    | some b => exact ih b st

theorem walkOwn_eq_foldlM (n : Nat) (v : Value) (st : σ) :
    s.walkOwn visit n v st = (s.ownSteps n v).foldlM visit st := by
  induction n generalizing v st with
  | zero => rfl
  | succ n ih =>
    rw [walkOwn, ownSteps, List.foldlM_cons]
    congr 1
    funext st
    rw [List.foldlM_append, foldlM_flatMap]
    simp only [walkModule_eq_foldlM]
    congr 1
    funext st
    cases if s.isClass v then s.base? v else none with
    | none => rfl
    | some b => exact ih b st

theorem walk_eq_foldlM (recv : Value) (st : σ) :
    s.walk visit recv st = (s.chain recv).foldlM visit st := by
  rw [walk, chain, List.foldlM_append, walkOwn_eq_foldlM]
  congr 1
  funext st
  exact walkInstances_eq_foldlM s visit _ _ st

end Walks

/-! ## What a table shows -/

/-- The visibility of a name in the table of a step. -/
def visibilityAt (name : String) (step : Step) : Option Visibility :=
  ((s.tableOf step.holder).lookup name).map (·.2)

/-- The method that a step of a lookup gives to a caller with this access. -/
def shown (name : String) (access : Access) (step : Step) : Option Resolved :=
  ((s.tableOf step.holder).lookup name).bind fun (m, v) =>
    if access.allows v && !(step.extended && v != .pub) then some ⟨m, step.holder, v⟩ else none

variable {s} {name : String} {access : Access} {step : Step} {recv : Value} {holder : Holder}

theorem holder_of_shown {r : Resolved} (h : s.shown name access step = some r) :
    r.holder = step.holder := by
  obtain ⟨⟨m, v⟩, _, hv⟩ := Option.bind_eq_some_iff.mp h
  dsimp only at hv
  split at hv
  · cases hv
    rfl
  · cases hv

theorem probe_eq (hidden : Option Visibility) :
    s.probe name access hidden step =
      match s.shown name access step with
      | some r => .error r
      | none => .ok (hidden <|> s.visibilityAt name step) := by
  unfold probe shown visibilityAt
  cases (s.tableOf step.holder).lookup name with
  | none => cases hidden <;> rfl
  | some entry =>
    dsimp only [Option.bind_some, Option.map_some]
    split <;> rfl

theorem foldlM_probe (hidden : Option Visibility) (steps : List Step) :
    steps.foldlM (s.probe name access) hidden =
      match steps.findSome? (s.shown name access) with
      | some r => .error r
      | none => .ok (hidden <|> steps.findSome? (s.visibilityAt name)) := by
  induction steps generalizing hidden with
  | nil => cases hidden <;> rfl
  | cons step steps ih =>
    rw [List.foldlM_cons, probe_eq, List.findSome?_cons, List.findSome?_cons]
    cases s.shown name access step with
    | some r => rfl
    | none =>
      refine (ih _).trans ?_
      cases hidden <;> cases s.visibilityAt name step <;> rfl

/-- A lookup finds the first table that shows the name. It fails with the visibility of the first
table that holds the name at all. -/
theorem findMethod_eq :
    s.findMethod recv name access =
      match (s.chain recv).findSome? (s.shown name access) with
      | some r => .ok r
      | none =>
        match (s.chain recv).findSome? (s.visibilityAt name) with
        | some v => .error (.hidden v)
        | none => .error .undefined := by
  rw [findMethod, walk_eq_foldlM, foldlM_probe]
  cases (s.chain recv).findSome? (s.shown name access) with
  | some r => rfl
  | none => cases (s.chain recv).findSome? (s.visibilityAt name) <;> rfl

/-- What a name denotes depends on the chain and on the entries of the name in its tables. -/
theorem findMethod_congr {t : Store} (hchain : t.chain recv = s.chain recv)
    (hlookup : ∀ h, (t.tableOf h).lookup name = (s.tableOf h).lookup name) :
    t.findMethod recv name access = s.findMethod recv name access := by
  have hshown : t.shown name access = s.shown name access := by
    funext step
    rw [shown, shown, hlookup]
  have hvisibility : t.visibilityAt name = s.visibilityAt name := by
    funext step
    rw [visibilityAt, visibilityAt, hlookup]
  rw [findMethod_eq, findMethod_eq, hchain, hshown, hvisibility]

/-! ## After a holder -/

/-- The visit of a `super` call: it begins to look once the holder has been passed. -/
private def visitAfter (s : Store) (name : String) (holder : Holder) (passed : Bool) (step : Step) :
    Except Resolved Bool :=
  if !passed then .ok (step.holder == holder)
  else (s.probe name .all none step).map fun _ => true

private theorem foldlM_passed (steps : List Step) :
    steps.foldlM (s.visitAfter name holder) true =
      match steps.findSome? (s.shown name .all) with
      | some r => .error r
      | none => .ok true := by
  induction steps with
  | nil => rfl
  | cons step steps ih =>
    rw [List.foldlM_cons, List.findSome?_cons, visitAfter, probe_eq]
    cases s.shown name .all step with
    | some r => rfl
    | none => exact ih

/-- A `super` call finds the first table that shows the name after the first occurrence of the
holder. -/
theorem foldlM_visitAfter (steps : List Step) :
    (match steps.foldlM (s.visitAfter name holder) false with
      | .error r => some r
      | .ok _ => none) =
    (steps.dropWhile (·.holder != holder)).tail.findSome? (s.shown name .all) := by
  induction steps with
  | nil => rfl
  | cons step steps ih =>
    have hstep : s.visitAfter name holder false step = .ok (step.holder == holder) := rfl
    rw [List.foldlM_cons, hstep, List.dropWhile_cons]
    by_cases h : step.holder = holder
    · simp only [h, BEq.rfl, bne_self_eq_false, Bool.false_eq_true, if_false, List.tail_cons]
      change (match steps.foldlM (s.visitAfter name holder) true with
        | .error r => some r
        | .ok _ => none) = _
      rw [foldlM_passed]
      cases steps.findSome? (s.shown name .all) <;> rfl
    · simp only [beq_false_of_ne h, bne_iff_ne.mpr h, if_true]
      exact ih

theorem findSuper?_eq :
    s.findSuper? recv name holder =
      ((s.chain recv).dropWhile (·.holder != holder)).tail.findSome? (s.shown name .all) := by
  rw [← foldlM_visitAfter, ← walk_eq_foldlM]
  rfl

/-- After the first occurrence of a holder. -/
theorem findSuper?_of_split {before after : List Step} (h : s.chain recv = before ++ step :: after)
    (hfirst : step.holder ∉ before.map (·.holder)) :
    s.findSuper? recv name step.holder = after.findSome? (s.shown name .all) := by
  have hbefore : ∀ x ∈ before, (x.holder != step.holder) = true := by
    intro x hx
    exact bne_iff_ne.mpr fun he => hfirst (List.mem_map.mpr ⟨x, hx, he⟩)
  rw [findSuper?_eq, h, List.dropWhile_append_of_pos hbefore, List.dropWhile_cons]
  simp only [bne_self_eq_false, Bool.false_eq_true, if_false, List.tail_cons]

end Garnet.Store
