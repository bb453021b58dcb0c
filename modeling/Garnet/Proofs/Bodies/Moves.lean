import Garnet.Object.Method
import Garnet.Proofs.Dictionary
import Garnet.Proofs.Lookup.Tables
import Mathlib.Logic.Function.Basic

/-!
# Moves of a body

A body of a class or module changes the tables of the class one name at a time. A definition is only
parked: it moves to the class when the body ends. All other moves are made to the class at once,
apart from a second name and another visibility for a method that is parked.

A move that is made to the class at once takes no notice of what is parked under its name. Where no
move meets a parked name in that way, the class ends up as if every move, the definitions too, had
been made to it in order.
-/

namespace Garnet

/-- What the names of a table stand for. -/
abbrev NameTable := String → Option (MethodDef × Visibility)

/-- The methods of the instances of a class and those of the class itself. -/
structure ClassTables where
  instances : NameTable
  own : NameTable

/-- The tables of a class whose body is open, and what is parked until the body ends. -/
structure Drafts extends ClassTables where
  parked : NameTable

/-- One change that a body makes to the tables of its class. -/
inductive Move where
  /-- The definition of a method by program text. -/
  | define (name : String) (m : MethodDef)
  | install (name : String) (m : MethodDef)
  | aliasAs (new old : String)
  | setVisibility (v : Visibility) (name : String)
  /-- An instance method becomes a method of the class itself as well. -/
  | copy (name : String)
  | remove (name : String)

/-- Makes moves one after another until one fails. -/
def runMoves {σ : Type} (step : Move → σ → Option σ) : List Move → σ → σ × Bool
  | [], st => (st, true)
  | m :: ms, st =>
    match step m st with
    | some st => runMoves step ms st
    | none => (st, false)

namespace Move

/-- The name whose meaning a move changes. -/
def name : Move → String
  | define n _ | install n _ | setVisibility _ n | copy n | remove n => n
  | aliasAs new _ => new

/-- The reader of an instance variable. -/
def reader (name : String) : Move := install name ⟨name, .reader s!"@{name}", false⟩

/-- The writer of an instance variable. -/
def writer (name : String) : Move := install s!"{name}=" ⟨s!"{name}=", .writer s!"@{name}", false⟩

section

variable (inherited : NameTable)

/-- A move as the text of the body has it: made to the class at once, after all moves before it. -/
def apply : Move → ClassTables → Option ClassTables
  | define name m, t | install name m, t =>
    some { t with instances := Function.update t.instances name (some (m, .pub)) }
  | aliasAs new old, t =>
    ((t.instances old).or (inherited old)).map fun (m, v) =>
      { t with instances := Function.update t.instances new (some (m.renamed new, v)) }
  | setVisibility v name, t =>
    ((t.instances name).or (inherited name)).map fun (m, _) =>
      { t with instances := Function.update t.instances name (some (m, v)) }
  | copy name, t =>
    ((t.instances name).or (inherited name)).map fun (m, _) =>
      { t with own := Function.update t.own name (some (m, .pub)) }
  | remove name, t =>
    (t.instances name).map fun _ =>
      { t with instances := Function.update t.instances name none }

/-- A move as an open body makes it. -/
def step : Move → Drafts → Option Drafts
  | define name m, d =>
    some { d with parked := Function.update d.parked name (some (m, .pub)) }
  | install name m, d =>
    some { d with instances := Function.update d.instances name (some (m, .pub)) }
  | aliasAs new old, d =>
    match d.parked old with
    | some (m, v) =>
      some { d with parked := Function.update d.parked new (some (m.renamed new, v)) }
    | none =>
      ((d.instances old).or (inherited old)).map fun (m, v) =>
        { d with instances := Function.update d.instances new (some (m.renamed new, v)) }
  | setVisibility v name, d =>
    match d.parked name with
    | some (m, _) => some { d with parked := Function.update d.parked name (some (m, v)) }
    | none =>
      ((d.instances name).or (inherited name)).map fun (m, _) =>
        { d with instances := Function.update d.instances name (some (m, v)) }
  | copy name, d =>
    ((d.instances name).or (inherited name)).map fun (m, _) =>
      { d with own := Function.update d.own name (some (m, .pub)) }
  | remove name, d =>
    (d.instances name).map fun _ =>
      { d with instances := Function.update d.instances name none }

end

/-- A move takes no notice of what is parked under its name. -/
def Clashes (d : Drafts) : Move → Prop
  | define .. | setVisibility .. => False
  | install name _ | copy name | remove name => (d.parked name).isSome
  | aliasAs new old => d.parked old = none ∧ (d.parked new).isSome

end Move

/-- No move in a row clashes with what the moves before it parked. -/
def Harmonious (inherited : NameTable) : List Move → Drafts → Prop
  | [], _ => True
  | m :: ms, d => ¬m.Clashes d ∧ ∀ d', m.step inherited d = some d' → Harmonious inherited ms d'

namespace Drafts

/-- The tables once the body has ended: what is parked comes first. -/
def promoted (d : Drafts) : ClassTables := ⟨fun n => (d.parked n).or (d.instances n), d.own⟩

end Drafts

variable {inherited : NameTable} {d d' : Drafts} {m : Move} {n : String}

/-! ## What is parked comes first -/

theorem promoted_park (e : MethodDef × Visibility) :
    { d with parked := Function.update d.parked n (some e) : Drafts }.promoted =
      { d.promoted with instances := Function.update d.promoted.instances n (some e) } := by
  simp only [Drafts.promoted, ClassTables.mk.injEq, and_true]
  funext k
  by_cases hk : k = n
  · simp only [hk, Function.update_self, Option.some_or]
  · simp only [Function.update_of_ne hk]

/-- What is not parked is as the class has it. -/
theorem promoted_update (e : Option (MethodDef × Visibility)) (h : d.parked n = none) :
    { d with instances := Function.update d.instances n e : Drafts }.promoted =
      { d.promoted with instances := Function.update d.promoted.instances n e } := by
  simp only [Drafts.promoted, ClassTables.mk.injEq, and_true]
  funext k
  by_cases hk : k = n
  · simp only [hk, h, Function.update_self, Option.none_or]
  · simp only [Function.update_of_ne hk]

theorem promoted_instances (h : d.parked n = none) : d.promoted.instances n = d.instances n := by
  simp only [Drafts.promoted, h, Option.none_or]

/-- A move that does not clash does to the tables that the body leaves what its text says. -/
theorem Move.step_promoted (h : ¬m.Clashes d) :
    (m.step inherited d).map Drafts.promoted = m.apply inherited d.promoted := by
  cases m with
  | define name m => exact congrArg some (promoted_park _)
  | install name m => exact congrArg some (promoted_update _ (Option.not_isSome_iff_eq_none.mp h))
  | aliasAs new old =>
    cases hold : d.parked old with
    | some p =>
      have hshown : d.promoted.instances old = some p := by
        simp only [Drafts.promoted, hold, Option.some_or]
      simp only [step, apply, hold, hshown, Option.some_or, Option.map_some]
      exact congrArg some (promoted_park _)
    | none =>
      have hnew : d.parked new = none :=
        Option.not_isSome_iff_eq_none.mp fun hnew => h ⟨hold, hnew⟩
      simp only [step, apply, hold, promoted_instances hold, Option.map_map]
      congr 1
      funext p
      exact promoted_update _ hnew
  | setVisibility v name =>
    cases hname : d.parked name with
    | some p =>
      have hshown : d.promoted.instances name = some p := by
        simp only [Drafts.promoted, hname, Option.some_or]
      simp only [step, apply, hname, hshown, Option.some_or, Option.map_some]
      exact congrArg some (promoted_park _)
    | none =>
      simp only [step, apply, hname, promoted_instances hname, Option.map_map]
      congr 1
      funext p
      exact promoted_update _ hname
  | copy name =>
    have hname : d.parked name = none := Option.not_isSome_iff_eq_none.mp h
    simp only [step, apply, promoted_instances hname, Option.map_map]
    rfl
  | remove name =>
    have hname : d.parked name = none := Option.not_isSome_iff_eq_none.mp h
    simp only [step, apply, promoted_instances hname, Option.map_map]
    congr 1
    funext p
    exact promoted_update _ hname

/-! ## Rows of moves -/

theorem runMoves_append {σ : Type} {step : Move → σ → Option σ} (ms ms' : List Move) (st : σ) :
    runMoves step (ms ++ ms') st =
      if (runMoves step ms st).2 then runMoves step ms' (runMoves step ms st).1
      else runMoves step ms st := by
  induction ms generalizing st with
  | nil => rfl
  | cons m ms ih =>
    rw [List.cons_append, runMoves, runMoves]
    cases step m st with
    | none => rfl
    | some st' => exact ih st'

/-- Moves that are in harmony leave what the text of the body says. -/
theorem runMoves_promoted {ms : List Move} (h : Harmonious inherited ms d) :
    runMoves (Move.apply inherited) ms d.promoted =
      ((runMoves (Move.step inherited) ms d).1.promoted,
        (runMoves (Move.step inherited) ms d).2) := by
  induction ms generalizing d with
  | nil => rfl
  | cons m ms ih =>
    rw [runMoves, runMoves, ← Move.step_promoted h.1]
    cases hstep : m.step inherited d with
    | none => rfl
    | some d' => exact ih (h.2 d' hstep)

/-- A name that no move is about keeps its meaning. -/
theorem Move.step_of_ne (hn : n ≠ m.name) (hstep : m.step inherited d = some d') :
    d'.instances n = d.instances n ∧ d'.own n = d.own n ∧ d'.parked n = d.parked n := by
  cases m with
  | define name m | install name m =>
    cases hstep
    simp only [Move.name] at hn
    simp only [Function.update_of_ne hn, and_self]
  | aliasAs new old =>
    simp only [Move.name] at hn
    cases hold : d.parked old with
    | some p =>
      simp only [step, hold] at hstep
      cases hstep
      simp only [Function.update_of_ne hn, and_self]
    | none =>
      simp only [step, hold] at hstep
      obtain ⟨p, _, rfl⟩ := Option.map_eq_some_iff.mp hstep
      simp only [Function.update_of_ne hn, and_self]
  | setVisibility v name =>
    simp only [Move.name] at hn
    cases hname : d.parked name with
    | some p =>
      simp only [step, hname] at hstep
      cases hstep
      simp only [Function.update_of_ne hn, and_self]
    | none =>
      simp only [step, hname] at hstep
      obtain ⟨p, _, rfl⟩ := Option.map_eq_some_iff.mp hstep
      simp only [Function.update_of_ne hn, and_self]
  | copy name | remove name =>
    simp only [Move.name] at hn
    obtain ⟨p, _, rfl⟩ := Option.map_eq_some_iff.mp hstep
    simp only [Function.update_of_ne hn, and_self]

theorem runMoves_of_ne {ms : List Move} (hn : ∀ m ∈ ms, n ≠ m.name) (d : Drafts) :
    (runMoves (Move.step inherited) ms d).1.instances n = d.instances n ∧
      (runMoves (Move.step inherited) ms d).1.own n = d.own n ∧
      (runMoves (Move.step inherited) ms d).1.parked n = d.parked n := by
  induction ms generalizing d with
  | nil => exact ⟨rfl, rfl, rfl⟩
  | cons m ms ih =>
    rw [runMoves]
    cases hstep : m.step inherited d with
    | none => exact ⟨rfl, rfl, rfl⟩
    | some d' =>
      obtain ⟨hi, ho, hp⟩ := ih (fun m hm => hn m (List.mem_cons_of_mem _ hm)) d'
      obtain ⟨hi', ho', hp'⟩ := Move.step_of_ne (hn m List.mem_cons_self) hstep
      exact ⟨hi.trans hi', ho.trans ho', hp.trans hp'⟩

end Garnet

/-!
## Methods bound in the scope of a body

A scope binds a method under each name once. When the body ends, the methods of program text move to
the table of the class, where they replace what the class has under their names.
-/

namespace Garnet

/-! ### Scopes -/

namespace Scopes

variable {ss : Scopes} {id i : ScopeId}

theorem scope_modifyScope {f : Scope → Scope} :
    (ss.modifyScope id f).scope i =
      if i = id ∧ id.index < ss.size then f (ss.scope id) else ss.scope i := by
  simp only [scope, modifyScope, Array.getD_eq_getD_getElem?, Array.getElem?_modify]
  by_cases hi : i = id
  · subst hi
    by_cases hlt : i.index < ss.size
    · simp [hlt]
    · simp [hlt]
  · have hne : id.index ≠ i.index := fun h => hi (congrArg ScopeId.mk h.symm)
    simp [hi, hne]

theorem modifyScope_modifyScope {f g : Scope → Scope} :
    (ss.modifyScope id f).modifyScope id g = ss.modifyScope id (g ∘ f) := by
  simp only [modifyScope]
  apply Array.ext
  · simp
  · intro j h₁ h₂
    simp [Array.getElem_modify]
    split <;> rfl

theorem modifyScope_eq_self {f : Scope → Scope} (h : f (ss.scope id) = ss.scope id) :
    ss.modifyScope id f = ss := by
  apply Array.ext
  · simp [modifyScope]
  · intro j h₁ h₂
    simp only [modifyScope, Array.getElem_modify]
    split
    · rename_i hj
      subst hj
      simpa [scope, Array.getD_eq_getD_getElem?, h₂] using h
    · rfl

/-- A name bound in no scope is found from none. -/
theorem findMethod?_eq_none {name : String} (h : ∀ i, ss.pending? i name = none) :
    ss.findMethod? id name = none := by
  unfold findMethod?
  generalize ss.size + 1 = n
  induction n generalizing id with
  | zero => rfl
  | succ n ih =>
    have hid : (ss.scope id).pending.get? name = none := h id
    rw [findMethodOf?, hid]
    cases (ss.scope id).parent with
    | none => rfl
    | some parent => exact ih

end Scopes

/-! ### The end of a body -/

/-- What a bound method becomes in a table. -/
def Pending.entry (p : Pending) : MethodDef × Visibility := (p.method, p.visibility)

namespace Store

variable {s : Store} {holder : Holder}

theorem hasTable_modifyTable {h : Holder} {f : MethodTable → MethodTable} (hh : s.HasTable h) :
    (s.modifyTable holder f).HasTable h := by
  cases h with
  | own v => exact Nat.lt_of_lt_of_eq hh size_modifyTable.symm
  | instances v =>
    rw [HasTable, sameLinks_modifyTable.link]
    exact hh

/-- The methods of program text that were bound come first. -/
theorem lookup_promoteAll {methods : List (String × Pending)} (hh : s.HasTable holder)
    (hnodup : (methods.map (·.1)).Nodup) (hsource : ∀ x ∈ methods, x.2.method.fromSource = true)
    (n : String) :
    ((s.promoteAll holder methods).tableOf holder).lookup n =
      ((methods.lookup n).map Pending.entry).or ((s.tableOf holder).lookup n) := by
  unfold promoteAll
  induction methods generalizing s with
  | nil => rfl
  | cons x methods ih =>
    obtain ⟨name, p⟩ := x
    rw [List.map_cons, List.nodup_cons] at hnodup
    have hp : p.method.fromSource = true := hsource _ List.mem_cons_self
    rw [List.foldl_cons]
    simp only [hp, Bool.not_true, Bool.false_eq_true, if_false]
    rw [ih (hasTable_modifyTable hh) hnodup.2 fun x hx => hsource x (List.mem_cons_of_mem _ hx),
      tableOf_modifyTable hh, if_pos rfl, MethodTable.lookup_insert, List.lookup_cons]
    by_cases hn : n = name
    · have habsent : methods.lookup n = none := by
        refine List.lookup_eq_none_iff.mpr fun y hy => bne_iff_ne.mpr fun he => hnodup.1 ?_
        exact List.mem_map.mpr ⟨y, hy, he.symm.trans hn⟩
      rw [habsent, if_pos hn, hn, beq_self_eq_true]
      rfl
    · rw [if_neg hn, beq_false_of_ne hn]

theorem tableOf_promoteAll_of_ne {methods : List (String × Pending)} {h : Holder}
    (hh : s.HasTable holder) (hne : h ≠ holder) :
    (s.promoteAll holder methods).tableOf h = s.tableOf h := by
  have hkeep := promoteAll_induction (s := s)
    (P := fun t => t.HasTable holder ∧ t.tableOf h = s.tableOf h) holder ⟨hh, rfl⟩
    (fun t f ht => ⟨hasTable_modifyTable ht.1,
      (tableOf_modifyTable ht.1).trans ((if_neg hne).trans ht.2)⟩) methods
  exact hkeep.2

end Store

end Garnet
