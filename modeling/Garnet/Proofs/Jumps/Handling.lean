import Garnet.Proofs.Control.Unwinding
import Garnet.Proofs.Jumps.Build
import Garnet.Proofs.Jumps.Calls

/-!
# Passes and rescue clauses in progress

What the constructs in progress tell of a run: no `next` gets out of all of them, and the innermost
rescue clause among them has taken the exception that is handled.
-/

/-!
## No `next` leaves a program

The code of every store that sessions come to is placed, and so is every program. The run of a
program therefore never ends with `next`: the pass of a loop or the call of a block around it takes
it.
-/

namespace Garnet

namespace Point

variable {A : String → Prop} {p q : Point} {m : Mark} {π : Trail} {s : Store} {e : Expr} {v : Value}

/-- What fits outside of loops and blocks does not end with `next`. -/
theorem not_endsWith_next {Q : p.result → Prop} (h : p.act.Fits A false Q) (hs : p.store.Placed A) :
    ¬p.EndsWith (.next v) := by
  rintro ⟨t, ht⟩
  have hgood := outcome_good h hs
  rw [ht] at hgood
  cases hgood with
  | error hnext _ => cases hnext v rfl

theorem ofProgram_fits (he : e.Placed A Bool.false) :
    (ofProgram s e).act.Fits A false fun _ => True :=
  ⟨he, fun _ => trivial⟩

/-- Only what waits for `next` takes it: nobody is asked for an answer on the way to it. -/
theorem Enters.awaitsNext (he : Enters p m q) (hp : p.Placed A) (hm : m.catches (.next v) = true)
    (hq : q.EndsWith (.next v)) : m = .awaitsNext := by
  cases he with
  | @inspected _ _ _ _ w =>
    have hfits : (Eval.handle (.inspection w)).Placed A false :=
      Eval.handle_placed (r := .inspection w) trivial
    exact absurd hq (not_endsWith_next hfits hp.store)
  | catchNext => rfl
  | _ => cases hm

/-- A `next` that does not leave the program is taken on its way. -/
theorem Running.next_taken (h : Running p π q) (hp : p.Placed A) (hend : ¬p.EndsWith (.next v))
    (hclean : ∀ c ∈ π, c.2 = .ensured → c.1.CleansUp) (hq : q.EndsWith (.next v)) :
    ∃ ρ k π', π = ρ ++ (k, .awaitsNext) :: π' ∧ k.Yields v ∧
      ∀ c ∈ ρ, c.1.EndsWith (.next v) := by
  -- from the inside outward: each construct takes the signal or ends with it
  induction h with
  | start => exact absurd hq hend
  | @step π q m r h he ih =>
    by_cases hm : m.catches (.next v) = true
    · obtain rfl := he.awaitsNext (h.placed hp) hm hq
      exact ⟨[], q, π, rfl, he.yields_next hq, fun _ hc => absurd hc List.not_mem_nil⟩
    · have hpass := he.passes (Bool.eq_false_iff.mpr hm) (hclean _ List.mem_cons_self) hq
      obtain ⟨ρ, k, π', rfl, hk, hρ⟩ :=
        ih (fun c hc => hclean c (List.mem_cons_of_mem _ hc)) hpass
      exact ⟨(q, m) :: ρ, k, π', rfl, hk, List.forall_mem_cons.mpr ⟨hpass, hρ⟩⟩

end Point

/-! ### Sessions -/

namespace Store.Placed

variable {A : String → Prop} {s : Store}

theorem evaluate (hs : s.Placed A) {α : Type} {b : Bool} {Q : α → Prop} {x : Eval α}
    (hx : x.Fits A b Q) : (s.evaluate x).2.Placed A := by
  have hgood := hx.run (Engine.good defaultFuel) hs
  unfold Store.evaluate
  generalize x.run (Engine.ofFuel defaultFuel) s = out at hgood
  cases hgood with
  | ok _ hs => exact hs
  | error _ hs => exact hs

theorem runProgram (hs : s.Placed A) {e : Expr} (he : e.Placed A Bool.false) :
    (s.runProgram e).2.Placed A := by
  have hend : (s.evaluate (Eval.perform (.eval e))).2.Placed A :=
    hs.evaluate (Point.ofProgram_fits (s := s) he)
  unfold Store.runProgram
  generalize s.evaluate (Eval.perform (.eval e)) = out at hend
  split
  · exact hend
  · exact hend
  · split
    · exact hend
    · exact hend
    · exact hend.newException _ _
    · exact hend.newException _ _
    · exact hend.newException _ _

end Store.Placed

/-- The stores that sessions come to whose programs assign no global but those of `A`. -/
inductive Store.Confined (A : String → Prop) : Store → Prop where
  | start (config : Config) (input : List String) : Confined A (.start config input)
  | program {s t e} (h : Confined A s) (ht : t.AssignsOnly A) (he : Expr.ofTree t = .ok e) :
    Confined A (s.runProgram e).2
  | operation {s} {α : Type} (h : Confined A s) (x : Op α) :
    Confined A (s.evaluate (.lift x rfl)).2
  | takeOutput {s} (h : Confined A s) : Confined A s.takeOutput.2

theorem Store.Confined.placed {A : String → Prop} {s : Store} (h : s.Confined A) : s.Placed A := by
  induction h with
  | start config input => exact .start config input
  | program _ ht he ih => exact ih.runProgram (Expr.placed_of_ofTree ht he)
  | operation _ x ih => exact ih.evaluate (b := false) (Act.Fits.op x)
  | takeOutput _ ih => exact ih.around rfl rfl

theorem Tree.assignsOnly_true (t : Tree) : t.AssignsOnly fun _ => True :=
  fun _ _ _ _ _ _ => trivial

/-- Programs may assign any global. -/
theorem Reachable.confined {s : Store} (h : Reachable s) : s.Confined fun _ => True := by
  obtain ⟨config, input, h⟩ := h
  induction h with
  | refl => exact .start config input
  | program _ he ih => exact ih.program (Tree.assignsOnly_true _) he
  | operation _ x ih => exact ih.operation x
  | takeOutput _ ih => exact ih.takeOutput

/-- No `next` reaches the end of a program: the pass of a loop or the call of a block takes it, and
everything in between passes it on. -/
theorem Store.runProgram_next {s : Store} {t : Tree} {e : Expr} (hs : Reachable s)
    (he : Expr.ofTree t = .ok e) :
    (∀ v u, s.evaluate (Eval.perform (.eval e)) ≠ (.error (.signal (.next v)), u)) ∧
    ∀ π q v, (Point.ofProgram s e).Running π q → q.EndsWith (.next v) →
      (∀ c ∈ π, c.2 = .ensured → c.1.CleansUp) →
      ∃ ρ k π', π = ρ ++ (k, .awaitsNext) :: π' ∧ k.Yields v ∧
        ∀ c ∈ ρ, c.1.EndsWith (.next v) := by
  have hfits := Point.ofProgram_fits (s := s) (Expr.placed_of_ofTree t.assignsOnly_true he)
  have hend (v : Value) : ¬(Point.ofProgram s e).EndsWith (.next v) :=
    Point.not_endsWith_next hfits hs.confined.placed
  refine ⟨fun v u h => hend v ⟨u, ?_⟩, fun π q v hq hnext hclean => ?_⟩
  · unfold Store.evaluate at h
    split at h
    · cases h
    · cases h
      assumption
  · exact hq.next_taken ⟨hs.confined.placed, false, _, hfits⟩ (hend v) hclean hnext

/-- A loop whose body is `next`. -/
theorem Store.runProgram_next_loop :
    let t : Tree := ⟨"while", [.node "true" [], .node "next" []]⟩
    let e : Expr := .loop .true (.next .nil) false false 1
    Expr.ofTree t = .ok e ∧ ∃ π k, (Point.ofProgram (.start {} []) e).Running π k ∧
      k.Yields .nil := by
  intro t e
  have he : Expr.ofTree t = .ok e := rfl
  have h := (Point.Running.start (p := .ofProgram (.start {} []) e)).step (.request rfl)
  -- the first pass of the loop
  have h := ((h.step .lift).step (.second rfl)).step .first
  have h := (h.step (.second rfl)).step .first
  have h := ((h.step .catchBreak).step .catchNext).step .first
  -- the evaluation of the body
  have h := (((h.step .first).step (.request rfl)).step .lift).step (.second rfl)
  obtain ⟨ρ, k, π, hπ, hk, _⟩ :=
    (Store.runProgram_next ⟨{}, [], .refl⟩ he).2 _ _ .nil h ⟨_, rfl⟩ (Trail.cleansUp_of_none rfl)
  rw [hπ] at h
  exact ⟨he, π, k, h.split.1, hk⟩

end Garnet

/-!
## The exception that is handled

While the body of a rescue clause runs, `$!` is the exception that the clause has taken. However the
body ends, `$!` is then what it was before. In programs that do not assign `$!` it is therefore the
exception of the innermost rescue clause whose body is in progress, whatever is raised, caught and
called in between.
-/

namespace Garnet

/-- The exception whose rescue clause a construct runs the body of. -/
def Mark.exception? : Mark → Option Value
  | .handling exc => some exc
  | _ => none

/-- The exception of the innermost rescue clause whose body is in progress. -/
def Trail.exception? (π : Trail) : Option Value := π.findSome? (·.2.exception?)

/-! ### Globals -/

namespace Store

theorem globals_modifyTable (s : Store) (holder : Holder) (f : MethodTable → MethodTable) :
    (s.modifyTable holder f).globals = s.globals := by
  cases holder with
  | own | instances => rfl

theorem globals_promoteAll (s : Store) (holder : Holder) (methods : List (String × Pending)) :
    (s.promoteAll holder methods).globals = s.globals := by
  refine foldl_induction methods (P := fun t => t.globals = s.globals) (fun t m _ h => ?_) rfl
  dsimp only
  split
  · exact h
  · rw [globals_modifyTable, h]

theorem globals_start (config : Config) (input : List String) :
    (start config input).globals = bare.globals := by
  have hbase : base.globals = bare.globals :=
    base_induction (P := fun t => t.globals = bare.globals) rfl (fun _ _ _ _ h => h)
      fun t _ e _ _ _ h => (globals_modifyTable t e.home _).trans h
  exact start_induction (P := fun t => t.globals = bare.globals) config input hbase
    (fun _ h => h) (fun _ _ _ _ h => h) fun _ _ h => h

/-- Nothing is handled at the start. -/
theorem errorInfo_start (config : Config) (input : List String) :
    (start config input).errorInfo = .nil := by
  rw [errorInfo, globals_start]
  rfl

theorem errorInfo_setErrorInfo (s : Store) (v : Value) : (s.setErrorInfo v).errorInfo = v := by
  rw [errorInfo, setErrorInfo, Dict.get?_insert, if_pos rfl]
  rfl

end Store

namespace Change

variable {c : Change} {s : Store}

/-- The globals stay as they are unless one is assigned. -/
theorem globals_apply (hc : ∀ name v, c ≠ .setGlobal name v) :
    (c.apply s).globals = s.globals := by
  cases c with
  | setGlobal name v => exact absurd rfl (hc name v)
  | define | setVisibility | eraseMethod => exact s.globals_modifyTable _ _
  | promote => exact Store.globals_promoteAll _ _ _
  | adopt =>
    simp only [Change.apply]
    split
    · exact s.globals_modifyTable _ _
    · rfl
  | subclass =>
    simp only [Change.apply]
    split
    · obtain ⟨m, -, -, h⟩ := Store.subclass_eq_ok ‹_›
      cases h
      rfl
    · rfl
  | copyClass =>
    simp only [Change.apply]
    split
    · obtain ⟨m, -, h⟩ := Store.copyClass_eq_ok ‹_›
      cases h
      rfl
    · rfl
  | includeModule =>
    simp only [Change.apply]
    split
    · obtain ⟨m, -, -, ⟨-, rfl⟩ | rfl⟩ := Store.includeModule_eq_ok ‹_› <;> rfl
    · rfl
  | extendObject =>
    simp only [Change.apply]
    split
    · obtain ⟨-, rfl | rfl⟩ := Store.extendObject_eq_ok ‹_› <;> rfl
    · rfl
  | allocInteger | allocSymbol | instantiate | copyObject | allocLambda | aliasMethod
  | aliasPending | aliasVisible =>
    simp only [Change.apply]
    split <;> rfl
  | _ => rfl

/-- A global that may not be assigned keeps its value. -/
theorem Placed.get?_globals {A : String → Prop} (h : c.Placed A) {n : String} (hn : ¬A n) :
    (c.apply s).globals.get? n = s.globals.get? n := by
  by_cases hc : ∃ name v, c = .setGlobal name v
  · obtain ⟨name, v, rfl⟩ := hc
    have hname : n ≠ name := fun he => hn (he ▸ h)
    exact (Dict.get?_insert ..).trans (if_neg hname)
  · rw [globals_apply fun name v he => hc ⟨name, v, he⟩]

end Change

/-! ### Runs -/

namespace Store

variable {s : Store} {c : Change}

theorem errorInfo_apply (h : c.Placed (· ≠ "$!")) : (c.apply s).errorInfo = s.errorInfo := by
  rw [errorInfo, h.get?_globals (not_not.mpr rfl), errorInfo]

/-- What runs on a store leaves `$!` as it is once its changes do. -/
theorem errorInfo_carried : Carried fun s t => t.errorInfo = s.errorInfo where
  refl _ := rfl
  trans h h' := h'.trans h
  exception _ _ _ := rfl
  activate _ := rfl
  within h := h
  deeper h := h
  handling _ := errorInfo_setErrorInfo _ _

end Store

namespace Point

variable {p q : Point} {m : Mark} {π : Trail} {c : Change}

theorem Changes.placed {A : String → Prop} (hc : p.Changes c) (hp : p.Placed A) : c.Placed A := by
  obtain ⟨-, b, Q, h⟩ := hp
  cases hc with
  | mk => exact h.1

/-- However a point ends, `$!` is what it was when it began. -/
theorem Placed.errorInfo_outcome (hp : p.Placed (· ≠ "$!")) :
    p.outcome.store.errorInfo = p.store.errorInfo :=
  Store.errorInfo_carried.outcome p fun _ _ _ hq hc =>
    Store.errorInfo_apply (hc.placed (hq.placed hp))

/-- A point is entered with the exception of the clause whose body it is, or with `$!` as it was. -/
theorem Enters.errorInfo (he : Enters p m q) (hp : p.Placed (· ≠ "$!")) :
    q.store.errorInfo = m.exception?.getD p.store.errorInfo := by
  cases he with
  | second hx =>
    -- the first part has ended, with `$!` as it began
    have hfirst := (Enters.first.placed hp).errorInfo_outcome
    rw [hx] at hfirst
    exact hfirst
  | cleanup => exact (Enters.ensure.placed hp).errorInfo_outcome
  | handling => exact Store.errorInfo_setErrorInfo _ _
  | _ => rfl

theorem Running.errorInfo (h : Running p π q) (hp : p.Placed (· ≠ "$!")) :
    q.store.errorInfo = π.exception?.getD p.store.errorInfo := by
  induction h with
  | start => rfl
  | @step π q m r h he ih =>
    rw [he.errorInfo (h.placed hp), ih, Trail.exception?, Trail.exception?, List.findSome?_cons]
    cases m.exception? <;> rfl

end Point

/-- In a program that does not assign `$!` it is, at every point, the exception of the innermost
rescue clause whose body is in progress, or what it was before the run when there is none. When a
point ends, in whatever way, it is what it was when the point began. -/
theorem Store.runProgram_errorInfo {s : Store} {t : Tree} {e : Expr}
    (hs : s.Confined (· ≠ "$!")) (ht : t.AssignsOnly (· ≠ "$!")) (he : Expr.ofTree t = .ok e) :
    (∀ π q, (Point.ofProgram s e).Running π q →
      q.store.errorInfo = π.exception?.getD s.errorInfo ∧
        q.outcome.store.errorInfo = q.store.errorInfo) ∧
    (s.runProgram e).2.errorInfo = s.errorInfo := by
  have hfits := Point.ofProgram_fits (s := s) (Expr.placed_of_ofTree ht he)
  have hp : (Point.ofProgram s e).Placed (· ≠ "$!") := ⟨hs.placed, false, _, hfits⟩
  refine ⟨fun π q hq => ⟨hq.errorInfo hp, (hq.placed hp).errorInfo_outcome⟩, ?_⟩
  exact (errorInfo_carried.runProgram s e).trans hp.errorInfo_outcome

/-- A program whose rescue clause gives what it handles. -/
theorem Store.runProgram_errorInfo_rescue :
    let s := Store.start {} []
    let t : Tree := ⟨"rescue", [.node "zsuper" [],
      .node "resbody" [.absent, .absent, .node "gvar" [.text "$!"]]]⟩
    let e : Expr := .rescue (.super none .none) [⟨none, none, .gvar "$!"⟩] none
    Expr.ofTree t = .ok e ∧
      (∀ π q, (Point.ofProgram s e).Running π q → q.store.errorInfo = π.exception?.getD .nil) ∧
      (s.runProgram e).2.errorInfo = .nil := by
  intro s t e
  have he : Expr.ofTree t = .ok e := rfl
  have hnil : s.errorInfo = .nil := errorInfo_start {} []
  obtain ⟨hpoints, hend⟩ := runProgram_errorInfo (.start {} []) (by decide : t.AssignsOnly _) he
  refine ⟨he, fun π q hq => ?_, hend.trans hnil⟩
  rw [(hpoints π q hq).1, hnil]

end Garnet
