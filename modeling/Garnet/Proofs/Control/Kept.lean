import Garnet.Proofs.Control.Point
import Garnet.Proofs.Edited

/-!
# What every run keeps

A relation between the store before and the store after holds of every run once it holds of every
change, of a new exception and of a new activation, and survives the opening of a body and the
entering of a call. The induction over runs is made here once for all such relations.
-/

namespace Garnet

/-- The relation holds of a run whose changes it holds of. -/
structure Carried (R : Store → Store → Prop) : Prop where
  refl : ∀ s, R s s
  trans : ∀ {s t u}, R s t → R t u → R s u
  exception : ∀ (s : Store) (c : CoreClass) message, R s (s.newException c.value message).2
  activate : ∀ s : Store, R s s.activate
  within : ∀ {s t : Store} {st scope}, R (s.enter st scope) t → R s t.leave
  deeper : ∀ {s t : Store}, R { s with depth := s.depth + 1 } t →
    R s { t with depth := t.depth - 1 }
  handling : ∀ {s t : Store} {exc}, R (s.setErrorInfo exc) t → R s (t.setErrorInfo s.errorInfo)

/-- The relation holds of every run. -/
structure Kept (R : Store → Store → Prop) : Prop extends Carried R where
  change : ∀ {ℓ : Layer} (c : Change) (s : Store), c.allowed ℓ = true → R s (c.apply s)

variable {R : Store → Store → Prop}

theorem Carried.outcome (C : Carried R) (p : Point)
    (h : ∀ π q c, p.Running π q → q.Changes c → R q.store (c.apply q.store)) :
    R p.store p.outcome.store := by
  induction p using Point.induction with
  | step p ih =>
    have inside {m q} (he : Point.Enters p m q) : R q.store q.outcome.store :=
      ih m q he fun π r c hr => h _ r c (.enter he hr)
    obtain ⟨n, x, s⟩ := p
    cases x with
    | pure | fuel | exhausted | view | signal | leave => exact C.refl s
    | change c f => exact h _ _ c .start .mk
    | fail c message => exact C.exception s _ _
    | lift x => exact inside (q := ⟨n, x, s⟩) .lift
    | bind x f =>
      have hx := inside .first
      simp only [Point.outcome, Act.run] at hx ⊢
      cases hrun : x.run (.ofFuel n) s with
      | ok a t => rw [hrun] at hx; exact C.trans hx (inside (.second hrun))
      | error stop t => rw [hrun] at hx; exact hx
    | perform r f hl =>
      cases n with
      | zero => exact C.refl s
      | succ n =>
        simp only [Point.outcome, Act.run, Engine.ofFuel, Engine.run]
        cases hr : r.isCall with
        | false =>
          have hin := inside (.request hr)
          simp only [Point.outcome, Engine.ofFuel] at hin
          simp only [Bool.false_eq_true, if_false]
          split <;> rename_i hrun <;> rw [hrun] at hin <;> exact hin
        | true =>
          simp only [if_true, Engine.deeper]
          by_cases hs : s.depth < s.config.maxDepth
          · have hin := inside (.call hr hs)
            simp only [Point.outcome, Engine.ofFuel] at hin
            simp only [ge_iff_le, Nat.not_le_of_lt hs, if_false]
            split <;> rename_i hrun <;> split at hrun <;> rename_i hbody <;>
              rw [hbody] at hin <;> cases hrun <;> exact C.deeper hin
          · simp only [ge_iff_le, Nat.le_of_not_lt hs, if_true]
            exact C.exception s _ _
    | rescue x f =>
      have hin := inside .rescue
      simp only [Point.outcome, Act.run] at hin ⊢
      split <;> rename_i hrun <;> rw [hrun] at hin <;> exact hin
    | inspected v f =>
      by_cases hv : (s.payload v).isNumberOrNil = true
      · have hr : (Request.inspection v).isCall = false := rfl
        cases n with
        | zero =>
          simp only [Point.outcome, Act.run, if_pos hv]
          exact C.refl s
        | succ n =>
          have hin := inside (.inspected hv)
          simp only [Point.outcome, Engine.ofFuel] at hin
          simp only [Point.outcome, Act.run, if_pos hv, Engine.ofFuel, Engine.run, hr,
            Bool.false_eq_true, if_false]
          split <;> rename_i hrun <;> rw [hrun] at hin <;> exact hin
      · simp only [Point.outcome, Act.run, if_neg hv]
        exact C.refl s
    | ensure x cleanup =>
      have hx := inside .ensure
      simp only [Point.outcome, Act.run] at hx ⊢
      split <;> rename_i hrun <;> rw [hrun] at hx
      · have hc := inside (.cleanup fun t => by
          simp only [Point.outcome, hrun]
          intro he
          cases he)
        simp only [Point.outcome, hrun, Ending.store] at hc
        split <;> rename_i hend <;> rw [hend] at hc <;> exact C.trans hx hc
      · have hc := inside (.cleanup fun t => by
          simp only [Point.outcome, hrun]
          intro he
          cases he)
        simp only [Point.outcome, hrun, Ending.store] at hc
        split <;> rename_i hend <;> rw [hend] at hc <;> exact C.trans hx hc
      · exact hx
    | within st scope x =>
      have hin := inside .within
      simp only [Point.outcome, Act.run] at hin ⊢
      split <;> rename_i hrun <;> rw [hrun] at hin <;> exact C.within hin
    | activate x f =>
      have hin := C.trans (C.activate s) (inside .activate)
      simp only [Point.outcome, Act.run] at hin ⊢
      split <;> rename_i hrun <;> rw [hrun] at hin
      · exact hin
      · split <;> exact hin
      · exact hin
    | catchNext x f =>
      have hin := inside .catchNext
      simp only [Point.outcome, Act.run] at hin ⊢
      split
      · rename_i hrun; rw [hrun] at hin; exact hin
      · exact hin
    | catchBreak site x f =>
      have hin := inside .catchBreak
      simp only [Point.outcome, Act.run] at hin ⊢
      split
      · rename_i hrun; rw [hrun] at hin; split <;> exact hin
      · exact hin
    | handling exc x =>
      have hin := inside .handling
      simp only [Point.outcome, Act.run] at hin ⊢
      split <;> rename_i hrun <;> rw [hrun] at hin <;> exact C.handling hin

/-- A program ends with the store of its run, or with an exception made there. -/
theorem Store.runProgram_store (s : Store) (e : Expr) :
    (s.runProgram e).2 = (Point.ofProgram s e).outcome.store ∨
      ∃ (c : CoreClass) (message : String), (s.runProgram e).2 =
        ((Point.ofProgram s e).outcome.store.newException c.value message).2 := by
  simp only [Store.runProgram, Store.evaluate, Point.outcome, Point.ofProgram]
  cases (Eval.perform (.eval e) : Eval Value).run (.ofFuel defaultFuel) s with
  | ok v t => exact .inl rfl
  | error stop t =>
    cases stop with
    | exhausted => exact .inl rfl
    | signal sig =>
      cases sig with
      | raise exc => exact .inl rfl
      | next v => exact .inr ⟨_, _, rfl⟩
      | breakTo site v => exact .inr ⟨_, _, rfl⟩
      | returnTo target v =>
        cases target with
        | none => exact .inl rfl
        | some id => exact .inr ⟨_, _, rfl⟩

theorem Carried.runProgram (C : Carried R) (s : Store) (e : Expr) :
    R (Point.ofProgram s e).outcome.store (s.runProgram e).2 := by
  obtain h | ⟨c, message, h⟩ := s.runProgram_store e
  · exact h ▸ C.refl _
  · exact h ▸ C.exception _ c message

namespace Kept

/-- Every run of every point keeps the relation. -/
theorem outcome (K : Kept R) (p : Point) : R p.store p.outcome.store := by
  refine K.toCarried.outcome p fun π q c _ hc => ?_
  cases hc with
  | @mk _ _ _ _ c _ hl => exact K.change c _ hl

theorem outcome_ok (K : Kept R) {p : Point} {a : p.result} {t : Store}
    (h : p.outcome = .ok a t) : R p.store t := by
  have ht := K.outcome p
  rw [h] at ht
  exact ht

theorem evaluate (K : Kept R) {α : Type} (s : Store) (x : Eval α) : R s (s.evaluate x).2 := by
  have h := K.outcome ⟨defaultFuel, x, s⟩
  simp only [Store.evaluate, Point.outcome] at h ⊢
  split <;> simp_all only [Ending.store]

theorem runProgram (K : Kept R) (s : Store) (e : Expr) : R s (s.runProgram e).2 :=
  K.trans (K.outcome (.ofProgram s e)) (K.toCarried.runProgram s e)

end Kept

/-! ## What lasts -/

/-- The heap is the same, with what is interned there, and activations are numbered upward. -/
structure SameHeap (s t : Store) : Prop where
  objects : t.objects = s.objects
  symbols : t.symbols = s.symbols
  config : t.config = s.config
  lastActivation_le : s.lastActivation ≤ t.lastActivation

theorem SameHeap.rfl {s : Store} : SameHeap s s := ⟨.refl _, .refl _, .refl _, Nat.le_refl _⟩

namespace Point.Enters

variable {p q : Point} {m : Mark}

/-- What a point is entered with: the store of the point that enters it, apart from the stacks and
the numbering, or what a part that was entered before it has left. -/
theorem store (he : Enters p m q) :
    SameHeap p.store q.store ∨
      ∃ m' r, Enters p m' r ∧ r.store = p.store ∧ r.outcome.store = q.store := by
  cases he with
  | second hx =>
    refine .inr ⟨_, _, .first, rfl, ?_⟩
    rw [hx]
    rfl
  | cleanup => exact .inr ⟨_, _, .ensure, rfl, rfl⟩
  | activate => exact .inl ⟨rfl, rfl, rfl, Nat.le_succ _⟩
  | _ => exact .inl ⟨rfl, rfl, rfl, Nat.le_refl _⟩

/-- What is left when a point has ended that was entered: the same, or what is left by a part that
is entered after it. -/
theorem outcome_store (he : Enters p m q) :
    SameHeap q.outcome.store p.outcome.store ∨
      ∃ m' r, Enters p m' r ∧ r.store = q.outcome.store ∧ r.outcome.store = p.outcome.store := by
  cases he with
  | @first n ℓ α β s x f =>
    simp only [outcome, Act.run]
    cases hx : x.run (.ofFuel n) s with
    | ok a t => exact .inr ⟨_, _, .second hx, rfl, rfl⟩
    | error stop t => exact .inl .rfl
  | @second n ℓ α β s t a x f hx =>
    simp only [outcome, Act.run] at hx ⊢
    rw [hx]
    exact .inl .rfl
  | lift => exact .inl .rfl
  | request hr =>
    simp only [outcome, Act.run, Engine.ofFuel, Engine.run, hr, Bool.false_eq_true, if_false]
    split <;> rename_i h <;> rw [h] <;> exact .inl .rfl
  | call hr hs =>
    simp only [outcome, Act.run, Engine.ofFuel, Engine.run, hr, if_true, Engine.deeper,
      if_neg (Nat.not_le_of_lt hs)]
    split <;> rename_i h <;> split at h <;> rename_i h' <;> rw [h'] <;> cases h <;>
      exact .inl ⟨rfl, rfl, rfl, Nat.le_refl _⟩
  | rescue =>
    simp only [outcome, Act.run]
    split <;> rename_i h <;> rw [h] <;> exact .inl .rfl
  | @inspected n ℓ α s v f hv =>
    have hr : (Request.inspection v).isCall = false := rfl
    simp only [outcome, Act.run, Engine.ofFuel, if_pos hv, Engine.run, hr, Bool.false_eq_true,
      if_false]
    split <;> rename_i h <;> rw [h] <;> exact .inl .rfl
  | @ensure n ℓ α s x cleanup =>
    cases hx : x.run (.ofFuel n) s with
    | ok a t =>
      have hended : ∀ u, outcome ⟨n, x, s⟩ ≠ .error .exhausted u := fun u hu => by
        simp only [outcome, hx] at hu
        cases hu
      refine .inr ⟨_, _, .cleanup hended, rfl, ?_⟩
      simp only [outcome, Act.run, hx, Ending.store]
      split <;> rename_i hc <;> rw [hc]
    | error stop t =>
      cases stop with
      | signal sig =>
        have hended : ∀ u, outcome ⟨n, x, s⟩ ≠ .error .exhausted u := fun u hu => by
          simp only [outcome, hx] at hu
          cases hu
        refine .inr ⟨_, _, .cleanup hended, rfl, ?_⟩
        simp only [outcome, Act.run, hx, Ending.store]
        split <;> rename_i hc <;> rw [hc]
      | exhausted =>
        simp only [outcome, Act.run, hx]
        exact .inl .rfl
  | cleanup h =>
    simp only [outcome, Act.run] at h ⊢
    split
    · rename_i hx
      rw [hx]
      dsimp only [Ending.store]
      split <;> rename_i hc <;> rw [hc] <;> exact .inl .rfl
    · rename_i hx
      rw [hx]
      dsimp only [Ending.store]
      split <;> rename_i hc <;> rw [hc] <;> exact .inl .rfl
    · rename_i hx
      exact absurd hx (h _)
  | within =>
    simp only [outcome, Act.run]
    split <;> rename_i h <;> rw [h] <;> exact .inl ⟨rfl, rfl, rfl, Nat.le_refl _⟩
  | activate =>
    simp only [outcome, Act.run]
    split
    · rename_i h; rw [h]; exact .inl .rfl
    · rename_i h; rw [h]; split <;> exact .inl .rfl
    · rename_i h; rw [h]; exact .inl .rfl
  | catchNext =>
    simp only [outcome, Act.run]
    split
    · rename_i h; rw [h]; exact .inl .rfl
    · exact .inl .rfl
  | catchBreak =>
    simp only [outcome, Act.run]
    split
    · rename_i h; rw [h]; split <;> exact .inl .rfl
    · exact .inl .rfl
  | handling =>
    simp only [outcome, Act.run]
    split <;> rename_i h <;> rw [h] <;> exact .inl ⟨rfl, rfl, rfl, Nat.le_refl _⟩

end Point.Enters

/-- The relation depends on the heap only, apart from the numbering of activations. -/
structure OfHeap (R : Store → Store → Prop) : Prop where
  trans : ∀ {s t u}, R s t → R t u → R s u
  of_same : ∀ {s t : Store}, SameHeap s t → R s t
  exception : ∀ (s : Store) (c : CoreClass) message, R s (s.newException c.value message).2

/-- The relation holds of every run, and between the beginnings and between the ends of points
inside each other. -/
structure Lasting (R : Store → Store → Prop) : Prop extends OfHeap R where
  change : ∀ {ℓ : Layer} (c : Change) (s : Store), c.allowed ℓ = true → R s (c.apply s)

theorem OfHeap.carried (H : OfHeap R) : Carried R where
  refl _ := H.of_same .rfl
  trans := H.trans
  exception := H.exception
  activate _ := H.of_same ⟨rfl, rfl, rfl, Nat.le_succ _⟩
  within {s t st scope} h := by
    have hin : R s (s.enter st scope) := H.of_same ⟨rfl, rfl, rfl, Nat.le_refl _⟩
    exact H.trans (H.trans hin h) (H.of_same ⟨rfl, rfl, rfl, Nat.le_refl _⟩)
  deeper {s t} h := by
    have hin : R s { s with depth := s.depth + 1 } := H.of_same ⟨rfl, rfl, rfl, Nat.le_refl _⟩
    exact H.trans (H.trans hin h) (H.of_same ⟨rfl, rfl, rfl, Nat.le_refl _⟩)
  handling {s t exc} h := by
    have hin : R s (s.setErrorInfo exc) := H.of_same ⟨rfl, rfl, rfl, Nat.le_refl _⟩
    exact H.trans (H.trans hin h) (H.of_same ⟨rfl, rfl, rfl, Nat.le_refl _⟩)

namespace OfHeap

open Point

variable {p q : Point} {m : Mark} {π : Trail}

theorem refl (H : OfHeap R) (s : Store) : R s s := H.of_same .rfl

/-- A point is entered with the store of the point that enters it, or after what ran inside of that
one before. -/
theorem enters (H : OfHeap R) (he : Enters p m q)
    (hin : ∀ m r, Enters p m r → R r.store r.outcome.store) : R p.store q.store := by
  obtain h | ⟨m', r, hr, hstart, hend⟩ := he.store
  · exact H.of_same h
  · exact hstart ▸ hend ▸ hin m' r hr

/-- The end of a point that was entered comes before the end of the point that entered it. -/
theorem enters_outcome (H : OfHeap R) (he : Enters p m q)
    (hin : ∀ m r, Enters p m r → R r.store r.outcome.store) :
    R q.outcome.store p.outcome.store := by
  obtain h | ⟨m', r, hr, hstart, hend⟩ := he.outcome_store
  · exact H.of_same h
  · exact hstart ▸ hend ▸ hin m' r hr

end OfHeap

namespace Lasting

open Point

variable {p q : Point} {m : Mark} {π : Trail}

theorem kept (L : Lasting R) : Kept R := ⟨L.toOfHeap.carried, L.change⟩

theorem enters (L : Lasting R) (he : Enters p m q) : R p.store q.store :=
  L.toOfHeap.enters he fun _ r _ => L.kept.outcome r

theorem running (L : Lasting R) (h : Running p π q) : R p.store q.store := by
  induction h with
  | start => exact L.refl _
  | step _ he ih => exact L.trans ih (L.enters he)

theorem enters_outcome (L : Lasting R) (he : Enters p m q) : R q.outcome.store p.outcome.store :=
  L.toOfHeap.enters_outcome he fun _ r _ => L.kept.outcome r

theorem running_outcome (L : Lasting R) (h : Running p π q) :
    R q.outcome.store p.outcome.store := by
  induction h with
  | start => exact L.refl _
  | step _ he ih => exact L.trans (L.enters_outcome he) ih

end Lasting

/-! ## The stacks -/

/-- The stacks and the depth of calls are the same. -/
structure Level (s t : Store) : Prop where
  frames : t.frames = s.frames
  scopeStack : t.scopeStack = s.scopeStack
  depth : t.depth = s.depth
  config : t.config = s.config

namespace Level

variable {s t u : Store}

theorem rfl : Level s s := ⟨.refl _, .refl _, .refl _, .refl _⟩

theorem trans (h : Level s t) (h' : Level t u) : Level s u :=
  ⟨h'.frames.trans h.frames, h'.scopeStack.trans h.scopeStack, h'.depth.trans h.depth,
    h'.config.trans h.config⟩

theorem depth_lt (h : Level s t) (hs : s.depth < s.config.maxDepth) :
    t.depth < t.config.maxDepth := by
  rw [h.depth, h.config]
  exact hs

theorem of_edited (h : Edited s t) : Level s t := by
  induction h with
  | refl => exact rfl
  | alloc _ _ _ ih | integer _ _ _ ih | intern _ _ _ ih | modify _ _ _ _ ih =>
    exact ⟨ih.frames, ih.scopeStack, ih.depth, ih.config⟩
  | around _ hs hd hc _ _ _ ih => exact ih.trans ⟨hs.1, hs.2, hd, hc⟩

theorem kept : Kept Level where
  refl _ := rfl
  trans := trans
  change c _ hc := of_edited (.change c hc)
  exception _ _ _ := of_edited (.newException _ _)
  activate _ := ⟨.refl _, .refl _, .refl _, .refl _⟩
  within h := by
    refine ⟨?_, ?_, h.depth, h.config⟩
    · rw [Store.leave, h.frames]; exact .refl _
    · rw [Store.leave, h.scopeStack]; exact .refl _
  deeper h := by
    refine ⟨h.frames, h.scopeStack, ?_, h.config⟩
    rw [h.depth]; exact Nat.add_sub_cancel _ 1
  handling h := ⟨h.frames, h.scopeStack, h.depth, h.config⟩

theorem base_depth : Store.base.depth = 0 := (of_edited .base).depth

theorem start_depth (config : Config) (input : List String) :
    (Store.start config input).depth = 0 := by
  simp only [Store.start, (of_edited .defineFloats).depth, base_depth]

end Level

end Garnet
