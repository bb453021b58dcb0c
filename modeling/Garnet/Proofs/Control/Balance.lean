import Garnet.Proofs.Control.Kept

/-!
# Balanced stacks

At every point of a run the stacks hold the frames and scopes of the bodies in progress on top of
those the run began with, and the depth counts the calls in progress. However a run ends, both are
as they were.
-/

namespace Garnet

theorem CoreClass.eq_systemStackError {c : CoreClass}
    (h : c.value = CoreClass.systemStackError.value) : c = .systemStackError := by
  cases c <;> first | rfl | exact absurd h (by decide)

namespace Point

variable {p q : Point} {m : Mark} {π : Trail}

/-- What the construct at a point adds to the stacks and to the depth for the point it enters. -/
structure Raised (π : Trail) (s t : Store) : Prop where
  frames : t.frames = π.frames ++ s.frames
  scopeStack : t.scopeStack = π.scopes ++ s.scopeStack
  depth : t.depth = s.depth + π.calls
  config : t.config = s.config

theorem Enters.raised (h : Enters p m q) : Raised [(p, m)] p.store q.store := by
  cases h with
  | second hx =>
    have h := Level.kept.outcome_ok hx
    exact ⟨h.frames, h.scopeStack, h.depth, h.config⟩
  | @cleanup n _ _ s x cleanup =>
    have h := Level.kept.outcome ⟨n, x, s⟩
    exact ⟨h.frames, h.scopeStack, h.depth, h.config⟩
  | request hr => exact ⟨rfl, rfl, by simp [Trail.calls, Mark.isCall, hr], rfl⟩
  | call hr => exact ⟨rfl, rfl, by simp [Trail.calls, Mark.isCall, hr], rfl⟩
  | _ => exact ⟨rfl, rfl, rfl, rfl⟩

theorem Running.raised (h : Running p π q) : Raised π p.store q.store := by
  induction h with
  | start => exact ⟨rfl, rfl, rfl, rfl⟩
  | @step π q m r _ he ih =>
    have h := he.raised
    refine ⟨?_, ?_, ?_, h.config.trans ih.config⟩
    · rw [h.frames, ih.frames, Trail.frames_cons (q, m) π, List.append_assoc]
    · rw [h.scopeStack, ih.scopeStack, Trail.scopes_cons (q, m) π, List.append_assoc]
    · rw [h.depth, ih.depth, Trail.calls_cons (q, m) π]
      omega

theorem Running.depth_le (h : Running p π q) (hp : p.store.depth ≤ p.store.config.maxDepth) :
    q.store.depth ≤ q.store.config.maxDepth := by
  induction h with
  | start => exact hp
  | @step π q m r _ he ih =>
    have h := he.raised
    rw [h.config]
    cases he with
    | call _ hs => exact hs
    | request hr => exact ih
    | _ => rw [h.depth]; exact ih

/-! ## Errors of the language itself -/

/-- A point that performs a request, with fuel left for it. -/
inductive Performs : Point → Request → Prop where
  | mk {n ℓ α s r} {f : Value → α} {h : r.allowed ℓ = true} :
    Performs ⟨n + 1, (.perform r f h : Act ℓ α), s⟩ r

/-- The point itself ends with an exception of this class: it enters no other point, and the
exception was not there before. -/
def Raises (p : Point) (c : CoreClass) : Prop :=
  (∀ m q, ¬Enters p m q) ∧ ∃ exc t, p.outcome = .error (.signal (.raise exc)) t ∧
    p.store.objects.size ≤ exc.index ∧ t.classOf exc = c.value

theorem outcome_fail {n ℓ α s} (c : CoreClass) (message : String) (h : c ≠ .systemStackError) :
    outcome ⟨n, (.fail c message h : Act ℓ α), s⟩ =
      .error (.signal (.raise (s.newException c.value message).1))
        (s.newException c.value message).2 :=
  rfl

theorem Raises.call (h : p.Raises .systemStackError) :
    ∃ r, p.Performs r ∧ r.isCall = true ∧ p.store.config.maxDepth ≤ p.store.depth := by
  obtain ⟨leaf, exc, t, hout, hnew, hcls⟩ := h
  obtain ⟨n, act, s⟩ := p
  cases act with
  | pure | fuel | exhausted | view | change | leave => cases hout
  | bind => exact absurd .first (leaf _ _)
  | lift => exact absurd .lift (leaf _ _)
  | rescue => exact absurd .rescue (leaf _ _)
  | ensure => exact absurd .ensure (leaf _ _)
  | within => exact absurd .within (leaf _ _)
  | activate => exact absurd .activate (leaf _ _)
  | catchNext => exact absurd .catchNext (leaf _ _)
  | catchBreak => exact absurd .catchBreak (leaf _ _)
  | handling => exact absurd .handling (leaf _ _)
  | fail c message hc =>
    simp only [outcome_fail, Ending.error.injEq, Stop.signal.injEq, Signal.raise.injEq] at hout
    rw [← hout.1, ← hout.2, Store.classOf_newException] at hcls
    exact absurd (CoreClass.eq_systemStackError hcls) hc
  | signal sig =>
    cases hout
    rw [Store.classOf, Store.object_of_size_le hnew] at hcls
    exact absurd hcls (by decide)
  | perform r f hr =>
    cases n with
    | zero => cases hout
    | succ n =>
      cases hc : r.isCall with
      | false => exact absurd (.request hc) (leaf _ _)
      | true =>
        by_cases hs : s.depth < s.config.maxDepth
        · exact absurd (.call hc hs) (leaf _ _)
        · exact ⟨r, .mk, hc, Nat.le_of_not_lt hs⟩
  | inspected v f =>
    by_cases hv : (s.payload v).isNumberOrNil = true
    · cases n with
      | zero =>
        simp only [outcome, Act.run, if_pos hv] at hout
        cases hout
      | succ n => exact absurd (.inspected hv) (leaf _ _)
    · simp only [outcome, Act.run, if_neg hv] at hout
      cases hout

theorem Performs.raises {r : Request} (h : p.Performs r) (hr : r.isCall = true)
    (hp : p.store.config.maxDepth ≤ p.store.depth) : p.Raises .systemStackError := by
  cases h with
  | @mk n ℓ α s r f hl =>
    refine ⟨fun m q he => ?_, _, _, ?_, ?_,
      s.classOf_newException CoreClass.systemStackError.value "stack level too deep"⟩
    · cases he with
      | request hr' => rw [hr] at hr'; cases hr'
      | call _ hs => exact absurd hp (Nat.not_le_of_lt hs)
    · have hdepth : s.depth ≥ s.config.maxDepth := hp
      simp only [outcome, Act.run, Engine.ofFuel, Engine.run, if_pos hr, Engine.deeper,
        if_pos hdepth, Engine.tooDeep]
    · rw [Store.newException_fst]
      exact Nat.le_succ _

end Point

theorem Reachable.depth {s : Store} (h : Reachable s) : s.depth = 0 := by
  obtain ⟨config, input, h⟩ := h
  induction h with
  | refl => exact Level.start_depth config input
  | program _ _ ih => exact (Level.kept.runProgram _ _).depth.trans ih
  | operation _ x ih => exact (Level.kept.evaluate _ _).depth.trans ih
  | takeOutput _ ih => exact ih

/-- However a program ends, the stacks are as they were. While it runs, the depth counts the calls
in progress and stays within its limit, and the language raises a stack error of its own exactly
where a call is asked for at the limit. -/
theorem Store.runProgram_balanced {s : Store} (hs : Reachable s) (e : Expr) :
    (s.runProgram e).2.frames = s.frames ∧ (s.runProgram e).2.scopeStack = s.scopeStack ∧
    (s.runProgram e).2.depth = s.depth ∧
    ∀ π q, (Point.ofProgram s e).Running π q →
      q.store.depth = s.depth + π.calls ∧ q.outcome.store.depth = q.store.depth ∧
      q.store.depth ≤ s.config.maxDepth ∧
      (q.Raises .systemStackError ↔
        ∃ r, q.Performs r ∧ r.isCall = true ∧ q.store.depth = s.config.maxDepth) := by
  have h := Level.kept.runProgram s e
  refine ⟨h.frames, h.scopeStack, h.depth, fun π q hq => ?_⟩
  have hr := hq.raised
  have hconfig : q.store.config = s.config := hr.config
  have hle : q.store.depth ≤ s.config.maxDepth := by
    rw [← hconfig]
    exact hq.depth_le (hs.depth ▸ Nat.zero_le _)
  refine ⟨hr.depth, (Level.kept.outcome q).depth, hle, fun hraise => ?_, ?_⟩
  · obtain ⟨r, hperf, hcall, hmax⟩ := hraise.call
    rw [hconfig] at hmax
    exact ⟨r, hperf, hcall, Nat.le_antisymm hle hmax⟩
  · rintro ⟨r, hperf, hcall, hmax⟩
    exact hperf.raises hcall (hconfig ▸ Nat.le_of_eq hmax.symm)

/-- A program that calls a block in the middle of an array literal. -/
theorem Store.runProgram_balanced_start :
    ((Store.start {} []).runProgram (.array
      [.plain (.send none "loop" [] (.literal ⟨{}, .breakTo 1 .nil, 1⟩) false false)])).2.frames =
    (Store.start {} []).frames :=
  (Store.runProgram_balanced ⟨{}, [], .refl⟩ _).1

end Garnet
