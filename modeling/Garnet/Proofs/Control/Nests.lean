import Garnet.Proofs.Requests
import Garnet.Session.Start

/-!
# Nests of guards

A guard waits for the end of what it is written around: one cleans up, one handles exceptions. Where
guards stand around each other and a body, the ending of the body goes through them from the inside
out. Each of them makes another ending of the one inside of it, and evaluates what it has to before
the next one outside comes to its turn. What a guard makes of an ending is told by rules, which
leave no choice.
-/

namespace Garnet

namespace Ending

variable {α : Type}

/-- The same ending with another store. -/
def withStore (out : Ending α) (t : Store) : Ending α :=
  match out with
  | .ok a _ => .ok a t
  | .error stop _ => .error stop t

end Ending

/-- What an expression is guarded by. -/
inductive Guard where
  | ensure (cleanup : Expr)
  | rescue (clauses : List (Clause Expr)) (otherwise : Option Expr)

def Guard.around : Guard → Expr → Expr
  | ensure cleanup, body => .ensure body cleanup
  | rescue clauses otherwise, body => .rescue body clauses otherwise

/-- A body inside of guards, the outermost first. -/
def nest (gs : List Guard) (body : Expr) : Expr := gs.foldr Guard.around body

/-! ## What a guard does

The rules below say how a guard, whose requests are performed with fuel `n`, goes on from the ending
inside of it: what it evaluates, and how it ends.
-/

section Rules

variable (n : Nat) (exc : Value)

/-- Whether one of the classes takes the exception: they are asked in order by the message `===`, up
to the first that takes it. -/
inductive AnyTakes : List Value → Store → List Request → Ending Bool → Prop
  | none {s} : AnyTakes [] s [] (.ok false s)
  | hit {c cs s r t} (h : Engine.run n (.send .all c "===" [exc] none) s = .ok r t)
    (hr : r.truthy = true) :
    AnyTakes (c :: cs) s (Engine.log n (.send .all c "===" [exc] none) s) (.ok true t)
  | miss {c cs s r t log out} (h : Engine.run n (.send .all c "===" [exc] none) s = .ok r t)
    (hr : r.truthy = false) (more : AnyTakes cs t log out) :
    AnyTakes (c :: cs) s (Engine.log n (.send .all c "===" [exc] none) s ++ log) out
  | fails {c cs s stop t} (h : Engine.run n (.send .all c "===" [exc] none) s = .error stop t) :
    AnyTakes (c :: cs) s (Engine.log n (.send .all c "===" [exc] none) s) (.error stop t)

/-- Whether a clause takes the exception. Its list of classes may fail. -/
inductive ClauseTakes (k : Clause Expr) : Store → List Request → Ending Bool → Prop
  | standard {s log out} (hk : k.classes = none)
    (h : AnyTakes n exc [CoreClass.standardError.value] s log out) : ClauseTakes k s log out
  | listed {items cs s t log out} (hk : k.classes = some items)
    (hlist : (Eval.evalItems items).run (.ofFuel n) s = .ok cs t)
    (h : AnyTakes n exc cs t log out) :
    ClauseTakes k s ((Eval.evalItems items).log (Engine.log n) (.ofFuel n) s ++ log) out
  | listFails {items s stop t} (hk : k.classes = some items)
    (hlist : (Eval.evalItems items).run (.ofFuel n) s = .error stop t) :
    ClauseTakes k s ((Eval.evalItems items).log (Engine.log n) (.ofFuel n) s) (.error stop t)

/-- The body of a clause, after the exception was bound. The binding may fail. -/
inductive ClauseRuns (k : Clause Expr) : Store → List Request → Ending Value → Prop
  | body {s} (hk : k.bind = none) :
    ClauseRuns k s (Engine.log n (.eval k.body) s) (Engine.run n (.eval k.body) s)
  | bound {x v s t} (hk : k.bind = some x) (hstore : Engine.run n (.store x exc) s = .ok v t) :
    ClauseRuns k s (Engine.log n (.store x exc) s ++ Engine.log n (.eval k.body) t)
      (Engine.run n (.eval k.body) t)
  | bindFails {x stop s t} (hk : k.bind = some x)
    (hstore : Engine.run n (.store x exc) s = .error stop t) :
    ClauseRuns k s (Engine.log n (.store x exc) s) (.error stop t)

/-- The first clause that takes the exception runs, with `$!` set to it; when there is none the
exception goes on. -/
inductive Handles : List (Clause Expr) → Store → List Request → Ending Value → Prop
  | unmatched {s} : Handles [] s [] (.error (.signal (.raise exc)) s)
  | passed {k ks s t log log' out} (h : ClauseTakes n exc k s log (.ok false t))
    (more : Handles ks t log' out) : Handles (k :: ks) s (log ++ log') out
  | fails {k ks s stop t log} (h : ClauseTakes n exc k s log (.error stop t)) :
    Handles (k :: ks) s log (.error stop t)
  | matched {k ks s t log log' out} (h : ClauseTakes n exc k s log (.ok true t))
    (hbody : ClauseRuns n exc k (t.setErrorInfo exc) log' out) :
    Handles (k :: ks) s (log ++ log') (out.withStore (out.store.setErrorInfo t.errorInfo))

/-- How an ending leaves a guard. -/
inductive Guard.Leaves : Guard → Ending Value → List Request → Ending Value → Prop
  /-- The cleanup has run, and the ending stays what it was. -/
  | cleaned {cleanup out v t} (hout : out.exhausted = false)
    (h : Engine.run n (.eval cleanup) out.store = .ok v t) :
    Leaves (.ensure cleanup) out (Engine.log n (.eval cleanup) out.store) (out.withStore t)
  /-- The cleanup does not end with a value. -/
  | replaced {cleanup out stop t} (hout : out.exhausted = false)
    (h : Engine.run n (.eval cleanup) out.store = .error stop t) :
    Leaves (.ensure cleanup) out (Engine.log n (.eval cleanup) out.store) (.error stop t)
  | value {clauses v s} : Leaves (.rescue clauses none) (.ok v s) [] (.ok v s)
  | otherwise {clauses x v s} :
    Leaves (.rescue clauses (some x)) (.ok v s) (Engine.log n (.eval x) s)
      (Engine.run n (.eval x) s)
  /-- What `next`, `break` and `return` do is no exception. -/
  | jumps {clauses otherwise sig s} (hsig : ∀ exc, sig ≠ .raise exc) :
    Leaves (.rescue clauses otherwise) (.error (.signal sig) s) [] (.error (.signal sig) s)
  | raised {clauses otherwise exc s log out} (h : Handles n exc clauses s log out) :
    Leaves (.rescue clauses otherwise) (.error (.signal (.raise exc)) s) log out
  /-- No guard acts when the fuel has run out. -/
  | exhausted {g s} : Leaves g (.error .exhausted s) [] (.error .exhausted s)

end Rules

namespace Eval

variable {n : Nat} {exc : Value} {s : Store}

theorem eval_runs (x : Expr) (n : Nat) (s : Store) :
    (eval x).run (.ofFuel n) s = Engine.run n (.eval x) s :=
  run_perform _ _

/-! ## Clauses -/

theorem caseEquals_runs (c : Value) (s : Store) :
    (caseEquals c exc).run (.ofFuel n) s =
      (Engine.run n (.send .all c "===" [exc] none) s).andThen fun r => .ok r.truthy := by
  refine (Act.run_bind _ _).trans ?_
  exact congrArg (Ending.andThen · fun r => .ok r.truthy) (run_perform _ _)

theorem caseEquals_log (c : Value) (s : Store) :
    (caseEquals c exc).log (Engine.log n) (.ofFuel n) s =
      Engine.log n (.send .all c "===" [exc] none) s := by
  have h : (caseEquals c exc).log (Engine.log n) (.ofFuel n) s =
      Engine.log n (.send .all c "===" [exc] none) s ++
        ((send c "===" [exc] none).run (.ofFuel n) s).after fun _ _ => [] := rfl
  rw [h, Ending.after_nil, List.append_nil]

theorem anyTakes_rule (cs : List Value) (s : Store) :
    AnyTakes n exc cs s ((anyTakes (some exc) cs).log (Engine.log n) (.ofFuel n) s)
      ((anyTakes (some exc) cs).run (.ofFuel n) s) := by
  induction cs generalizing s with
  | nil => exact .none
  | cons c cs ih =>
    rw [anyTakes, Act.run_bind, Act.log_bind, caseEquals_runs, caseEquals_log]
    cases hsend : Engine.run n (.send .all c "===" [exc] none) s with
    | error stop t =>
      rw [Ending.andThen_error, Ending.andThen_error, Ending.after_error, List.append_nil]
      exact .fails hsend
    | ok r t =>
      rw [Ending.andThen_ok, Ending.andThen_ok, Ending.after_ok]
      cases hr : r.truthy with
      | true =>
        simp only [if_true, Act.log_pure, Act.run_pure, List.append_nil]
        exact .hit hsend hr
      | false => exact .miss hsend hr (ih t)

theorem clauseTakes_rule (k : Clause Expr) (s : Store) :
    ClauseTakes n exc k s ((clauseTakes k exc).log (Engine.log n) (.ofFuel n) s)
      ((clauseTakes k exc).run (.ofFuel n) s) := by
  cases hk : k.classes with
  | none =>
    simp only [clauseTakes, hk, Act.run_liftM, Act.log_liftM]
    rw [caseEquals_runs, caseEquals_log]
    refine .standard hk ?_
    cases hsend : Engine.run n (.send .all _ "===" [exc] none) s with
    | error stop t => exact .fails hsend
    | ok r t =>
      rw [Ending.andThen_ok]
      cases hr : r.truthy with
      | true => exact .hit hsend hr
      | false =>
        have hmiss := AnyTakes.miss hsend hr .none
        rwa [List.append_nil] at hmiss
  | some items =>
    simp only [clauseTakes, hk]
    rw [Act.run_bind, Act.log_bind]
    cases hlist : (evalItems items).run (.ofFuel n) s with
    | error stop t =>
      rw [Ending.andThen_error, Ending.after_error, List.append_nil]
      exact .listFails hk hlist
    | ok cs t => exact .listed hk hlist (anyTakes_rule cs t)

theorem run_handling (x : Eval Value) (e : Engine) :
    Act.run (.handling exc x) e s =
      let out := x.run e (s.setErrorInfo exc)
      out.withStore (out.store.setErrorInfo s.errorInfo) := by
  simp only [Act.run]
  cases x.run e (s.setErrorInfo exc) <;> rfl

theorem log_handling {ρ : Type} {note : Request → Store → List ρ} (x : Eval Value) (e : Engine) :
    Act.log note (.handling exc x) e s = x.log note e (s.setErrorInfo exc) := rfl

theorem runClauses_rule (ks : List (Clause Expr)) (s : Store) :
    Handles n exc ks s ((runClauses exc ks).log (Engine.log n) (.ofFuel n) s)
      ((runClauses exc ks).run (.ofFuel n) s) := by
  induction ks generalizing s with
  | nil => exact .unmatched
  | cons k ks ih =>
    rw [runClauses, Act.run_bind, Act.log_bind]
    have htakes : ClauseTakes n exc k s _ _ := clauseTakes_rule k s
    cases hrun : (clauseTakes k exc).run (.ofFuel n) s with
    | error stop t =>
      rw [hrun] at htakes
      rw [Ending.andThen_error, Ending.after_error, List.append_nil]
      exact .fails htakes
    | ok hit t =>
      rw [hrun] at htakes
      cases hit with
      | false => exact .passed htakes (ih t)
      | true =>
        simp only [Ending.andThen_ok, Ending.after_ok, if_true, run_handling, log_handling]
        refine .matched htakes ?_
        cases hk : k.bind with
        | none =>
          dsimp only
          rw [eval_runs]
          exact .body hk
        | some x =>
          dsimp only
          rw [Act.run_bind, Act.log_bind, Act.run_discard, Act.log_discard]
          have hperform : (perform (.store x exc) : Eval Value).run (.ofFuel n)
              (t.setErrorInfo exc) = Engine.run n (.store x exc) (t.setErrorInfo exc) :=
            run_perform _ _
          rw [hperform]
          cases hstore : Engine.run n (.store x exc) (t.setErrorInfo exc) with
          | error stop u =>
            simp only [Ending.andThen_error, Ending.after_error, List.append_nil]
            exact .bindFails hk hstore
          | ok v u =>
            simp only [Ending.andThen_ok, Ending.after_ok, eval_runs]
            exact .bound hk hstore

/-! ## Guards -/

theorem ensure_rule (body cleanup : Expr) (n : Nat) (s : Store) :
    Guard.Leaves n (.ensure cleanup) (Engine.run n (.eval body) s)
      (if (Engine.run n (.eval body) s).exhausted then []
        else Engine.log n (.eval cleanup) (Engine.run n (.eval body) s).store)
      ((evalEnsure body cleanup).run (.ofFuel n) s) := by
  simp only [evalEnsure, Act.run, eval_runs, Act.run_discard]
  cases hbody : Engine.run n (.eval body) s with
  | ok v t =>
    dsimp only [Ending.exhausted]
    cases hc : Engine.run n (.eval cleanup) t with
    | ok w u => exact .cleaned rfl hc
    | error stop u => exact .replaced rfl hc
  | error stop t =>
    cases stop with
    | exhausted => exact .exhausted
    | signal sig =>
      dsimp only [Ending.exhausted]
      cases hc : Engine.run n (.eval cleanup) t with
      | ok w u => exact .cleaned rfl hc
      | error stop u => exact .replaced rfl hc

/-- The requests of a guarded expression are those of the body, and what the guard asks for after
it. -/
theorem guard_leaves (g : Guard) (body : Expr) (n : Nat) (s : Store) :
    ∃ log, (evalExpr (g.around body)).log (Engine.log n) (.ofFuel n) s =
        Engine.log n (.eval body) s ++ log ∧
      g.Leaves n (Engine.run n (.eval body) s) log
        ((evalExpr (g.around body)).run (.ofFuel n) s) := by
  have hbody := eval_runs body n s
  cases g with
  | ensure cleanup =>
    refine ⟨_, ?_, ensure_rule body cleanup n s⟩
    simp only [Guard.around, evalExpr, evalEnsure, Act.log, hbody, Act.log_discard]
    rfl
  | rescue clauses otherwise =>
    simp only [Guard.around, evalExpr, evalRescue]
    rw [Act.run_bind, Act.log_bind]
    refine ⟨_, rfl, ?_⟩
    simp only [rescue, Act.run, hbody]
    cases Engine.run n (.eval body) s with
    | ok v t =>
      cases otherwise with
      | none => exact .value
      | some x =>
        simp only [Ending.andThen_ok, Ending.after_ok, id_eq, eval_runs]
        exact .otherwise
    | error stop t =>
      cases stop with
      | exhausted => exact .exhausted
      | signal sig =>
        cases sig with
        | raise exc => exact .raised (runClauses_rule clauses t)
        | next | breakTo | returnTo => exact .jumps fun _ h => by cases h

end Eval

/-! ## The rules leave no choice -/

section Unique

variable {n : Nat} {exc : Value} {s : Store} {log log' : List Request}

theorem AnyTakes.unique {cs : List Value} {out out' : Ending Bool}
    (h : AnyTakes n exc cs s log out) (h' : AnyTakes n exc cs s log' out') :
    log = log' ∧ out = out' := by
  induction h generalizing log' with
  | none =>
    cases h'
    exact ⟨rfl, rfl⟩
  | hit hsend hr =>
    cases h' with
    | hit hsend' =>
      cases hsend.symm.trans hsend'
      exact ⟨rfl, rfl⟩
    | miss hsend' hr' =>
      cases hsend.symm.trans hsend'
      cases hr.symm.trans hr'
    | fails hsend' => cases hsend.symm.trans hsend'
  | miss hsend hr _ ih =>
    cases h' with
    | hit hsend' hr' =>
      cases hsend.symm.trans hsend'
      cases hr.symm.trans hr'
    | miss hsend' _ more' =>
      cases hsend.symm.trans hsend'
      obtain ⟨rfl, rfl⟩ := ih more'
      exact ⟨rfl, rfl⟩
    | fails hsend' => cases hsend.symm.trans hsend'
  | fails hsend =>
    cases h' with
    | hit hsend' | miss hsend' => cases hsend.symm.trans hsend'
    | fails hsend' =>
      cases hsend.symm.trans hsend'
      exact ⟨rfl, rfl⟩

theorem ClauseTakes.unique {k : Clause Expr} {out out' : Ending Bool}
    (h : ClauseTakes n exc k s log out) (h' : ClauseTakes n exc k s log' out') :
    log = log' ∧ out = out' := by
  cases h with
  | standard hk h =>
    cases h' with
    | standard _ h' => exact h.unique h'
    | listed hk' | listFails hk' => cases hk.symm.trans hk'
  | listed hk hlist h =>
    cases h' with
    | standard hk' => cases hk.symm.trans hk'
    | listed hk' hlist' h' =>
      cases hk.symm.trans hk'
      cases hlist.symm.trans hlist'
      obtain ⟨rfl, rfl⟩ := h.unique h'
      exact ⟨rfl, rfl⟩
    | listFails hk' hlist' =>
      cases hk.symm.trans hk'
      cases hlist.symm.trans hlist'
  | listFails hk hlist =>
    cases h' with
    | standard hk' => cases hk.symm.trans hk'
    | listed hk' hlist' =>
      cases hk.symm.trans hk'
      cases hlist.symm.trans hlist'
    | listFails hk' hlist' =>
      cases hk.symm.trans hk'
      cases hlist.symm.trans hlist'
      exact ⟨rfl, rfl⟩

theorem ClauseRuns.unique {k : Clause Expr} {out out' : Ending Value}
    (h : ClauseRuns n exc k s log out) (h' : ClauseRuns n exc k s log' out') :
    log = log' ∧ out = out' := by
  cases h with
  | body hk =>
    cases h' with
    | body => exact ⟨rfl, rfl⟩
    | bound hk' | bindFails hk' => cases hk.symm.trans hk'
  | bound hk hstore =>
    cases h' with
    | body hk' => cases hk.symm.trans hk'
    | bound hk' hstore' =>
      cases hk.symm.trans hk'
      cases hstore.symm.trans hstore'
      exact ⟨rfl, rfl⟩
    | bindFails hk' hstore' =>
      cases hk.symm.trans hk'
      cases hstore.symm.trans hstore'
  | bindFails hk hstore =>
    cases h' with
    | body hk' => cases hk.symm.trans hk'
    | bound hk' hstore' =>
      cases hk.symm.trans hk'
      cases hstore.symm.trans hstore'
    | bindFails hk' hstore' =>
      cases hk.symm.trans hk'
      cases hstore.symm.trans hstore'
      exact ⟨rfl, rfl⟩

theorem Handles.unique {ks : List (Clause Expr)} {out out' : Ending Value}
    (h : Handles n exc ks s log out) (h' : Handles n exc ks s log' out') :
    log = log' ∧ out = out' := by
  induction h generalizing log' with
  | unmatched =>
    cases h'
    exact ⟨rfl, rfl⟩
  | passed h _ ih =>
    cases h' with
    | passed h' more' =>
      obtain ⟨rfl, htaken⟩ := h.unique h'
      cases htaken
      obtain ⟨rfl, rfl⟩ := ih more'
      exact ⟨rfl, rfl⟩
    | fails h' | matched h' => cases (h.unique h').2
  | fails h =>
    cases h' with
    | fails h' =>
      obtain ⟨rfl, htaken⟩ := h.unique h'
      cases htaken
      exact ⟨rfl, rfl⟩
    | passed h' | matched h' => cases (h.unique h').2
  | matched h hbody =>
    cases h' with
    | matched h' hbody' =>
      obtain ⟨rfl, htaken⟩ := h.unique h'
      cases htaken
      obtain ⟨rfl, rfl⟩ := hbody.unique hbody'
      exact ⟨rfl, rfl⟩
    | passed h' | fails h' => cases (h.unique h').2

end Unique

namespace Guard.Leaves

variable {n : Nat} {out out' : Ending Value} {log : List Request} {s : Store}

/-- A cleanup is evaluated once, from where the inside has ended. When it ends with a value it
leaves the ending as it was. -/
theorem ensure_eq {cleanup : Expr} (h : Leaves n (.ensure cleanup) out log out')
    (hout : out.exhausted = false) :
    log = Engine.log n (.eval cleanup) out.store ∧
      out' = (Engine.run n (.eval cleanup) out.store).andThen fun _ t => out.withStore t := by
  cases h with
  | cleaned _ hrun | replaced _ hrun =>
    rw [hrun]
    exact ⟨rfl, rfl⟩
  | exhausted => cases hout

/-- A jump passes a handler, which does nothing. -/
theorem jump_eq {clauses : List (Clause Expr)} {otherwise : Option Expr} {sig : Signal}
    (h : Leaves n (.rescue clauses otherwise) (.error (.signal sig) s) log out)
    (hsig : ∀ exc, sig ≠ .raise exc) : log = [] ∧ out = .error (.signal sig) s := by
  cases h with
  | jumps => exact ⟨rfl, rfl⟩
  | raised => exact absurd rfl (hsig _)

theorem unique {g : Guard} {out₁ out₂ : Ending Value} {log' : List Request}
    (h : g.Leaves n out log out₁) (h' : g.Leaves n out log' out₂) : log = log' ∧ out₁ = out₂ := by
  cases h with
  | cleaned hout hrun | replaced hout hrun =>
    obtain ⟨rfl, rfl⟩ := h'.ensure_eq hout
    rw [hrun]
    exact ⟨rfl, rfl⟩
  | value | otherwise =>
    cases h'
    exact ⟨rfl, rfl⟩
  | exhausted =>
    cases h' with
    | cleaned hout | replaced hout => cases hout
    | exhausted => exact ⟨rfl, rfl⟩
  | jumps hsig =>
    obtain ⟨rfl, rfl⟩ := h'.jump_eq hsig
    exact ⟨rfl, rfl⟩
  | raised h =>
    cases h' with
    | jumps hsig => exact absurd rfl (hsig _)
    | raised h' => exact h.unique h'

end Guard.Leaves

/-! ## Nests -/

/-- The evaluations that a nest begins with, before its body. -/
def entered (gs : List Guard) (body : Expr) : List Request :=
  match gs with
  | [] => []
  | g :: gs => .eval (nest (g :: gs) body) :: entered gs body

/-- From the inside out, each guard around the body comes to its turn once and makes of the ending
inside of it what the rules say; nothing else is evaluated. -/
theorem nest_leaves (gs : List Guard) (body : Expr) (n : Nat) (s : Store) :
    ∃ logs : List (List Request), logs.length = gs.length ∧
      Engine.log (n + gs.length) (.eval (nest gs body)) s =
        entered gs body ++ Engine.log n (.eval body) s ++ logs.flatten ∧
      ∀ outer g inner, gs = outer ++ g :: inner → ∀ log out,
        g.Leaves (n + inner.length) (Engine.run (n + inner.length) (.eval (nest inner body)) s)
            log out ↔
          logs[inner.length]? = some log ∧
            out = Engine.run (n + (g :: inner).length) (.eval (nest (g :: inner) body)) s := by
  induction gs with
  | nil => exact ⟨[], rfl, (List.append_nil _).symm, fun outer g inner h => by simp at h⟩
  | cons g gs ih =>
    obtain ⟨logs, hlen, hlog, hleaves⟩ := ih
    obtain ⟨log, hlog', hg⟩ := Eval.guard_leaves g (nest gs body) (n + gs.length) s
    refine ⟨logs ++ [log], ?_, ?_, fun outer g' inner h => ?_⟩
    · rw [List.length_append, hlen, List.length_singleton, List.length_cons]
    · have hstep : Engine.log (n + (g :: gs).length) (.eval (nest (g :: gs) body)) s =
          .eval (nest (g :: gs) body) ::
            (Eval.evalExpr (g.around (nest gs body))).log (Engine.log (n + gs.length))
              (.ofFuel (n + gs.length)) s := rfl
      rw [hstep, hlog', hlog, entered]
      simp only [List.flatten_append, List.flatten_singleton, List.cons_append, List.append_assoc]
    · cases outer with
      | nil =>
        obtain ⟨rfl, rfl⟩ := List.cons.inj h
        rw [← hlen, List.getElem?_concat_length, hlen]
        intro log' out
        constructor
        · intro hout
          obtain ⟨rfl, rfl⟩ := hg.unique hout
          exact ⟨rfl, rfl⟩
        · rintro ⟨hsome, rfl⟩
          cases hsome
          exact hg
      | cons _ outer =>
        have hgs : gs = outer ++ g' :: inner := (List.cons.inj h).2
        have hlt : inner.length < logs.length := by
          rw [hlen, hgs, List.length_append, List.length_cons]
          omega
        rw [List.getElem?_append_left hlt]
        exact hleaves outer g' inner hgs

/-- A handler around a cleanup. -/
def sampleNest : List Guard := [.rescue [⟨none, none, .true⟩] (some .false), .ensure .nil]

/-- A `break` past a handler and a cleanup: the cleanup runs, the clause and the `else` do not. -/
theorem nest_leaves_break :
    let x := nest sampleNest (.breakTo 0 .self)
    let s := Store.start {} []
    Engine.log 4 (.eval x) s =
        entered sampleNest (.breakTo 0 .self) ++
          [.eval (.breakTo 0 .self), .eval .self, .eval .nil] ∧
      Engine.run 4 (.eval x) s = .error (.signal (.breakTo 0 s.self)) s := by
  intro x
  -- the same of any store
  suffices h : ∀ s : Store,
      Engine.log 4 (.eval x) s = entered sampleNest (.breakTo 0 .self) ++
          [.eval (.breakTo 0 .self), .eval .self, .eval .nil] ∧
        Engine.run 4 (.eval x) s = .error (.signal (.breakTo 0 s.self)) s from h _
  intro s
  obtain ⟨logs, hlen, hlog, hleaves⟩ := nest_leaves sampleNest (.breakTo 0 .self) 2 s
  match logs, hlen with
  | [log₀, log₁], _ =>
    have hensure := (hleaves [_] (.ensure .nil) [] rfl log₀ _).mpr ⟨rfl, rfl⟩
    have hrescue := (hleaves [] _ [.ensure .nil] rfl log₁ _).mpr ⟨rfl, rfl⟩
    have hcleaned : Engine.run 3 (.eval (nest [.ensure .nil] (.breakTo 0 .self))) s =
        .error (.signal (.breakTo 0 s.self)) s := (hensure.ensure_eq rfl).2
    have hhandler : Guard.Leaves 3 (.rescue [⟨none, none, .true⟩] (some .false))
        (.error (.signal (.breakTo 0 s.self)) s) log₁ (Engine.run 4 (.eval x) s) := by
      rw [← hcleaned]
      exact hrescue
    obtain ⟨rfl, hrun⟩ := hhandler.jump_eq fun _ h => by cases h
    refine ⟨?_, hrun⟩
    obtain ⟨rfl, -⟩ := hensure.ensure_eq rfl
    exact hlog

end Garnet
