import Garnet.Proofs.Endings
import Garnet.Session.Engine

/-!
# Requests

A request is performed with one unit of fuel less, and a call one level deeper.
-/

namespace Garnet

/-- A call of an operation of the library. -/
theorem Engine.perform_invoke {n i : Nat} {m : MethodDef} {f : Native} (hm : m.body = .builtin i)
    (hf : Library.run i = f) (holder : Holder) (recv : Value) (args : List Value)
    (block : Option Value) :
    (Engine.ofFuel (n + 1)).perform (.invoke m holder recv args block) =
      deeper ((f recv args block).run (.ofFuel n)) := by
  have hcall : Eval.handle (.invoke m holder recv args block) = liftM (f recv args block) := by
    simp only [Eval.handle, Eval.runMethod, hm, hf]
  simp only [ofFuel, Engine.run, Request.isCall, if_true, hcall]
  rfl

namespace Eval

variable {n : Nat} {u : Store}

theorem eval_run (x : Expr) :
    (eval x).run (.ofFuel (n + 1)) u = (evalExpr x).run (.ofFuel n) u := by
  have hrun : (Engine.ofFuel (n + 1)).perform (.eval x) u = (evalExpr x).run (.ofFuel n) u := rfl
  simp only [eval, perform, Act.run, hrun]
  cases (evalExpr x).run (.ofFuel n) u <;> rfl

/-- A message from the system that an operation of the library answers. -/
theorem send_run {recv : Value} {name : String} {r : Resolved} {i : Nat} {f : Native}
    (hfind : u.findMethod recv name .all = .ok r) (hm : r.method.body = .builtin i)
    (hf : Library.run i = f) (args : List Value) (block : Option Value) :
    (send recv name args block).run (.ofFuel (n + 2)) u =
      Engine.deeper ((f recv args block).run (.ofFuel n)) u := by
  have hanswer : (Engine.ofFuel (n + 2)).perform (.send .all recv name args block) u =
      (answer .all recv name args block).run (.ofFuel (n + 1)) u := rfl
  simp only [send, sendWith, perform, Act.run, hanswer]
  simp only [answer, view, invoke, perform, bind, Act.run, hfind, Engine.perform_invoke hm hf]
  cases Engine.deeper ((f recv args block).run (.ofFuel n)) u <;> rfl

end Eval

end Garnet

/-!
## What a run asks for

A run asks for requests one after another, and each of them may ask for more. The requests of an
action in order, each with the store in which it is made, are all that the run depends on beside the
action and the store; with the requests of the requests they are a log of everything that is
evaluated.
-/

namespace Garnet

variable {ℓ : Layer} {α β ρ : Type}

namespace Ending

/-- What is noted after a run that has ended with a value. -/
def after (out : Ending α) (f : α → Store → List ρ) : List ρ :=
  match out with
  | .ok a s => f a s
  | .error _ _ => []

def exhausted : Ending α → Bool
  | .error .exhausted _ => true
  | _ => false

@[simp] theorem after_ok (a : α) (s : Store) (f : α → Store → List ρ) :
    (ok a s).after f = f a s := rfl

@[simp] theorem after_error (stop : Stop) (s : Store) (f : α → Store → List ρ) :
    (error stop s).after f = [] := rfl

theorem after_nil (out : Ending α) : (out.after fun _ _ => ([] : List ρ)) = [] := by
  cases out <;> rfl

end Ending

/-- What is noted of the requests that a run makes, in order. -/
def Act.log (note : Request → Store → List ρ) {ℓ : Layer} {α : Type} :
    Act ℓ α → Engine → Store → List ρ
  | .bind x f, e, s => x.log note e s ++ (x.run e s).after fun b => (f b).log note e
  | .lift x _, e, s => x.log note e s
  | .perform r _ _, _, s => note r s
  | .rescue x _, e, s => x.log note e s
  | .inspected v _, _, s =>
    if (s.payload v).isNumberOrNil then note (.inspection v) s else []
  | .ensure x cleanup, e, s =>
    x.log note e s ++
      if (x.run e s).exhausted then [] else cleanup.log note e (x.run e s).store
  | .within st scope x _, e, s => x.log note e (s.enter st scope)
  | .activate x _, e, s => (x (s.lastActivation + 1)).log note e s.activate
  | .catchNext x _, e, s => x.log note e s
  | .catchBreak _ x _, e, s => x.log note e s
  | .handling exc x, e, s => x.log note e (s.setErrorInfo exc)
  | .pure _, _, _ | .fuel _, _, _ | .exhausted, _, _ | .view _, _, _ | .change .., _, _
  | .fail .., _, _ | .signal .., _, _ | .leave _, _, _ => []

/-- The requests that a run itself makes, each with the store in which it is made. -/
def Act.asks (x : Act ℓ α) (e : Engine) (s : Store) : List (Request × Store) :=
  x.log (fun r s => [(r, s)]) e s

/-- A request and all requests that are made while it is performed, in order. -/
def Engine.log : Nat → Request → Store → List Request
  | 0, _, _ => []
  | n + 1, r, s =>
    let inside := (Eval.handle r).log (Engine.log n) (.ofFuel n)
    r :: if r.isCall then
      if s.depth ≥ s.config.maxDepth then [] else inside { s with depth := s.depth + 1 }
    else inside s

namespace Act

variable {note : Request → Store → List ρ} {e e' : Engine} {s : Store}

/-- A run depends on the engine only through the answers to what it asks, and how often a loop may
repeat. -/
theorem run_congr (x : Act ℓ α) (s : Store) (hfuel : e'.fuel = e.fuel)
    (h : ∀ a ∈ x.asks e s, e'.perform a.1 a.2 = e.perform a.1 a.2) : x.run e' s = x.run e s := by
  induction x generalizing s with
  | bind x f ihx ihf =>
    simp only [asks, log, List.mem_append] at h
    have hx := ihx s fun a ha => h a (.inl ha)
    simp only [run, hx]
    cases hrun : x.run e s with
    | ok b t =>
      refine ihf b t fun a ha => h a (.inr ?_)
      rw [hrun]
      exact ha
    | error stop t => rfl
  | lift x _ ih => exact ih s h
  | perform r f =>
    simp only [run, h (r, s) (List.mem_singleton_self _)]
  | rescue x f ih => simp only [run, ih s h]
  | inspected v f =>
    simp only [asks, log] at h
    simp only [run]
    split
    · rename_i hv
      rw [if_pos hv] at h
      rw [h _ (List.mem_singleton_self _)]
    · rfl
  | ensure x cleanup ihx ihc =>
    simp only [asks, log, List.mem_append] at h
    have hx := ihx s fun a ha => h a (.inl ha)
    simp only [run, hx]
    cases hrun : x.run e s with
    | ok a t =>
      rw [hrun] at h
      simp only [ihc t fun a ha => h a (.inr ha)]
    | error stop t =>
      cases stop with
      | signal sig =>
        rw [hrun] at h
        simp only [ihc t fun a ha => h a (.inr ha)]
      | exhausted => rfl
  | within st scope x _ ih => simp only [run, ih (s.enter st scope) h]
  | activate x f ih => simp only [run, ih (s.lastActivation + 1) s.activate h]
  | catchNext x f ih => simp only [run, ih s h]
  | catchBreak site x f ih => simp only [run, ih s h]
  | handling exc x ih => simp only [run, ih (s.setErrorInfo exc) h]
  | fuel f => simp only [run, hfuel]
  | pure | exhausted | view | change | fail | signal | leave => rfl

theorem log_bind (x : Act ℓ β) (f : β → Act ℓ α) :
    (x >>= f).log note e s = x.log note e s ++ (x.run e s).after fun b => (f b).log note e :=
  rfl

@[simp] theorem log_pure (a : α) : (Pure.pure a : Act ℓ α).log note e s = [] := rfl

@[simp] theorem log_liftM (x : Op α) : (liftM x : Act ℓ α).log note e s = x.log note e s := rfl

theorem log_discard (x : Act ℓ α) : (discard x).log note e s = x.log note e s := by
  have h : (discard x).log note e s =
      x.log note e s ++ (x.run e s).after fun _ _ => ([] : List ρ) := rfl
  rw [h, Ending.after_nil, List.append_nil]

end Act

end Garnet
