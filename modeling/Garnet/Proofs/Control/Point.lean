import Garnet.Program.Build.Forms
import Garnet.Session.Program

/-!
# Points of a run

A point is an action about to run on a store. Running it enters other points one inside the other:
the parts of a sequence, the body of a construct, what a request asks for. The way from one point
to another lists the constructs entered in between that have not ended, the innermost first.
-/

namespace Garnet

structure Point where
  fuel : Nat
  {layer : Layer}
  {result : Type}
  act : Act layer result
  store : Store

/-- What a construct does for the point entered from it. -/
inductive Mark where
  /-- It only waits for the value. -/
  | part
  | request (r : Request)
  | body (st : Setting) (scope : ScopeId)
  | activation (id : Nat)
  /-- It is the pass of a loop or the call of a block, which `next` ends. -/
  | awaitsNext
  | awaitsBreak (site : Nat)
  | awaitsRaise
  /-- It takes every signal for a missing answer of `v`. -/
  | awaitsAnswer (v : Value)
  /-- It cleans up when the body has ended. -/
  | ensured
  /-- It is the body of a rescue clause that took `exc`. -/
  | handling (exc : Value)

/-- Constructs that have not ended, the innermost first. -/
abbrev Trail := List (Point × Mark)

def Mark.isCall : Mark → Bool
  | .request r => r.isCall
  | _ => false

namespace Trail

/-- The calls of methods and of blocks of program text in progress. -/
def calls (π : Trail) : Nat := π.countP (·.2.isCall)

/-- The frames of the bodies in progress. -/
def frames (π : Trail) : List Frame :=
  π.filterMap fun c => match c.2 with
    | .body st scope => some (st.frame c.1.store scope)
    | _ => none

/-- The scopes of the bodies in progress. -/
def scopes (π : Trail) : List ScopeId :=
  π.filterMap fun c => match c.2 with
    | .body _ scope => some scope
    | _ => none

theorem calls_cons (c : Point × Mark) (π : Trail) : calls (c :: π) = calls [c] + calls π := by
  simp only [calls, List.countP_cons, List.countP_nil]
  omega

theorem frames_cons (c : Point × Mark) (π : Trail) : frames (c :: π) = frames [c] ++ frames π := by
  simp only [frames, List.filterMap_cons, List.filterMap_nil]
  split <;> rfl

theorem scopes_cons (c : Point × Mark) (π : Trail) : scopes (c :: π) = scopes [c] ++ scopes π := by
  simp only [scopes, List.filterMap_cons, List.filterMap_nil]
  split <;> rfl

end Trail

namespace Point

def outcome (p : Point) : Ending p.result := p.act.run (.ofFuel p.fuel) p.store

/-- The run of a program. -/
def ofProgram (s : Store) (e : Expr) : Point :=
  ⟨defaultFuel, (Eval.perform (.eval e) : Eval Value), s⟩

/-- A point enters another while it runs. -/
inductive Enters : Point → Mark → Point → Prop where
  | first {n ℓ α β s} {x : Act ℓ β} {f : β → Act ℓ α} :
    Enters ⟨n, .bind x f, s⟩ .part ⟨n, x, s⟩
  | second {n ℓ α β s t a} {x : Act ℓ β} {f : β → Act ℓ α} (h : outcome ⟨n, x, s⟩ = .ok a t) :
    Enters ⟨n, .bind x f, s⟩ .part ⟨n, f a, t⟩
  | lift {n ℓ k α s} {x : Act k α} {h : k.below ℓ = true} :
    Enters ⟨n, (.lift x h : Act ℓ α), s⟩ .part ⟨n, x, s⟩
  | request {n ℓ α s r} {f : Value → α} {h : r.allowed ℓ = true} (hr : r.isCall = false) :
    Enters ⟨n + 1, (.perform r f h : Act ℓ α), s⟩ (.request r) ⟨n, Eval.handle r, s⟩
  | call {n ℓ α s r} {f : Value → α} {h : r.allowed ℓ = true} (hr : r.isCall = true)
    (hs : s.depth < s.config.maxDepth) :
    Enters ⟨n + 1, (.perform r f h : Act ℓ α), s⟩ (.request r)
      ⟨n, Eval.handle r, { s with depth := s.depth + 1 }⟩
  | rescue {n ℓ α β s} {x : Act ℓ β} {f : Except Value β → α} :
    Enters ⟨n, .rescue x f, s⟩ .awaitsRaise ⟨n, x, s⟩
  | inspected {n ℓ α s v} {f : Option Value → α} (hv : (s.payload v).isNumberOrNil = true) :
    Enters ⟨n + 1, (.inspected v f : Act ℓ α), s⟩ (.awaitsAnswer v)
      ⟨n, Eval.handle (.inspection v), s⟩
  | ensure {n ℓ α s} {x : Act ℓ α} {cleanup : Act ℓ Unit} :
    Enters ⟨n, .ensure x cleanup, s⟩ .ensured ⟨n, x, s⟩
  | cleanup {n ℓ α s} {x : Act ℓ α} {cleanup : Act ℓ Unit}
    (h : ∀ t, outcome ⟨n, x, s⟩ ≠ .error .exhausted t) :
    Enters ⟨n, .ensure x cleanup, s⟩ .part ⟨n, cleanup, (outcome ⟨n, x, s⟩).store⟩
  | within {n ℓ α s st scope} {x : Act ℓ α} {h : st.allowed ℓ = true} :
    Enters ⟨n, .within st scope x h, s⟩ (.body st scope) ⟨n, x, s.enter st scope⟩
  | activate {n α s} {x : Nat → Call Value} {f : Value → α} :
    Enters ⟨n, .activate x f, s⟩ (.activation (s.lastActivation + 1))
      ⟨n, x (s.lastActivation + 1), s.activate⟩
  | catchNext {n ℓ α s} {x : Act ℓ α} {f : Value → α} :
    Enters ⟨n, .catchNext x f, s⟩ .awaitsNext ⟨n, x, s⟩
  | catchBreak {n ℓ α s site} {x : Act ℓ α} {f : Value → α} :
    Enters ⟨n, .catchBreak site x f, s⟩ (.awaitsBreak site) ⟨n, x, s⟩
  | handling {n α s exc} {x : Eval α} :
    Enters ⟨n, .handling exc x, s⟩ (.handling exc) ⟨n, x, s.setErrorInfo exc⟩

/-- What holds of a point once it holds of all points entered from it holds of every point: the
action becomes smaller, or a request takes some of the fuel. -/
theorem induction {P : Point → Prop} (step : ∀ p, (∀ m q, Enters p m q → P q) → P p) (p : Point) :
    P p := by
  have main (n : Nat) : ∀ {ℓ : Layer} {α : Type} (x : Act ℓ α) (s : Store), P ⟨n, x, s⟩ := by
    induction n using Nat.strongRecOn with
    | ind n ihn =>
      intro ℓ α x
      induction x with
      | pure | fuel | exhausted | view | change | fail | signal | leave =>
        refine fun s => step _ fun m q he => ?_
        cases he
      | bind x f ihx ihf =>
        refine fun s => step _ fun m q he => ?_
        cases he with
        | first => exact ihx s
        | second => exact ihf _ _
      | lift x _ ih =>
        refine fun s => step _ fun m q he => ?_
        cases he with
        | lift => exact ih s
      | perform r f _ =>
        refine fun s => step _ fun m q he => ?_
        cases he with
        | request => exact ihn _ (Nat.lt_succ_self _) _ _
        | call => exact ihn _ (Nat.lt_succ_self _) _ _
      | rescue x f ih =>
        refine fun s => step _ fun m q he => ?_
        cases he with
        | rescue => exact ih s
      | inspected v f =>
        refine fun s => step _ fun m q he => ?_
        cases he with
        | inspected => exact ihn _ (Nat.lt_succ_self _) _ _
      | ensure x cleanup ihx ihc =>
        refine fun s => step _ fun m q he => ?_
        cases he with
        | ensure => exact ihx s
        | cleanup => exact ihc _
      | within st scope x _ ih =>
        refine fun s => step _ fun m q he => ?_
        cases he with
        | within => exact ih _
      | activate x f ih =>
        refine fun s => step _ fun m q he => ?_
        cases he with
        | activate => exact ih _ _
      | catchNext x f ih =>
        refine fun s => step _ fun m q he => ?_
        cases he with
        | catchNext => exact ih s
      | catchBreak site x f ih =>
        refine fun s => step _ fun m q he => ?_
        cases he with
        | catchBreak => exact ih s
      | handling exc x ih =>
        refine fun s => step _ fun m q he => ?_
        cases he with
        | handling => exact ih _
  exact main p.fuel p.act p.store

/-- A point that makes a change. -/
inductive Changes : Point → Change → Prop where
  | mk {n ℓ α s c} {f : Store → α} {h : c.allowed ℓ = true} :
    Changes ⟨n, (.change c f h : Act ℓ α), s⟩ c

/-- A point is running inside of another. -/
inductive Running (p : Point) : Trail → Point → Prop where
  | start : Running p [] p
  | step {π q m r} (h : Running p π q) (he : Enters q m r) : Running p ((q, m) :: π) r

namespace Running

variable {p q r : Point} {π ρ : Trail}

theorem append (h : Running p π q) (h' : Running q ρ r) : Running p (ρ ++ π) r := by
  induction h' with
  | start => exact h
  | step _ he ih => exact ih.step he

theorem enter {m : Mark} (he : Enters p m q) (h : Running q π r) :
    Running p (π ++ [(p, m)]) r :=
  (start.step he).append h

/-- A construct on the way was entered, and everything inside of it was entered from there. -/
theorem split {m : Mark} (h : Running p (ρ ++ (q, m) :: π) r) :
    Running p π q ∧ ∃ q', Enters q m q' ∧ Running q' ρ r := by
  induction ρ generalizing r with
  | nil =>
    cases h with
    | step h he => exact ⟨h, _, he, .start⟩
  | cons e ρ ih =>
    cases h with
    | step h he =>
      obtain ⟨hq, q', hm, hin⟩ := ih h
      exact ⟨hq, q', hm, hin.step he⟩

end Running

end Point

/-- A session goes from one store to another: programs run one after another, and in between the
library is asked to do something or the output is taken. -/
inductive Continues (s : Store) : Store → Prop where
  | refl : Continues s s
  | program {t tree e} (h : Continues s t) (he : Expr.ofTree tree = .ok e) :
    Continues s (t.runProgram e).2
  | operation {t} {α : Type} (h : Continues s t) (x : Op α) :
    Continues s (t.evaluate (.lift x rfl)).2
  | takeOutput {t} (h : Continues s t) : Continues s t.takeOutput.2

/-- The stores that sessions come to. -/
def Reachable (s : Store) : Prop := ∃ config input, Continues (.start config input) s

end Garnet
