import Garnet.Proofs.Constants.Tables
import Garnet.Proofs.Control.Later
import Garnet.Proofs.Endings
import Garnet.Proofs.Hierarchy.Sessions

/-!
# Constants are written once

A definition looks at what a name means before it writes, and nothing that the program could run
stands in between. Every write to a table of constants therefore finds the name free, and a constant
keeps its value in every later store of a session.
-/

namespace Garnet

open Relation Store

/-! ## Writes find their names free -/

/-- The names that an action defines by itself, when it runs on a store with some fuel, are free. A
request is looked at where it is performed. -/
def Act.WritesFree {ℓ : Layer} {α : Type} : Act ℓ α → Nat → Store → Prop
  | .bind x f, n, s =>
    x.WritesFree n s ∧ ∀ a t, x.run (.ofFuel n) s = .ok a t → (f a).WritesFree n t
  | .change c _ _, _, s => ∀ holder name, c.SetsConst holder name → s.const? holder name = none
  | .lift x _, n, s | .rescue x _, n, s | .catchNext x _, n, s | .catchBreak _ x _, n, s =>
    x.WritesFree n s
  | .handling exc x, n, s => x.WritesFree n (s.setErrorInfo exc)
  | .ensure x cleanup, n, s => x.WritesFree n s ∧ ∀ t, cleanup.WritesFree n t
  | .within st scope x _, n, s => x.WritesFree n (s.enter st scope)
  | .activate x _, n, _ => ∀ id t, (x id).WritesFree n t
  | _, _, _ => True

namespace Act

variable {ℓ : Layer} {α : Type}

/-- Below the layer of calls nothing writes to a table of constants. -/
theorem writesFree_of_ne (x : Act ℓ α) (hℓ : ℓ ≠ .call) (n : Nat) (s : Store) :
    x.WritesFree n s := by
  induction x generalizing s with
  | bind x f ihx ihf => exact ⟨ihx hℓ s, fun a t _ => ihf a hℓ t⟩
  | @lift ℓ k _ x hk ih =>
    refine ih (fun h => hℓ ?_) s
    subst h
    cases ℓ <;> first | rfl | cases hk
  | @change ℓ _ c f h =>
    rintro holder name ⟨v, rfl⟩
    cases ℓ with
    | call => exact absurd rfl hℓ
    | _ => cases h
  | rescue x _ ih | catchNext x _ ih | catchBreak _ x _ ih => exact ih hℓ s
  | ensure x cleanup ihx ihc => exact ⟨ihx hℓ s, ihc hℓ⟩
  | within st scope x _ ih | handling exc x ih => exact ih hℓ _
  | activate => exact absurd rfl hℓ
  | _ => trivial

theorem writesFree_op (x : Op α) (n : Nat) (s : Store) : (liftM x : Call α).WritesFree n s :=
  writesFree_of_ne x nofun n s

theorem writesFree_eval (x : Eval α) (n : Nat) (s : Store) : (liftM x : Call α).WritesFree n s :=
  writesFree_of_ne x nofun n s

namespace WritesFree

variable {β : Type} {n : Nat} {s : Store}

theorem view {f : Store → β} {g : β → Act ℓ α} (h : (g (f s)).WritesFree n s) :
    (Eval.view f >>= g).WritesFree n s := by
  refine ⟨trivial, fun a t ht => ?_⟩
  cases ht
  exact h

theorem op {x : Op β} {g : β → Call α}
    (h : ∀ a t, x.run (.ofFuel n) s = .ok a t → (g a).WritesFree n t) :
    (liftM x >>= g).WritesFree n s :=
  ⟨writesFree_op x n s, h⟩

end WritesFree

end Act

namespace Eval

variable {n : Nat} {s t : Store} {holder c v : Value} {name : String}

/-! ## Definitions -/

theorem takeName_run (h : (takeName holder name v).run (.ofFuel n) s = .ok () t) :
    SameConsts s t := by
  simp only [takeName, bind, view, Act.run] at h
  split at h
  · cases h
    exact .modifyModule fun _ => rfl
  · cases h
    exact .refl

theorem subclass_run (h : (subclass c name).run (.ofFuel n) s = .ok v t) : SameConsts s t := by
  simp only [subclass, model, bind, view, Act.run] at h
  split at h
  · cases h
    refine Change.sameConsts (ℓ := .library) rfl ?_ s
    rintro _ _ ⟨_, hc⟩
    cases hc
  · cases h

theorem newModule_run (h : (newModule name).run (.ofFuel n) s = .ok v t) : SameConsts s t := by
  cases h
  exact .alloc rfl

/-- The write of a name that is free, with what follows it. -/
theorem setConst_writesFree {α : Type} {g : Unit → Call α} (h : s.const? holder name = none)
    (hg : ∀ t, (g ()).WritesFree n t) :
    (update (.setConst holder name v) >>= g).WritesFree n s := by
  refine ⟨?_, fun _ t _ => hg t⟩
  rintro holder' name' ⟨v', hc⟩
  cases hc
  exact h

theorem newConst_writesFree (holder : Value) (name : String) (v : Value) (n : Nat) (s : Store) :
    (newConst holder name v).WritesFree n s := by
  refine .view ?_
  split
  · exact Act.writesFree_op _ n s
  · rename_i m hm
    split
    · trivial
    · rename_i hfree
      have hnone : s.const? holder name = none := by
        rw [const?, hm, Option.bind_some]
        simpa [Dict.contains] using hfree
      refine .op fun _ t ht => setConst_writesFree ?_ fun _ => trivial
      rw [(takeName_run ht).const?, hnone]

theorem createClass_writesFree (base : Value) (h : s.const? holder name = none) :
    (createClass holder name base).WritesFree n s := by
  refine .view ?_
  split
  · trivial
  · refine .view (.op fun c t ht => setConst_writesFree ?_ fun u => ?_)
    · rw [(subclass_run ht).const?, h]
    · exact .op fun _ _ _ => trivial

theorem namedClass_writesFree (holder : Value) (name : String) (base : Option Value) (n : Nat)
    (s : Store) : (namedClass holder name base).WritesFree n s := by
  refine .view ?_
  split
  · exact Act.writesFree_op _ n s
  · exact createClass_writesFree _ ‹_›

theorem namedModule_writesFree (holder : Value) (name : String) (n : Nat) (s : Store) :
    (namedModule holder name).WritesFree n s := by
  refine .view ?_
  split
  · refine .view ?_
    split <;> trivial
  · rename_i hnone
    refine .view (.op fun m t ht => setConst_writesFree ?_ fun _ => trivial)
    rw [(newModule_run ht).const?, hnone]

theorem define_writesFree (holder : Value) (name : String) (d : Definition) (n : Nat) (s : Store) :
    (define holder name d).WritesFree n s := by
  cases d with
  | constant v => exact newConst_writesFree holder name v n s
  | cls base => exact namedClass_writesFree holder name base n s
  | module => exact namedModule_writesFree holder name n s

/-! ## Calls -/

theorem runText_writesFree (p : Params Expr) (args : List Value) (block : Option Value)
    (strict : Bool) (body : Expr) (n : Nat) (s : Store) :
    (runText p args block strict body).WritesFree n s :=
  ⟨Act.writesFree_eval _ n s, fun _ _ _ => trivial⟩

theorem runCompiled_writesFree (name : String) (params : Params Expr) (body : Expr)
    (outer : Option ScopeId) (holder : Holder) (recv : Value) (args : List Value)
    (block : Option Value) (n : Nat) (s : Store) :
    (runCompiled name params body outer holder recv args block).WritesFree n s :=
  fun _ t => ⟨Act.writesFree_op _ n t, fun _ _ _ => runText_writesFree _ _ _ _ _ n _⟩

theorem runIn_writesFree {body : Call Value} (hbody : ∀ t, body.WritesFree n t) (p : Value)
    (lambda : Bool) (scope : ScopeId) (rebind : Option Rebind) (s : Store) :
    (runIn p lambda scope body rebind).WritesFree n s := by
  cases rebind with
  | some r =>
    rw [runIn]
    split <;> exact hbody _
  | none =>
    rw [runIn]
    split
    · exact fun _ _ => hbody _
    · exact hbody _

theorem runClosure_writesFree (p : Value) (c : Closure) (lambda : Bool) (args : List Value)
    (block : Option Value) (rebind : Option Rebind) (n : Nat) (s : Store) :
    (runClosure p c lambda args block rebind).WritesFree n s := by
  refine ⟨Act.writesFree_op _ n s, fun scope t _ => ?_⟩
  have hin (strict : Bool) :
      (runIn p lambda scope (runText c.params args block strict c.body) rebind).WritesFree n t :=
    runIn_writesFree (runText_writesFree _ _ _ _ _ n) p lambda scope rebind t
  -- what catches a `break` and a `next` is only wrapped around the body
  show (catchOwnBreak _ _ _).WritesFree n t
  unfold catchOwnBreak
  split <;> exact hin _

theorem runProc_writesFree (p : Value) (args : List Value) (block : Option Value)
    (rebind : Option Rebind) (n : Nat) (s : Store) :
    (runProc runNative p args block rebind).WritesFree n s := by
  refine ⟨trivial, fun d t _ => ?_⟩
  dsimp only
  split
  · exact ⟨Act.writesFree_op _ n t, fun _ _ _ => trivial⟩
  · exact Act.writesFree_eval _ n t
  · trivial

theorem runMethod_writesFree (m : MethodDef) (holder : Holder) (recv : Value) (args : List Value)
    (block : Option Value) (n : Nat) (s : Store) :
    (runMethod m holder recv args block).WritesFree n s := by
  have hop (x : Op Value) : (liftM x : Call Value).WritesFree n s := Act.writesFree_op x n s
  unfold runMethod
  split
  · exact hop _
  · trivial
  · refine .op fun v t _ => ⟨?_, fun _ _ _ => trivial⟩
    rintro _ _ ⟨_, hc⟩
    cases hc
  · exact hop _
  · exact runCompiled_writesFree _ _ _ _ _ _ _ _ n s
  · exact fun _ _ => trivial

theorem handle_writesFree (r : Request) (n : Nat) (s : Store) : (handle r).WritesFree n s := by
  cases r with
  | eval | send | sendBound => exact Act.writesFree_eval _ n s
  | store => exact ⟨Act.writesFree_eval _ n s, fun _ _ _ => trivial⟩
  | invoke => exact runMethod_writesFree _ _ _ _ _ n s
  | callProc => exact runProc_writesFree _ _ _ _ n s
  | define => exact define_writesFree _ _ _ n s
  | enter => exact runClosure_writesFree _ _ _ _ _ _ n s

end Eval

/-! ## Along a run -/

/-- Every constant of the first store is the same in the second. -/
def KeepsConsts (s t : Store) : Prop :=
  ∀ holder name v, s.const? holder name = some v → t.const? holder name = some v

theorem Store.SameConsts.keepsConsts {s t : Store} (h : SameConsts s t) : KeepsConsts s t := by
  intro holder name v hv
  rw [h.const?, hv]

theorem KeepsConsts.ofHeap : OfHeap KeepsConsts where
  trans h h' := fun holder name v hv => h' holder name v (h holder name v hv)
  of_same h := (SameConsts.of_objects h.objects).keepsConsts
  exception _ _ _ := SameConsts.keepsConsts (.newException _ _)

namespace Point

variable {p q : Point} {m : Mark} {π : Trail} {c : Change}

/-- The names that the action of a point defines by itself are free. -/
def WritesFree (p : Point) : Prop := p.act.WritesFree p.fuel p.store

theorem Enters.writesFree (he : Enters p m q) (hp : p.WritesFree) : q.WritesFree := by
  cases he with
  | first | ensure => exact hp.1
  | second hx => exact hp.2 _ _ hx
  | cleanup => exact hp.2 _
  | request | call => exact Eval.handle_writesFree _ _ _
  | @inspected n _ _ s v => exact Eval.handle_writesFree (.inspection v) n s
  | activate => exact hp _ _
  | lift | rescue | within | catchNext | catchBreak | handling => exact hp

theorem Running.writesFree (h : Running p π q) (hp : p.WritesFree) : q.WritesFree := by
  induction h with
  | start => exact hp
  | step _ he ih => exact he.writesFree ih

theorem Changes.keepsConsts (hc : q.Changes c) (hq : q.WritesFree) :
    KeepsConsts q.store (c.apply q.store) := by
  cases hc with
  | @mk _ _ _ s c _ h =>
    by_cases hset : ∃ holder name, c.SetsConst holder name
    · obtain ⟨holder, name, hset⟩ := hset
      have hfree : s.const? holder name = none := hq holder name hset
      obtain ⟨v, rfl⟩ := hset
      intro w n x hx
      rw [const?_setConst, if_neg, hx]
      rintro ⟨rfl, rfl, _⟩
      rw [hfree] at hx
      cases hx
    · have hkept : SameConsts s (c.apply s) :=
        Change.sameConsts h (fun holder name hc => hset ⟨holder, name, hc⟩) s
      exact hkept.keepsConsts

theorem WritesFree.outcome (hp : p.WritesFree) : KeepsConsts p.store p.outcome.store :=
  KeepsConsts.ofHeap.carried.outcome p fun _ _ _ hq hc => hc.keepsConsts (hq.writesFree hp)

theorem InSession.writesFree (h : q.InSession) : q.WritesFree := by
  cases h with
  | program h => exact h.writesFree trivial
  | @operation s _ _ x h => exact h.writesFree (Act.writesFree_op x _ s)

end Point

/-! ## Along a session -/

theorem Leads.keepsConsts {s t : Store} (h : Leads s t) : KeepsConsts s t := by
  have inside {p m q} (hp : Point.InSession p) (he : p.Enters m q) :
      KeepsConsts q.store q.outcome.store := (he.writesFree hp.writesFree).outcome
  cases h with
  | enters hp he => exact KeepsConsts.ofHeap.enters he fun _ _ => inside hp
  | ends hp => exact hp.writesFree.outcome
  | leaves hp he => exact KeepsConsts.ofHeap.enters_outcome he fun _ _ => inside hp
  | program s e => exact KeepsConsts.ofHeap.carried.runProgram s e
  | takeOutput s => exact (SameConsts.of_objects rfl).keepsConsts

/-- Once a class or module gives a name a value, it gives it the same value at every later moment,
whatever programs and operations run. -/
theorem Store.const?_of_leads {s t : Store} {holder v : Value} {name : String}
    (h : ReflTransGen Leads s t) (hv : s.const? holder name = some v) :
    t.const? holder name = some v := by
  induction h with
  | refl => exact hv
  | tail _ hl ih => exact hl.keepsConsts _ _ _ ih

/-- A class that stands for itself under the name `X`. -/
def namedItself : Store :=
  let itself : ModuleInfo :=
    { name := "X", isModule := false, base := none, alloc := .object
      consts := ({} : Dict Value).insert "X" ⟨0⟩ }
  { config := {}
    objects := #[{ cls := ⟨0⟩, payload := .module itself }]
    scopes := #[{ kind := .top, parent := none }]
    frames := [⟨⟨0⟩, none, ⟨0⟩, none⟩]
    scopeStack := [⟨0⟩] }

/-- The class is opened again, and then its name is written. -/
theorem Store.const?_of_leads_rewritten :
    let e : Expr := .sequence [.openClass .lexical "X" none none, .setConst .lexical "X" .nil]
    ReflTransGen Leads namedItself (namedItself.runProgram e).2 ∧
      namedItself.const? ⟨0⟩ "X" = some ⟨0⟩ ∧
      (namedItself.runProgram e).2.const? ⟨0⟩ "X" = some ⟨0⟩ := by
  intro e
  have hends : Leads namedItself (Point.ofProgram namedItself e).outcome.store :=
    .ends (.program .start)
  have hleads : ReflTransGen Leads namedItself (namedItself.runProgram e).2 :=
    .tail (.single hends) (.program namedItself e)
  have hbound : namedItself.const? ⟨0⟩ "X" = some ⟨0⟩ := by decide
  exact ⟨hleads, hbound, Store.const?_of_leads hleads hbound⟩

end Garnet
