import Garnet.Proofs.Control.Activation
import Garnet.Proofs.Control.Unwinding

/-!
# Where a return goes

A `return` ends the activation that the current frame names. For the body of a method, of a lambda
or of a proc that is a method this is its own activation. A plain block has the frame it was made
in, so a `return` in it ends what a `return` beside the block would end, whatever the block was
handed to. Only a lambda that runs with another self has no activation of its own, and a `return` in
it is that of a plain block.
-/

namespace Garnet

/-! ## Operations that ask nothing -/

/-- An action that makes no request and does not return. -/
def Act.Silent {ℓ : Layer} {α : Type} : Act ℓ α → Prop
  | .perform .. | .inspected .. | .leave _ => False
  | .bind x f => x.Silent ∧ ∀ a, (f a).Silent
  | .lift x _ | .rescue x _ | .catchNext x _ | .catchBreak _ x _ | .within _ _ x _
  | .handling _ x => x.Silent
  | .ensure x cleanup => x.Silent ∧ cleanup.Silent
  | .activate x _ => ∀ id, (x id).Silent
  | _ => True

/-- What answers to `inspect` is the operation that the library has for integers, floats or nil. -/
def Store.InspectsPlainly (s : Store) (v : Value) : Prop :=
  ∃ r index entry, s.findMethod v "inspect" .all = .ok r ∧ r.method.body = .builtin index ∧
    Library.all[index]? = some entry ∧ (entry.run = Library.Integers.toS ∨
      entry.run = Library.Floats.toS ∨ entry.run = Library.Truth.text "nil")

theorem Eval.runMethod_builtin {m : MethodDef} {index : Nat} (h : m.body = .builtin index)
    (holder : Holder) (recv : Value) (args : List Value) (block : Option Value) :
    Eval.runMethod m holder recv args block = liftM (Library.run index recv args block) := by
  unfold Eval.runMethod
  rw [h]

theorem Eval.needWord_silent (v : Value) : (Eval.needWord v).Silent := by
  refine ⟨trivial, fun x => ?_⟩
  dsimp only
  split
  · split <;> trivial
  · trivial
  · refine ⟨⟨trivial, fun l => ?_⟩, fun _ => trivial⟩
    dsimp only
    split
    · trivial
    · trivial
    · trivial
    · trivial

theorem Library.silent_of_inspect {run : Native} {v : Value} (h : run = Library.Integers.toS ∨
    run = Library.Floats.toS ∨ run = Library.Truth.text "nil") : (run v [] none).Silent := by
  rcases h with rfl | rfl | rfl
  · have hrest (radix : Int) : (if radix < 2 || radix > 36 then
        Eval.argumentError s!"invalid radix {radix}"
        else Integers.intOf v >>= fun i =>
          Eval.newChars (Number.inRadix radix.toNat i)).Silent := by
      split
      · trivial
      · exact ⟨⟨trivial, fun _ => trivial⟩, fun _ => trivial⟩
    refine ⟨trivial, fun r => ?_⟩
    cases r with
    | none => exact ⟨trivial, hrest⟩
    | some r => exact ⟨Eval.needWord_silent r, hrest⟩
  · exact ⟨⟨trivial, fun _ => trivial⟩, fun _ => trivial⟩
  · trivial

namespace Point

variable {p q : Point} {m : Mark} {π ρ : Trail} {v : Value} {s : Store}

theorem Enters.silent (he : Enters p m q) (hp : p.act.Silent) : q.act.Silent := by
  cases he with
  | first => exact hp.1
  | second => exact hp.2 _
  | request | call | inspected => exact hp.elim
  | ensure => exact hp.1
  | cleanup => exact hp.2
  | activate => exact hp _
  | _ => exact hp

/-- The point of a `return`. -/
inductive Leaves : Point → Prop where
  | mk {n α v s} : Leaves ⟨n, (.leave v : Eval α), s⟩

/-- No `return` is evaluated from this point on. -/
def Harmless (p : Point) : Prop := ∀ π q, Running p π q → ¬q.Leaves

theorem Running.outer (h : Running p π q) :
    q = p ∨ ∃ m p' ρ, Enters p m p' ∧ Running p' ρ q := by
  induction h with
  | start => exact .inl rfl
  | step _ he ih =>
    rcases ih with rfl | ⟨m, p', ρ, hm, hin⟩
    · exact .inr ⟨_, _, [], he, .start⟩
    · exact .inr ⟨m, p', _, hm, hin.step he⟩

theorem Harmless.intro (hp : ¬p.Leaves) (h : ∀ m p', Enters p m p' → Harmless p') :
    Harmless p := by
  intro π q hq
  rcases hq.outer with rfl | ⟨m, p', ρ, he, hin⟩
  · exact hp
  · exact h m p' he ρ q hin

theorem harmless_of_silent (hp : p.act.Silent) : Harmless p := by
  intro π q hq hl
  have hs : q.act.Silent := by
    clear hl
    induction hq with
    | start => exact hp
    | step _ he ih => exact he.silent ih
  cases hl
  exact hs

/-- A number or nil that answers as the library has it evaluates no `return`. -/
theorem harmless_inspection {n : Nat} (h : s.InspectsPlainly v) :
    Harmless ⟨n, Eval.handle (.inspection v), s⟩ := by
  obtain ⟨r, index, entry, hfind, hbody, hentry, hrun⟩ := h
  have hsilent : (Eval.runMethod r.method r.holder v [] none).Silent := by
    rw [Eval.runMethod_builtin hbody, Library.run_eq hentry]
    exact Library.silent_of_inspect hrun
  refine .intro nofun fun m p' he => ?_
  cases he with | lift
  refine .intro nofun fun m p' he => ?_
  cases he with
  | first => exact harmless_of_silent trivial
  | second hx =>
    cases hx
    dsimp only
    rw [hfind]
    refine .intro nofun fun m p' he => ?_
    cases he with
    | request hr => cases hr
    | call => exact harmless_of_silent hsilent

end Point

/-! ## Targets -/

/-- What a `return` in a body ends, for a body opened at `k` inside of the constructs `π`. A block
made at `b` ends what a `return` at `b` would end. -/
def Setting.ReturnsTo (st : Setting) (k : Point) (π : Trail) (target : Option Nat) : Prop :=
  match st with
  | .method _ a | .methodProc _ a => target = some a.id ∧ π.Live a.id
  | .lambda _ id => target = some id ∧ π.Live id
  | .block p | .step p => target = (k.store.captured p).returnTarget ∧
      ∀ b : Point, b.Makes p → b.Before k → target = b.store.frame.returnTarget
  | .rebound p _ _ a => target = ((k.store.captured p).returnTarget <|> some a.id) ∧
      ∀ b : Point, b.Makes p → b.Before k → target = (b.store.frame.returnTarget <|> some a.id)
  | .classBody _ => target = none

theorem Mark.catches_return {m : Mark} {id : Nat} {v : Value} (ha : m ≠ .activation id)
    (hw : ∀ w, m ≠ .awaitsAnswer w) : m.catches (.returnTo (some id) v) = false := by
  cases m with
  | activation id' =>
    refine beq_eq_false_iff_ne.mpr fun h => ?_
    exact ha (congrArg Mark.activation (Option.some.inj h).symm)
  | awaitsAnswer w => exact absurd rfl (hw w)
  | _ => rfl

def Mark.isAwaitsAnswer : Mark → Bool
  | .awaitsAnswer _ => true
  | _ => false

theorem Trail.inspectsPlainly_of_none {π : Trail} (h : π.any (·.2.isAwaitsAnswer) = false) :
    ∀ c ∈ π, ∀ w, c.2 = .awaitsAnswer w → c.1.store.InspectsPlainly w := by
  intro c hc w hm
  have hc := List.any_eq_false.mp h c hc
  rw [hm] at hc
  exact absurd rfl hc

namespace Point

variable {p q k : Point} {m : Mark} {π ρ : Trail} {v : Value} {s : Store} {e : Expr}

/-- The current frame is that of the innermost body. -/
theorem Running.frame_eq {st : Setting} {scope : ScopeId}
    (h : Running p (ρ ++ (k, .body st scope) :: π) q) (hρ : ρ.frames = []) :
    q.store.frame = st.frame k.store scope := by
  obtain ⟨_, k', he, hin⟩ := h.split
  cases he with
  | within =>
    have hf := hin.raised.frames
    rw [hρ] at hf
    rw [Store.frame, hf]
    rfl

theorem Running.returnsTo {st : Setting} {scope : ScopeId}
    (h : Running (ofProgram s e) (ρ ++ (k, .body st scope) :: π) q) (hρ : ρ.frames = []) :
    st.ReturnsTo k π q.store.frame.returnTarget := by
  have hlive := h.live_of_body
  rw [h.frame_eq hρ]
  cases st with
  | method self a => exact ⟨rfl, hlive⟩
  | lambda p id => exact ⟨rfl, hlive⟩
  | methodProc self a => exact ⟨rfl, hlive⟩
  | block p | step p => exact ⟨rfl, fun b hb hk => congrArg Frame.returnTarget (hb.captured hk)⟩
  | rebound p lambda self a =>
    have htarget : (Setting.frame k.store scope (.rebound p lambda self a)).returnTarget =
        ((k.store.captured p).returnTarget <|> some a.id) := rfl
    refine ⟨htarget, fun b hb hk => ?_⟩
    rw [htarget, hb.captured hk]
  | classBody target => rfl

/-- On the way to a `return` nobody is asked for an answer that any signal would stand in for. -/
theorem Running.not_awaitsAnswer (h : Running p π q) (hq : q.Leaves)
    (hinspect : ∀ c ∈ π, ∀ w, c.2 = .awaitsAnswer w → c.1.store.InspectsPlainly w) :
    ∀ c ∈ π, ∀ w, c.2 ≠ .awaitsAnswer w := by
  rintro ⟨k, m⟩ hc w rfl
  have hplain := hinspect _ hc w rfl
  obtain ⟨ρ, π', rfl⟩ := List.append_of_mem hc
  obtain ⟨_, k', he, hin⟩ := h.split
  cases he with
  | inspected => exact harmless_inspection hplain ρ q hin hq

theorem Enters.activation {id : Nat} (he : Enters p (.activation id) q) :
    id = p.store.lastActivation + 1 ∧ q.store.lastActivation = id := by
  cases he with
  | activate => exact ⟨rfl, rfl⟩

/-- Activations in progress have different numbers. -/
theorem Running.activation_unique {id : Nat}
    (h : Running p (ρ ++ (k, .activation id) :: π) q) : ¬Trail.Live (ρ ++ π) id := by
  rintro ⟨k', hk'⟩
  obtain ⟨hk, r, he, hin⟩ := h.split
  rcases List.mem_append.mp hk' with hρ | hπ
  · have hlt := hin.activation_fresh hρ
    rw [he.activation.2] at hlt
    exact Nat.lt_irrefl _ hlt
  · obtain ⟨π₁, π₂, rfl⟩ := List.append_of_mem hπ
    obtain ⟨_, r', he', hin'⟩ := hk.split
    have hle := hin'.later.activations
    rw [he'.activation.2] at hle
    exact Nat.not_succ_le_self _ (he.activation.1 ▸ hle)

theorem Running.letsThrough {id : Nat} (h : Running p π q) (hq : q.Leaves)
    (hclean : ∀ c ∈ π, c.2 = .ensured → c.1.CleansUp)
    (hinspect : ∀ c ∈ π, ∀ w, c.2 = .awaitsAnswer w → c.1.store.InspectsPlainly w)
    (hover : ¬π.Live id) : π.LetsThrough (.returnTo (some id) v) := by
  rintro ⟨k, m⟩ hc
  refine ⟨Mark.catches_return ?_ (h.not_awaitsAnswer hq hinspect _ hc), hclean _ hc⟩
  rintro rfl
  exact hover ⟨k, hc⟩

end Point

/-- A `return` ends the activation that is its target with its value, and everything inside of that
passes it on; when the target is over it ends the program with an error. The target is fixed by the
body that the `return` stands in. -/
theorem Store.runProgram_return {s t : Store} {e : Expr} {π : Trail} {n : Nat} {α : Type}
    {v : Value} (hq : (Point.ofProgram s e).Running π ⟨n, (.leave v : Eval α), t⟩)
    (hclean : ∀ c ∈ π, c.2 = .ensured → c.1.CleansUp)
    (hinspect : ∀ c ∈ π, ∀ w, c.2 = .awaitsAnswer w → c.1.store.InspectsPlainly w) :
    (∀ (ρ : Trail) k st scope π', π = ρ ++ (k, .body st scope) :: π' → ρ.frames = [] →
      st.ReturnsTo k π' t.frame.returnTarget) ∧
    (∀ ρ k id π', π = ρ ++ (k, .activation id) :: π' → t.frame.returnTarget = some id →
      k.Yields v ∧ (∀ c ∈ ρ, c.1.EndsWith (.returnTo (some id) v)) ∧ ¬Trail.Live (ρ ++ π') id) ∧
    (∀ id, t.frame.returnTarget = some id → ¬π.Live id →
      (s.runProgram e).1.Fails (s.runProgram e).2 .localJumpError "unexpected return") := by
  refine ⟨?_, ?_, fun id hid hover => ?_⟩
  · rintro ρ k st scope π' rfl hρ
    exact hq.returnsTo hρ
  · rintro ρ k id π' rfl hid
    have huniq := hq.activation_unique
    obtain ⟨_, k', he, hin⟩ := hq.split
    have hend : Point.EndsWith ⟨n, (.leave v : Eval α), t⟩ (.returnTo (some id) v) :=
      ⟨t, hid ▸ rfl⟩
    have hthrough : Trail.LetsThrough ρ (.returnTo (some id) v) := by
      refine hin.letsThrough .mk (fun c hc => hclean c (List.mem_append_left _ hc))
        (fun c hc => hinspect c (List.mem_append_left _ hc)) ?_
      rintro ⟨k, hk⟩
      exact huniq ⟨k, List.mem_append_left _ hk⟩
    obtain ⟨hk', hall⟩ := hin.passes hthrough hend
    exact ⟨he.yields_return hk', hall, huniq⟩
  · have hend : Point.EndsWith ⟨n, (.leave v : Eval α), t⟩ (.returnTo (some id) v) :=
      ⟨t, hid ▸ rfl⟩
    exact runProgram_of_return (hq.passes (hq.letsThrough .mk hclean hinspect hover) hend).1

/-- The return of a method that the outermost scope binds. -/
theorem Store.runProgram_return_method :
    let m : MethodDef := ⟨"m", .compiled {} (.returnWith .nil) none, true⟩
    let top : Scope := { kind := .top, parent := none, pending := ⟨[("m", ⟨m, .pub⟩)]⟩ }
    let s : Store :=
      { config := {}, objects := #[], scopes := #[top], frames := [], scopeStack := [⟨0⟩] }
    ∃ π k, (Point.ofProgram s (.send none "m" [] .none false false)).Running π k ∧
      k.Yields .nil := by
  intro m top s
  have h := (Point.Running.start
    (p := .ofProgram s (.send none "m" [] .none false false))).step (.request rfl)
  -- the call that the program is
  have h := (((h.step .lift).step (.second rfl)).step (.second rfl)).step (.second rfl)
  have h := ((h.step .first).step (.second rfl)).step (.second rfl)
  -- the activation and the body of the method
  have hk := h.step (.call rfl (by decide))
  have h := ((hk.step .activate).step (.second rfl)).step .within
  have h := (((h.step (.second rfl)).step (.request rfl)).step .lift).step (.second rfl)
  have hreturn := Store.runProgram_return h (Trail.cleansUp_of_none rfl)
    (Trail.inspectsPlainly_of_none rfl)
  exact ⟨_, _, hk, (hreturn.2.1 [_, _, _, _, _, _] _ 1 _ rfl rfl).1⟩

end Garnet
