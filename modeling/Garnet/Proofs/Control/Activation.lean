import Garnet.Proofs.Control.Later

/-!
# Bodies run inside their activations

The body of a method, of a lambda and of a proc that is a method runs inside the activation that a
`return` in it ends. Only calls open such bodies, and a call that does so has begun the activation
itself or was asked to by the one that has.
-/

namespace Garnet

/-- The activation that belongs to a body is among the live ones. -/
def Setting.LicensedBy (live : Nat → Prop) : Setting → Prop
  | .method _ a | .methodProc _ a => live a.id
  | .lambda _ id => live id
  | _ => True

def Request.LicensedBy (live : Nat → Prop) : Request → Prop
  | .callProc _ _ _ (some r) | .enter _ _ _ _ _ (some r) => r.lambda = true → live r.activation.id
  | _ => True

/-- Every body that an action opens or asks for has its activation among the live ones. -/
def Act.LicensedBy {ℓ : Layer} {α : Type} : Act ℓ α → (Nat → Prop) → Prop
  | .bind x f, live => x.LicensedBy live ∧ ∀ a, (f a).LicensedBy live
  | .lift x _, live | .rescue x _, live | .catchNext x _, live | .catchBreak _ x _, live
  | .handling _ x, live => x.LicensedBy live
  | .perform r _ _, live => r.LicensedBy live
  | .ensure x cleanup, live => x.LicensedBy live ∧ cleanup.LicensedBy live
  | .within st _ x _, live => st.LicensedBy live ∧ x.LicensedBy live
  | .activate x _, live => ∀ id, (x id).LicensedBy fun i => i = id ∨ live i
  | _, _ => True

variable {live live' : Nat → Prop} {ℓ : Layer} {α : Type}

namespace Act

theorem LicensedBy.mono {x : Act ℓ α} (h : x.LicensedBy live) (hl : ∀ i, live i → live' i) :
    x.LicensedBy live' := by
  induction x generalizing live live' with
  | bind x f ihx ihf => exact ⟨ihx h.1 hl, fun a => ihf a (h.2 a) hl⟩
  | lift x _ ih | rescue x _ ih | catchNext x _ ih | catchBreak _ x _ ih | handling _ x ih =>
    exact ih h hl
  | perform r f _ =>
    cases r with
    | callProc _ _ _ rebind | enter _ _ _ _ _ rebind =>
      cases rebind with
      | none => trivial
      | some r => exact fun hr => hl _ (h hr)
    | _ => trivial
  | ensure x cleanup ihx ihc => exact ⟨ihx h.1 hl, ihc h.2 hl⟩
  | within st scope x _ ih =>
    refine ⟨?_, ih h.2 hl⟩
    cases st with
    | method | methodProc | lambda => exact hl _ h.1
    | _ => trivial
  | activate x f ih =>
    intro id
    exact ih id (h id) fun i hi => hi.imp_right (hl i)
  | _ => trivial

/-- Below the layer of calls nothing opens such a body. -/
theorem licensedBy_of_ne (x : Act ℓ α) (hℓ : ℓ ≠ .call) : x.LicensedBy live := by
  induction x generalizing live with
  | bind x f ihx ihf => exact ⟨ihx hℓ, fun a => ihf a hℓ⟩
  | @lift ℓ k _ x hk ih =>
    refine ih fun h => hℓ ?_
    subst h
    cases ℓ <;> first | rfl | cases hk
  | rescue x _ ih | catchNext x _ ih | catchBreak _ x _ ih | handling _ x ih => exact ih hℓ
  | @perform ℓ _ r f h =>
    cases r with
    | callProc p args block rebind =>
      cases rebind with
      | none => trivial
      | some r =>
        intro hr
        cases ℓ with
        | call => exact absurd rfl hℓ
        | _ => simp [Request.allowed, hr] at h
    | enter =>
      cases ℓ with
      | call => exact absurd rfl hℓ
      | _ => cases h
    | _ => trivial
  | ensure x cleanup ihx ihc => exact ⟨ihx hℓ, ihc hℓ⟩
  | @within ℓ _ st scope x h ih =>
    refine ⟨?_, ih hℓ⟩
    cases ℓ with
    | call => exact absurd rfl hℓ
    | _ => cases st <;> trivial
  | activate => exact absurd rfl hℓ
  | _ => trivial

theorem licensedBy_op (x : Op α) : (liftM x : Call α).LicensedBy live :=
  licensedBy_of_ne x nofun

theorem licensedBy_eval (x : Eval α) : (liftM x : Call α).LicensedBy live :=
  licensedBy_of_ne x nofun

end Act

namespace Eval

theorem runText_licensed (p : Params Expr) (args : List Value) (block : Option Value)
    (strict : Bool) (body : Expr) : (runText p args block strict body).LicensedBy live :=
  ⟨Act.licensedBy_eval _, fun _ => trivial⟩

theorem runCompiled_licensed (name : String) (params : Params Expr) (body : Expr)
    (outer : Option ScopeId) (holder : Holder) (recv : Value) (args : List Value)
    (block : Option Value) :
    (runCompiled name params body outer holder recv args block).LicensedBy live :=
  fun _ => ⟨trivial, fun _ => ⟨.inl rfl, runText_licensed _ _ _ _ _⟩⟩

theorem runClosure_licensed {p : Value} {c : Closure} {lambda : Bool} {args : List Value}
    {block : Option Value} {rebind : Option Rebind}
    (h : (Request.enter p c lambda args block rebind).LicensedBy live) :
    (runClosure p c lambda args block rebind).LicensedBy live := by
  refine ⟨trivial, fun scope => ?_⟩
  -- what catches a `break` and a `next` is only wrapped around the body
  suffices hin : ∀ strict, (runIn p lambda scope (runText c.params args block strict c.body)
      rebind).LicensedBy live by
    show (catchOwnBreak _ _ _).LicensedBy live
    unfold catchOwnBreak
    split <;> exact hin _
  intro strict
  cases rebind with
  | some r =>
    simp only [runIn]
    split
    · exact ⟨h ‹_›, runText_licensed _ _ _ _ _⟩
    · exact ⟨trivial, runText_licensed _ _ _ _ _⟩
  | none =>
    simp only [runIn]
    split
    · exact fun _ => ⟨.inl rfl, runText_licensed _ _ _ _ _⟩
    · exact ⟨trivial, runText_licensed _ _ _ _ _⟩

theorem runProc_licensed {p : Value} {args : List Value} {block : Option Value}
    {rebind : Option Rebind} (h : (Request.callProc p args block rebind).LicensedBy live) :
    (runProc runNative p args block rebind).LicensedBy live := by
  refine ⟨trivial, fun d => ?_⟩
  dsimp only
  split
  · exact ⟨Act.licensedBy_op _, fun _ => trivial⟩
  · exact Act.licensedBy_eval _
  · cases rebind with
    | none => trivial
    | some r => exact h

theorem newConst_licensed (holder : Value) (name : String) (v : Value) :
    (newConst holder name v).LicensedBy live := by
  refine ⟨trivial, fun m => ?_⟩
  cases m with
  | none => exact Act.licensedBy_op _
  | some m =>
    dsimp only
    split
    · trivial
    · exact ⟨Act.licensedBy_op _, fun _ => ⟨trivial, fun _ => trivial⟩⟩

theorem namedClass_licensed (container : Value) (name : String) (base : Option Value) :
    (namedClass container name base).LicensedBy live := by
  refine ⟨trivial, fun c => ?_⟩
  cases c with
  | some c => exact Act.licensedBy_op _
  | none =>
    refine ⟨trivial, fun isClass => ?_⟩
    dsimp only
    split
    · trivial
    · exact ⟨trivial, fun _ => ⟨Act.licensedBy_op _, fun _ => ⟨trivial, fun _ =>
        ⟨Act.licensedBy_op _, fun _ => trivial⟩⟩⟩⟩

theorem namedModule_licensed (container : Value) (name : String) :
    (namedModule container name).LicensedBy live := by
  refine ⟨trivial, fun m => ?_⟩
  cases m with
  | some m =>
    refine ⟨trivial, fun isModule => ?_⟩
    dsimp only
    split <;> trivial
  | none => exact ⟨trivial, fun _ => ⟨Act.licensedBy_op _, fun _ => ⟨trivial, fun _ => trivial⟩⟩⟩

theorem define_licensed (holder : Value) (name : String) (d : Definition) :
    (define holder name d).LicensedBy live := by
  cases d with
  | constant v => exact newConst_licensed _ _ _
  | cls base => exact namedClass_licensed _ _ _
  | module => exact namedModule_licensed _ _

theorem runMethod_licensed (m : MethodDef) (holder : Holder) (recv : Value) (args : List Value)
    (block : Option Value) : (runMethod m holder recv args block).LicensedBy live := by
  have native (x : Op Value) : (liftM x : Call Value).LicensedBy live := Act.licensedBy_op x
  unfold runMethod
  split
  · exact native _
  · trivial
  · exact ⟨Act.licensedBy_op _, fun _ => ⟨trivial, fun _ => trivial⟩⟩
  · exact Act.licensedBy_op _
  · exact runCompiled_licensed _ _ _ _ _ _ _ _
  · exact fun _ _ => .inl rfl

theorem handle_licensed {r : Request} (h : r.LicensedBy live) : (handle r).LicensedBy live := by
  cases r with
  | eval | send | sendBound => exact Act.licensedBy_eval _
  | store => exact ⟨Act.licensedBy_eval _, fun _ => trivial⟩
  | invoke => exact runMethod_licensed _ _ _ _ _
  | callProc => exact runProc_licensed h
  | define => exact define_licensed _ _ _
  | enter => exact runClosure_licensed h

end Eval

/-! ## Activations in progress -/

/-- An activation is in progress. -/
def Trail.Live (π : Trail) (id : Nat) : Prop := ∃ k, (k, .activation id) ∈ π

namespace Point

variable {p q k : Point} {m : Mark} {π ρ : Trail}

theorem live_cons {c : Point × Mark} {id : Nat} (h : π.Live id) : Trail.Live (c :: π) id := by
  obtain ⟨k, hk⟩ := h
  exact ⟨k, List.mem_cons_of_mem _ hk⟩

theorem Enters.licensed (he : Enters p m q) (hp : p.act.LicensedBy π.Live) :
    q.act.LicensedBy (Trail.Live ((p, m) :: π)) := by
  cases he with
  | first => exact hp.1.mono fun _ => live_cons
  | second => exact (hp.2 _).mono fun _ => live_cons
  | lift => exact hp.mono fun _ => live_cons
  | request => exact (Eval.handle_licensed hp).mono fun _ => live_cons
  | call => exact (Eval.handle_licensed hp).mono fun _ => live_cons
  | rescue => exact hp.mono fun _ => live_cons
  | inspected => exact Eval.handle_licensed (r := .inspection _) trivial
  | ensure => exact hp.1.mono fun _ => live_cons
  | cleanup => exact hp.2.mono fun _ => live_cons
  | within => exact hp.2.mono fun _ => live_cons
  | activate =>
    refine (hp _).mono fun i hi => ?_
    rcases hi with rfl | hi
    · exact ⟨_, List.mem_cons_self⟩
    · exact live_cons hi
  | catchNext => exact hp.mono fun _ => live_cons
  | catchBreak => exact hp.mono fun _ => live_cons
  | handling => exact hp.mono fun _ => live_cons

theorem Running.licensed (h : Running p π q) (hp : p.act.LicensedBy fun _ => False) :
    q.act.LicensedBy π.Live := by
  induction h with
  | start => exact hp.mono fun _ hf => hf.elim
  | step _ he ih => exact he.licensed ih

/-- A body that has an activation of its own runs inside of it. -/
theorem Running.live_of_body {st : Setting} {scope : ScopeId} {s : Store} {e : Expr}
    (h : Running (ofProgram s e) (ρ ++ (k, .body st scope) :: π) q) : st.LicensedBy π.Live := by
  obtain ⟨hk, _, he, _⟩ := h.split
  have hl := hk.licensed (p := ofProgram s e) trivial
  cases he with
  | within => exact hl.1

end Point

end Garnet
