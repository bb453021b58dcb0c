import Garnet.Proofs.Jumps.Forms

/-!
# Calls keep `next` in its place

A call of a block takes the `next` of its text, the defaults of its parameters included. The body of
a method has none to give away. So every request of placed code fits, and along every run the code
in the store and the code that is evaluated stay placed.
-/

namespace Garnet

namespace Eval

variable {A : String → Prop} {b : Bool} {params : Params Expr} {body : Expr}

theorem bindOptional_placed {ps : List (String × Expr)} (h : PlacedAll A b (ps.map (·.2)))
    (scope : ScopeId) (vs : List Value) : (bindOptional scope ps vs).Placed A b := by
  induction ps generalizing vs with
  | nil => trivial
  | cons p ps ih =>
    rw [List.map_cons, placedAll_cons] at h
    cases vs with
    | cons v vs => exact .bind (.op _) fun _ _ => ih h.2 vs
    | nil =>
      refine .bind (P := fun _ => True) ⟨h.1, fun _ => trivial⟩ fun _ _ => ?_
      exact .bind (.op _) fun _ _ => ih h.2 []

theorem bindParams_placed (h : PlacedAll A b params.parts) (args : List Value)
    (block : Option Value) (strict : Bool) : (bindParams params args block strict).Placed A b := by
  refine .bind (.op _) fun args _ => ?_
  split
  · trivial
  · refine .bind (.view _) fun scope _ => .bind (.op _) fun _ _ => ?_
    refine .bind (bindOptional_placed h scope _) fun _ _ => ?_
    exact .bind (.op _) fun _ _ => .bind (.op _) fun _ _ => .op _

theorem runText_placed (hp : PlacedAll A b params.parts) (hb : body.Placed A b) (args : List Value)
    (block : Option Value) (strict : Bool) : (runText params args block strict body).Placed A b :=
  .bind (P := fun _ => True) (bindParams_placed hp args block strict) fun _ _ =>
    ⟨hb, fun _ => trivial⟩

theorem runIn_placed {x : Call Value} (h : x.Placed A b) (p : Value) (lambda : Bool)
    (scope : ScopeId) (rebind : Option Rebind) : (runIn p lambda scope x rebind).Placed A b := by
  cases rebind with
  | some r =>
    rw [runIn]
    split
    · exact h
    · exact h
  | none =>
    rw [runIn]
    split
    · exact ⟨fun _ => h, fun _ => trivial⟩
    · exact h

theorem catchOwnBreak_placed {x : Call Value} (h : x.Placed A b) (strict : Bool) (site : Nat) :
    (catchOwnBreak strict site x).Placed A b := by
  unfold catchOwnBreak
  split
  · exact ⟨h, fun _ => trivial⟩
  · exact h

theorem runClosure_placed {c : Closure} (h : (ProcBody.closure c).Placed A) (p : Value)
    (lambda : Bool) (args : List Value) (block : Option Value) (rebind : Option Rebind) :
    (runClosure p c lambda args block rebind).Placed A b := by
  refine .bind (.op _) fun scope _ => ⟨catchOwnBreak_placed ?_ _ _, fun _ => trivial⟩
  exact runIn_placed (runText_placed h.1 h.2 _ _ _) _ _ _ _

theorem runNative_placed {n : NativeBlock} (h : (ProcBody.native n).Placed A) (p : Value)
    (args : List Value) : (runNative p n args).Placed A true := by
  cases n with
  | visit => exact .op _
  | forStep target body frame scope => exact forStep_placed h.1 h.2 p scope args
  | message name =>
    cases args with
    | nil => trivial
    | cons v rest => exact .op _

theorem runProc_placed (p : Value) (args : List Value) (block : Option Value)
    (rebind : Option Rebind) : (runProc runNative p args block rebind).Placed A b := by
  have hproc : (view (·.proc? p) : Call _).Fits A b fun d => ∀ d' ∈ d, d'.body.Placed A :=
    fun _ hs _ hd => hs.proc? hd
  refine .bind hproc fun d hd => ?_
  rcases d with _ | ⟨c | n, lambda⟩
  · exact .bind (.op _) fun _ _ => trivial
  · exact ⟨hd _ rfl, fun _ => trivial⟩
  · exact ⟨runNative_placed (hd _ rfl) p args, fun _ => trivial⟩

theorem setConst_placed (holder : Value) (name : String) (v : Value) :
    (update (.setConst holder name v) : Call Unit).Placed A b :=
  ⟨trivial, fun _ _ => trivial⟩

theorem newConst_placed (holder : Value) (name : String) (v : Value) :
    (newConst holder name v).Placed A b := by
  refine .bind (.view _) fun m _ => ?_
  cases m with
  | none => exact .op _
  | some m =>
    dsimp only
    split
    · trivial
    · exact .bind (.op _) fun _ _ => .bind (setConst_placed _ _ _) fun _ _ => trivial

theorem namedClass_placed (container : Value) (name : String) (base : Option Value) :
    (namedClass container name base).Placed A b := by
  refine .bind (.view _) fun c _ => ?_
  cases c with
  | some c => exact .op _
  | none =>
    refine .bind (.view _) fun isClass _ => ?_
    split
    · trivial
    · exact .bind (.view _) fun _ _ => .bind (.op _) fun _ _ =>
        .bind (setConst_placed _ _ _) fun _ _ => .bind (.op _) fun _ _ => trivial

theorem namedModule_placed (container : Value) (name : String) :
    (namedModule container name).Placed A b := by
  refine .bind (.view _) fun m _ => ?_
  cases m with
  | some m =>
    refine .bind (.view _) fun isModule _ => ?_
    split <;> trivial
  | none =>
    exact .bind (.view _) fun _ _ => .bind (.op _) fun _ _ =>
      .bind (setConst_placed _ _ _) fun _ _ => trivial

theorem define_placed (holder : Value) (name : String) (d : Definition) :
    (define holder name d).Placed A b := by
  cases d with
  | constant v => exact newConst_placed _ _ _
  | cls base => exact namedClass_placed _ _ _
  | module => exact namedModule_placed _ _

theorem runMethod_placed {m : MethodDef} (h : m.body.Placed A) (holder : Holder) (recv : Value)
    (args : List Value) (block : Option Value) :
    (runMethod m holder recv args block).Placed A b := by
  have hop (x : Op Value) : (liftM x : Call Value).Placed A b := .op x
  obtain ⟨name, body, fromSource⟩ := m
  cases body with
  | builtin index => exact hop _
  | reader ivar => exact .view _
  | writer ivar =>
    refine .bind (.op _) fun _ _ => .bind (P := fun _ => True) ?_ fun _ _ => trivial
    exact ⟨trivial, fun _ _ => trivial⟩
  | answer text => exact .op _
  | compiled params body scope =>
    refine ⟨fun id => .bind (.op _) fun _ _ => ?_, fun _ => trivial⟩
    exact runText_placed (h.1.mono nofun) (h.2.mono nofun) _ _ _
  | proc p => exact ⟨fun id => ⟨trivial, fun _ => trivial⟩, fun _ => trivial⟩

/-- What a request of placed code does fits. -/
theorem handle_placed {r : Request} (h : r.Placed A b) : (handle r).Placed A b := by
  cases r with
  | eval e => exact evalExpr_placed h
  | store t v => exact .bind (P := fun _ => True) (storeIn_placed h v) fun _ _ => trivial
  | send access recv name args block => exact answer_placed access recv name args block
  | sendBound recv name args block => exact answerBound_placed recv name args block
  | invoke m holder recv args block => exact runMethod_placed h holder recv args block
  | callProc p args block rebind => exact runProc_placed p args block rebind
  | define holder name d => exact define_placed holder name d
  | enter p c lambda args block rebind => exact runClosure_placed h p lambda args block rebind

end Eval

/-! ## Along a run -/

variable {A : String → Prop}

theorem Engine.deeper_good {b : Bool} {x : Run Value} {s : Store}
    (hx : ∀ s : Store, s.Placed A → (x s).Good A b fun _ => True) (hs : s.Placed A) :
    (deeper x s).Good A b fun _ => True := by
  unfold deeper
  split
  · exact .error nofun (hs.newException _ _)
  · have hx := hx { s with depth := s.depth + 1 } (hs.around rfl rfl)
    generalize x { s with depth := s.depth + 1 } = out at hx
    cases hx with
    | ok _ hs => exact .ok trivial (hs.around rfl rfl)
    | error hnext hs => exact .error hnext (hs.around rfl rfl)

theorem Engine.good (n : Nat) : (Engine.ofFuel n).Good A := by
  -- on the fuel: what a request does is run by the engine with one unit less
  induction n with
  | zero => exact fun r b s _ hs => .error nofun hs
  | succ n ih =>
    intro r b s hr hs
    have hx (s : Store) (hs : s.Placed A) :
        ((Eval.handle r).run (Engine.ofFuel n) s).Good A b fun _ => True :=
      (Eval.handle_placed hr).run ih hs
    change Ending.Good A b _ (Engine.run (n + 1) r s)
    unfold Engine.run
    dsimp only
    split
    · exact Engine.deeper_good hx hs
    · exact hx s hs

namespace Point

variable {p q : Point} {m : Mark} {π : Trail}

/-- The code at a point and in its store is placed. -/
structure Placed (A : String → Prop) (p : Point) : Prop where
  store : p.store.Placed A
  act : ∃ b Q, p.act.Fits A b Q

theorem outcome_good {b : Bool} {Q : p.result → Prop} (h : p.act.Fits A b Q)
    (hs : p.store.Placed A) : p.outcome.Good A b Q :=
  h.run (Engine.good p.fuel) hs

/-- What is entered from a point has its code in place too. -/
theorem Enters.placed (he : Enters p m q) (hp : p.Placed A) : q.Placed A := by
  obtain ⟨hs, b, Q, h⟩ := hp
  cases he with
  | first =>
    obtain ⟨P, hx, _⟩ := h
    exact ⟨hs, b, P, hx⟩
  | @second n _ _ _ s _ _ x _ hx =>
    obtain ⟨P, hfst, hsnd⟩ := h
    have hgood := outcome_good (p := ⟨n, x, s⟩) hfst hs
    rw [hx] at hgood
    cases hgood with
    | ok ha ht => exact ⟨ht, b, Q, hsnd _ ha⟩
  | lift => exact ⟨hs, b, Q, h⟩
  | request => exact ⟨hs, b, _, Eval.handle_placed h.1⟩
  | call => exact ⟨hs.around rfl rfl, b, _, Eval.handle_placed h.1⟩
  | rescue =>
    obtain ⟨P, hx, _⟩ := h
    exact ⟨hs, b, P, hx⟩
  | @inspected _ _ _ _ v => exact ⟨hs, b, _, Eval.handle_placed (r := .inspection v) trivial⟩
  | ensure => exact ⟨hs, b, Q, h.1⟩
  | @cleanup n _ _ s x =>
    have hgood := outcome_good (p := ⟨n, x, s⟩) h.1 hs
    exact ⟨hgood.store, b, _, h.2⟩
  | within => exact ⟨hs.around rfl rfl, b, Q, h⟩
  | activate => exact ⟨hs.around rfl rfl, b, _, h.1 _⟩
  | catchNext => exact ⟨hs, true, Q, h.1⟩
  | catchBreak => exact ⟨hs, b, Q, h.1⟩
  | handling => exact ⟨hs.around rfl rfl, b, Q, h⟩

theorem Running.placed (h : Running p π q) (hp : p.Placed A) : q.Placed A := by
  induction h with
  | start => exact hp
  | step _ he ih => exact he.placed ih

end Point

end Garnet
