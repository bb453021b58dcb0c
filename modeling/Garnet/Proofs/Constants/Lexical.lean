import Garnet.Proofs.Constants.Tables
import Garnet.Proofs.Control.Balance

/-!
# What a bare name denotes

A bare name is looked for in the classes of all bodies in progress, and not of those that enclose it
in the text. What it denotes inside of a body therefore depends on where that body was called from,
unless the body itself or what runs inside of it settles the matter, or both callers come to the
same.
-/

namespace Garnet

namespace Store

variable {s t : Store} {name : String}

/-- The classes and modules that frames define into, the innermost first. -/
def holders (s : Store) (frames : List Frame) : List Value := frames.map fun f => s.moduleFor f.self

/-- The meaning of a name in the first of these classes and modules that gives it one. -/
def constAmong? (s : Store) (name : String) (classes : List Value) : Option Value :=
  classes.findSome? (s.const? · name)

/-- Where a bare name is looked for when no body in progress gives it a meaning. -/
def above (s : Store) (c : Value) : List Value := s.ancestors c ++ [CoreClass.object.value]

theorem constAmong?_append (xs ys : List Value) :
    s.constAmong? name (xs ++ ys) = (s.constAmong? name xs <|> s.constAmong? name ys) := by
  rw [constAmong?, List.findSome?_append]
  cases h : xs.findSome? (s.const? · name) <;> simp [constAmong?, h]

theorem isSome_constAmong? {classes : List Value} :
    (s.constAmong? name classes).isSome ↔ ∃ c ∈ classes, (s.const? c name).isSome :=
  List.findSome?_isSome_iff

theorem SameConsts.constAmong? (h : SameConsts s t) (classes : List Value) :
    t.constAmong? name classes = s.constAmong? name classes := by
  unfold Store.constAmong?
  congr 1
  funext c
  exact h.const? c name

theorem lexicalConst?_eq :
    s.lexicalConst? name =
      s.constAmong? name (s.holders s.frames ++ s.above (s.moduleFor s.self)) := by
  rw [above, constAmong?_append, constAmong?_append, lexicalConst?, holders, constAmong?,
    List.findSome?_map]
  congr 1
  simp only [constAmong?, List.findSome?_cons, List.findSome?_nil]
  cases s.const? CoreClass.object.value name <;> rfl

/-- How the evaluation of a bare name ends. -/
def named (s : Store) (name : String) : Option Value → Ending Value
  | some v => .ok v s
  | none =>
    let (exc, s) := s.newException CoreClass.nameError.value s!"uninitialized constant {name}"
    .error (.signal (.raise exc)) s

theorem getConst_run (e : Engine) :
    (Eval.getConst name).run e s = s.named name (s.lexicalConst? name) := by
  simp only [Eval.getConst, bind, Eval.view, Act.run]
  cases s.lexicalConst? name <;> rfl

end Store

namespace Trail

theorem frames_append (ρ π : Trail) : frames (ρ ++ π) = frames ρ ++ frames π :=
  List.filterMap_append

/-- The frames of a body in progress and of those that it has opened. -/
def inside (ρ : Trail) (k : Point) (st : Setting) (scope : ScopeId) : List Frame :=
  frames ρ ++ [st.frame k.store scope]

end Trail

namespace Point

variable {p q k : Point} {π ρ : Trail} {st : Setting} {scope : ScopeId} {name : String}

theorem Running.frames_eq (h : Running p (ρ ++ (k, .body st scope) :: π) q) :
    q.store.frames = ρ.inside k st scope ++ (π.frames ++ p.store.frames) := by
  rw [h.raised.frames, Trail.frames_append, Trail.frames_cons, Trail.inside]
  simp only [List.append_assoc]
  rfl

/-- Inside of a body, the innermost frame is the one of the body or of one that it has opened. -/
theorem Running.moduleFor_self (h : Running p (ρ ++ (k, .body st scope) :: π) q) :
    some (q.store.moduleFor q.store.self) =
      (q.store.holders (ρ.inside k st scope)).head? := by
  rw [Store.self, Store.frame, h.frames_eq, Trail.inside, Store.holders]
  cases Trail.frames ρ <;> rfl

theorem Running.lexicalConst?_eq (h : Running p (ρ ++ (k, .body st scope) :: π) q) :
    q.store.lexicalConst? name =
      q.store.constAmong? name (q.store.holders (ρ.inside k st scope) ++
        (q.store.holders (π.frames ++ p.store.frames) ++
          q.store.above (q.store.moduleFor q.store.self))) := by
  rw [Store.lexicalConst?_eq, h.frames_eq, Store.holders, List.map_append, List.append_assoc]
  rfl

end Point

open Point Store

/-- Inside of the same body, run for the same receiver with the same classes and constants, a bare
name is looked for first in the classes of the body and of the bodies that it has opened, then in
those of the callers, then in what is above the innermost class, and nowhere else: what encloses the
body in the text counts only when it is one of these. The name denotes the same for both callers
exactly where the body settles the matter or both callers and what is above the class come to the
same. -/
theorem evalConst_callers {p p' k k' : Point} {π π' ρ ρ' : Trail} {st st' : Setting}
    {scope scope' : ScopeId} {n n' : Nat} {s s' : Store} {name : String}
    (hq : Running p (ρ ++ (k, .body st scope) :: π) ⟨n, Eval.evalExpr (.const .lexical name), s⟩)
    (hq' : Running p' (ρ' ++ (k', .body st' scope') :: π')
      ⟨n', Eval.evalExpr (.const .lexical name), s'⟩)
    (hconsts : SameConsts s s') (hancestors : ∀ c, s'.ancestors c = s.ancestors c)
    (hinside : s'.holders (ρ'.inside k' st' scope') = s.holders (ρ.inside k st scope)) :
    let inner := s.holders (ρ.inside k st scope)
    let callers := s.holders (π.frames ++ p.store.frames)
    let callers' := s'.holders (π'.frames ++ p'.store.frames)
    let above := s.above (s.moduleFor s.self)
    let found := s.constAmong? name (inner ++ (callers ++ above))
    let found' := s.constAmong? name (inner ++ (callers' ++ above))
    outcome ⟨n, Eval.evalExpr (.const .lexical name), s⟩ = s.named name found ∧
    outcome ⟨n', Eval.evalExpr (.const .lexical name), s'⟩ = s'.named name found' ∧
    (found.isSome ↔ ∃ c ∈ inner ++ (callers ++ above), (s.const? c name).isSome) ∧
    (found' = found ↔
      (∃ c ∈ inner, (s.const? c name).isSome) ∨
        s.constAmong? name (callers' ++ above) = s.constAmong? name (callers ++ above)) := by
  intro inner callers callers' above found found'
  have hself : s'.moduleFor s'.self = s.moduleFor s.self := by
    have h := hq.moduleFor_self
    rw [← hinside, ← hq'.moduleFor_self] at h
    exact (Option.some.inj h).symm
  have habove : s'.above (s'.moduleFor s'.self) = above := by
    rw [Store.above, hself, hancestors]
    rfl
  refine ⟨?_, ?_, isSome_constAmong?, ?_⟩
  · exact (getConst_run _).trans (congrArg _ hq.lexicalConst?_eq)
  · have hlex : s'.lexicalConst? name = _ := hq'.lexicalConst?_eq
    rw [hinside, habove, hconsts.constAmong?] at hlex
    exact (getConst_run _).trans (congrArg _ hlex)
  · show s.constAmong? name (inner ++ (callers' ++ above)) =
      s.constAmong? name (inner ++ (callers ++ above)) ↔ _
    rw [constAmong?_append inner, constAmong?_append inner, ← isSome_constAmong?]
    cases s.constAmong? name inner with
    | some v => simp
    | none => simp

/-- A call from a body with this self, where two classes stand for themselves under the name `X`
and one does not know it; of each there is an instance. -/
def calledFrom (self : Value) : Store :=
  let knowing := fun name consts =>
    ({ name, isModule := false, base := none, alloc := .object, consts } : ModuleInfo)
  { config := {}
    objects :=
      #[{ cls := ⟨0⟩, payload := .module (knowing "A" {}) },
        { cls := ⟨0⟩, payload := .module (knowing "Object" {}) },
        { cls := ⟨0⟩, payload := .module (knowing "B" (({} : Dict Value).insert "X" ⟨2⟩)) },
        { cls := ⟨0⟩, payload := .module (knowing "C" (({} : Dict Value).insert "X" ⟨3⟩)) },
        { cls := ⟨0⟩, payload := .object }, { cls := ⟨2⟩, payload := .object },
        { cls := ⟨3⟩, payload := .object }]
    scopes := #[{ kind := .top, parent := none }]
    frames := [⟨self, none, ⟨0⟩, none⟩]
    scopeStack := [⟨0⟩] }

/-- A method of the class without the name. -/
def calledMethod : Setting := .method ⟨4⟩ ⟨1, none, [], none⟩

/-- The body of the method reads the name. -/
def readingX : Call Value :=
  .within calledMethod ⟨0⟩ (Eval.evalExpr (.const .lexical "X") : Eval Value) rfl

/-- In the method, `X` is what it is in the class that calls. -/
theorem evalConst_callers_differ :
    let inside := fun self => (calledFrom self).enter calledMethod ⟨0⟩
    let answer := fun self => outcome ⟨0, Eval.evalExpr (.const .lexical "X"), inside self⟩
    SameConsts (inside ⟨5⟩) (inside ⟨6⟩) ∧
      (∀ c, (inside ⟨6⟩).ancestors c = (inside ⟨5⟩).ancestors c) ∧
      answer ⟨5⟩ = .ok ⟨2⟩ (inside ⟨5⟩) ∧ answer ⟨6⟩ = .ok ⟨3⟩ (inside ⟨6⟩) := by
  intro inside answer
  have hrun (self : Value) : Running ⟨0, readingX, calledFrom self⟩
      ([(⟨0, (liftM (Eval.evalExpr (.const .lexical "X")) : Call Value), inside self⟩, .part)] ++
        [(⟨0, readingX, calledFrom self⟩, .body calledMethod ⟨0⟩)]) ⟨0, _, inside self⟩ :=
    .step (.step .start .within) .lift
  obtain ⟨hanswer, hanswer', _⟩ :=
    evalConst_callers (hrun ⟨5⟩) (hrun ⟨6⟩) (fun _ => rfl) (fun _ => rfl) rfl
  exact ⟨fun _ => rfl, fun _ => rfl, hanswer, hanswer'⟩

end Garnet
