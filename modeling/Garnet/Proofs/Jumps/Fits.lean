import Garnet.Proofs.Control.Point
import Garnet.Proofs.Jumps.Code

/-!
# Actions that keep `next` in its place

An action fits where it stands when the code that it evaluates and brings into the store is placed,
when it signals `next` only inside of a loop or a block, and when it assigns no other globals than
those that may be assigned. What an action fits for is read off its tree, with no regard to the fuel
or to what requests do.
-/

namespace Garnet

variable {A : String → Prop}

/-- The code that a request evaluates is placed where `b` says whether there is a loop or a block
around it. -/
def Request.Placed (A : String → Prop) (b : Bool) : Request → Prop
  | eval e => e.Placed A b
  | store t _ => t.Placed A b
  | invoke m .. => m.body.Placed A
  | enter _ c .. => (ProcBody.closure c).Placed A
  | _ => True

/-- An action fits where `b` says whether there is a loop or a block around it, and gives values
that satisfy `Q`, on stores whose code is placed. It assigns no globals but those of `A`. -/
def Act.Fits {ℓ : Layer} {α : Type} (A : String → Prop) (b : Bool) (Q : α → Prop) : Act ℓ α → Prop
  | .pure a => Q a
  | .bind x f => ∃ P, x.Fits A b P ∧ ∀ a, P a → (f a).Fits A b Q
  | .lift x _ => x.Fits A b Q
  | .fuel f => ∀ n, Q (f n)
  | .view f => ∀ s : Store, s.Placed A → Q (f s)
  | .change c f _ => c.Placed A ∧ ∀ s : Store, s.Placed A → Q (f s)
  | .signal (.next _) _ => b
  | .exhausted | .fail .. | .signal .. | .leave _ => True
  | .perform r f _ => r.Placed A b ∧ ∀ v, Q (f v)
  | .rescue x f => ∃ P, x.Fits A b P ∧ (∀ a, P a → Q (f (.ok a))) ∧ ∀ exc, Q (f (.error exc))
  | .inspected _ f => ∀ out, Q (f out)
  | .ensure x cleanup => x.Fits A b Q ∧ cleanup.Fits A b fun _ => True
  | .within _ _ x _ => x.Fits A b Q
  | .activate x f => (∀ id, (x id).Fits A b fun _ => True) ∧ ∀ v, Q (f v)
  | .catchNext x f => x.Fits A true Q ∧ ∀ v, Q (f v)
  | .catchBreak _ x f => x.Fits A b Q ∧ ∀ v, Q (f v)
  | .handling _ x => x.Fits A b Q

namespace Act.Fits

variable {ℓ : Layer} {α β : Type} {b : Bool} {P : β → Prop} {Q : α → Prop}

theorem bind {x : Act ℓ β} {f : β → Act ℓ α} (hx : x.Fits A b P)
    (hf : ∀ a, P a → (f a).Fits A b Q) : (x >>= f).Fits A b Q :=
  ⟨P, hx, hf⟩

theorem map {x : Act ℓ β} {f : β → α} (hx : x.Fits A b P) (hf : ∀ a, P a → Q (f a)) :
    (f <$> x).Fits A b Q :=
  ⟨P, hx, hf⟩

theorem discard {x : Act ℓ β} (hx : x.Fits A b P) : (discard x).Fits A b fun _ => True :=
  ⟨P, hx, fun _ _ => trivial⟩

theorem view (f : Store → α) : (Eval.view f : Act ℓ α).Fits A b fun _ => True := fun _ _ => trivial

theorem lift {x : Op α} (h : x.Fits A b Q) : (liftM x : Act ℓ α).Fits A b Q := h

end Act.Fits

/-- An action fits, whatever values it gives. -/
abbrev Act.Placed {ℓ : Layer} {α : Type} (A : String → Prop) (b : Bool) (x : Act ℓ α) : Prop :=
  x.Fits A b fun _ => True

/-- Operations of the library evaluate no code and do not signal `next`, so that they fit
anywhere. -/
theorem Act.placed_of_library {ℓ : Layer} {α : Type} (x : Act ℓ α) (hℓ : ℓ = .library) {b : Bool} :
    x.Placed A b := by
  induction x generalizing b with
  | bind x f ihx ihf => exact ⟨_, ihx hℓ, fun a _ => ihf a hℓ⟩
  | @lift ℓ k _ x h ih =>
    subst hℓ
    cases k with
    | library => exact ih rfl
    | language | call => cases h
  | change c f h =>
    subst hℓ
    exact ⟨Change.placed_of_allowed h, fun _ _ => trivial⟩
  | signal sig h =>
    subst hℓ
    cases sig with
    | next v => cases h
    | _ => trivial
  | perform r f h =>
    subst hℓ
    refine ⟨?_, fun _ => trivial⟩
    cases r with
    | eval | store | invoke | enter => cases h
    | _ => trivial
  | rescue x f ih => exact ⟨_, ih hℓ, fun _ _ => trivial, fun _ => trivial⟩
  | ensure x cleanup ihx ihc => exact ⟨ihx hℓ, ihc hℓ⟩
  | within st scope x h ih => exact ih hℓ
  | activate | handling => cases hℓ
  | catchNext x f ih | catchBreak site x f ih => exact ⟨ih hℓ, fun _ => trivial⟩
  | fuel | view | inspected => exact fun _ => by intros; trivial
  | _ => trivial

/-- An operation of the library as a part of anything. -/
theorem Act.Fits.op {ℓ : Layer} {α : Type} (x : Op α) {b : Bool} :
    (liftM x : Act ℓ α).Placed A b :=
  x.placed_of_library rfl

/-! ## What comes out of a run -/

/-- How an action may end where `b` says whether there is a loop or a block around it. -/
inductive Ending.Good {α : Type} (A : String → Prop) (b : Bool) (Q : α → Prop) :
    Ending α → Prop where
  | ok {a s} (ha : Q a) (hs : s.Placed A) : Good A b Q (.ok a s)
  | error {stop s} (hnext : ∀ v, stop = .signal (.next v) → b) (hs : s.Placed A) :
    Good A b Q (.error stop s)

theorem Ending.Good.store {α : Type} {b : Bool} {Q : α → Prop} {out : Ending α}
    (h : out.Good A b Q) : out.store.Placed A := by
  cases h with
  | ok _ hs => exact hs
  | error _ hs => exact hs

/-- Requests of placed code are performed well. -/
def Engine.Good (A : String → Prop) (e : Engine) : Prop :=
  ∀ r b s, r.Placed A b → s.Placed A → (e.perform r s).Good A b fun _ => True

theorem Act.Fits.run {ℓ : Layer} {α : Type} {x : Act ℓ α} {b : Bool} {Q : α → Prop} {e : Engine}
    {s : Store} (he : e.Good A) (h : x.Fits A b Q) (hs : s.Placed A) : (x.run e s).Good A b Q := by
  induction x generalizing b s with
  | pure a => exact .ok h hs
  | bind x f ihx ihf =>
    obtain ⟨P, hx, hf⟩ := h
    have hx := ihx hx hs
    simp only [Act.run]
    generalize x.run e s = out at hx
    cases hx with
    | ok ha hs => exact ihf _ (hf _ ha) hs
    | error hnext hs => exact .error hnext hs
  | lift x _ ih => exact ih h hs
  | fuel f => exact .ok (h _) hs
  | exhausted => exact .error (fun _ h => by cases h) hs
  | view f => exact .ok (h s hs) hs
  | change c f _ => exact .ok (h.2 s hs) (h.1.apply hs)
  | fail c message _ => exact .error (fun _ h => by cases h) (hs.newException _ _)
  | signal sig _ =>
    refine .error (fun v hv => ?_) hs
    cases hv
    exact h
  | leave v => exact .error (fun _ h => by cases h) hs
  | perform r f _ =>
    have hr := he r b s h.1 hs
    simp only [Act.run]
    generalize e.perform r s = out at hr
    cases hr with
    | ok _ hs => exact .ok (h.2 _) hs
    | error hnext hs => exact .error hnext hs
  | rescue x f ih =>
    obtain ⟨P, hx, hok, herror⟩ := h
    have hx := ih hx hs
    simp only [Act.run]
    generalize x.run e s = out at hx
    cases hx with
    | ok ha hs => exact .ok (hok _ ha) hs
    | @error stop _ hnext hs =>
      split
      · cases ‹Ending.error _ _ = _›
      · cases ‹Ending.error _ _ = _›
        exact .ok (herror _) hs
      · cases ‹Ending.error _ _ = _›
        exact .error hnext hs
  | inspected v f =>
    -- a message brings no code along, so that the request is placed anywhere
    have hr := he (.inspection v) b s trivial hs
    simp only [Act.run]
    generalize e.perform (.inspection v) s = out at hr
    split
    · cases hr with
      | ok _ hs => exact .ok (h _) hs
      | @error stop _ _ hs =>
        cases stop with
        | signal => exact .ok (h _) hs
        | exhausted => exact .error (fun _ h => by cases h) hs
    · exact .ok (h _) hs
  | ensure x cleanup ihx ihc =>
    have hx := ihx h.1 hs
    simp only [Act.run]
    generalize x.run e s = out at hx
    cases hx with
    | ok ha hs =>
      have hc := ihc h.2 hs
      dsimp only
      generalize cleanup.run e _ = out at hc
      cases hc with
      | ok _ hs => exact .ok ha hs
      | error hnext hs => exact .error hnext hs
    | @error stop t hnext hs =>
      cases stop with
      | signal sig =>
        have hc := ihc h.2 hs
        dsimp only
        generalize cleanup.run e t = out at hc
        cases hc with
        | ok _ hs => exact .error hnext hs
        | error hnext hs => exact .error hnext hs
      | exhausted => exact .error (fun _ h => by cases h) hs
  | within st scope x _ ih =>
    have hx := ih h (hs.around (t := s.enter st scope) rfl rfl)
    simp only [Act.run]
    generalize x.run e _ = out at hx
    cases hx with
    | ok ha hs => exact .ok ha (hs.around rfl rfl)
    | error hnext hs => exact .error hnext (hs.around rfl rfl)
  | activate x f ih =>
    have hx := ih (s.lastActivation + 1) (h.1 _) (hs.around (t := s.activate) rfl rfl)
    simp only [Act.run]
    generalize (x (s.lastActivation + 1)).run e s.activate = out at hx
    cases hx with
    | ok _ hs => exact .ok (h.2 _) hs
    | error hnext hs =>
      split
      · cases ‹Ending.error _ _ = _›
      · cases ‹Ending.error _ _ = _›
        split
        · exact .ok (h.2 _) hs
        · exact .error (fun _ h => by cases h) hs
      · cases ‹Ending.error _ _ = _›
        exact .error hnext hs
  | catchNext x f ih =>
    -- the body may signal `next` even where the whole may not
    have hx := ih h.1 hs
    simp only [Act.run]
    generalize x.run e s = out at hx
    cases hx with
    | ok ha hs => exact .ok ha hs
    | error _ hs =>
      split
      · cases ‹Ending.error _ _ = _›
        exact .ok (h.2 _) hs
      · rename_i hne
        refine .error (fun v hv => ?_) hs
        subst hv
        exact absurd rfl (hne _ _)
  | catchBreak site x f ih =>
    have hx := ih h.1 hs
    simp only [Act.run]
    generalize x.run e s = out at hx
    cases hx with
    | ok ha hs => exact .ok ha hs
    | error hnext hs =>
      split
      · cases ‹Ending.error _ _ = _›
        split
        · exact .ok (h.2 _) hs
        · exact .error (fun _ h => by cases h) hs
      · exact .error hnext hs
  | handling exc x ih =>
    have hx := ih h (hs.around (t := s.setErrorInfo exc) rfl rfl)
    simp only [Act.run]
    generalize x.run e _ = out at hx
    cases hx with
    | ok ha hs => exact .ok ha (hs.around rfl rfl)
    | error hnext hs => exact .error hnext (hs.around rfl rfl)

end Garnet
