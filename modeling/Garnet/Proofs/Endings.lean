import Garnet.Eval.Basic

/-!
# Runs one after another

A run that ends with a value is gone on from; a stop is the end of the whole.
-/

namespace Garnet

variable {ℓ : Layer} {α β γ : Type} {e : Engine} {s : Store}

/-- Goes on from a run that has ended with a value. -/
def Ending.andThen (out : Ending α) (f : α → Run β) : Ending β :=
  match out with
  | .ok a s => f a s
  | .error stop s => .error stop s

namespace Ending

@[simp] theorem andThen_ok (a : α) (s : Store) (f : α → Run β) : (ok a s).andThen f = f a s := rfl

@[simp] theorem andThen_error (stop : Stop) (s : Store) (f : α → Run β) :
    (error stop s : Ending α).andThen f = error stop s := rfl

theorem andThen_assoc (out : Ending α) (f : α → Run β) (g : β → Run γ) :
    (out.andThen f).andThen g = out.andThen fun a s => (f a s).andThen g := by
  cases out <;> rfl

end Ending

namespace Act

theorem run_bind (x : Act ℓ β) (f : β → Act ℓ α) :
    (x >>= f).run e s = (x.run e s).andThen fun b => (f b).run e := by
  cases h : x.run e s with
  | ok => exact run_bind_of_ok h
  | error => exact run_bind_of_error h

/-- Both parts of an action that ends with a value do. -/
theorem run_bind_ok {x : Act ℓ β} {f : β → Act ℓ α} {a : α} {t : Store}
    (h : (x >>= f).run e s = .ok a t) : ∃ b u, x.run e s = .ok b u ∧ (f b).run e u = .ok a t := by
  rw [run_bind] at h
  cases hx : x.run e s with
  | ok b u =>
    rw [hx] at h
    exact ⟨b, u, rfl, h⟩
  | error stop u =>
    rw [hx] at h
    cases h

@[simp] theorem run_pure (a : α) : (Pure.pure a : Act ℓ α).run e s = .ok a s := rfl

@[simp] theorem run_liftM (x : Op α) : (liftM x : Act ℓ α).run e s = x.run e s := rfl

theorem run_map (f : α → β) (x : Act ℓ α) :
    (f <$> x).run e s = (x.run e s).andThen fun a => .ok (f a) := by
  exact run_bind x fun a => Pure.pure (f a)

theorem run_discard (x : Act ℓ α) :
    (discard x).run e s = (x.run e s).andThen fun _ => .ok () := by
  exact run_bind x fun _ => Pure.pure ()

theorem run_forM_cons (f : β → Act ℓ Unit) (x : β) (xs : List β) :
    ((x :: xs).forM f).run e s = ((f x).run e s).andThen fun _ => (xs.forM f).run e :=
  run_bind (f x) fun _ => xs.forM f

theorem run_forM_append (f : β → Act ℓ Unit) (xs ys : List β) :
    ((xs ++ ys).forM f).run e s = ((xs.forM f).run e s).andThen fun _ => (ys.forM f).run e := by
  induction xs generalizing s with
  | nil => rfl
  | cons x xs ih =>
    rw [List.cons_append, run_forM_cons, run_forM_cons, Ending.andThen_assoc]
    cases (f x).run e s with
    | error => rfl
    | ok _ t => exact ih

/-- One operation for each member of a list, and their values in order. -/
theorem run_mapM_cons {u : Store} (f : β → Act ℓ α) (x : β) (xs : List β) :
    ((x :: xs).mapM f).run e u =
      ((f x).bind fun a => (xs.mapM f).bind fun as => .pure (a :: as)).run e u := by
  -- the loop keeps the values that it has, the last one first
  have loop (seen : List α) (u : Store) :
      (List.mapM.loop f xs seen).run e u =
        ((xs.mapM f).bind fun as => .pure (seen.reverse ++ as)).run e u := by
    rw [List.mapM]
    induction xs generalizing seen u with
    | nil => simp only [List.mapM.loop, Pure.pure, run, List.reverse_nil, List.append_nil]
    | cons y ys ih =>
      simp only [List.mapM.loop, Bind.bind, run]
      cases (f y).run e u with
      | ok a t =>
        simp only [ih (a :: seen), ih [a], run]
        cases (List.mapM.loop f ys []).run e t <;>
          simp only [List.reverse_cons, List.reverse_nil, List.nil_append, List.append_assoc]
      | error => rfl
  rw [List.mapM, List.mapM.loop]
  simp only [Bind.bind, run]
  cases (f x).run e u with
  | ok a t => simp only [loop [a] t, run, List.reverse_singleton, List.singleton_append]
  | error => rfl

theorem run_mapM_cons_andThen (f : β → Act ℓ α) (x : β) (xs : List β) :
    ((x :: xs).mapM f).run e s = ((f x).run e s).andThen fun a t =>
      ((xs.mapM f).run e t).andThen fun as => .ok (a :: as) := by
  rw [run_mapM_cons]
  simp only [run]
  cases (f x).run e s with
  | error => rfl
  | ok a t =>
    simp only [Ending.andThen_ok]
    cases (xs.mapM f).run e t <;> rfl

theorem run_mapM_append (f : β → Act ℓ α) (xs ys : List β) :
    ((xs ++ ys).mapM f).run e s = ((xs.mapM f).run e s).andThen fun as t =>
      ((ys.mapM f).run e t).andThen fun bs => .ok (as ++ bs) := by
  induction xs generalizing s with
  | nil =>
    rw [List.nil_append, List.mapM_nil, run_pure, Ending.andThen_ok]
    cases (ys.mapM f).run e s <;> rfl
  | cons x xs ih =>
    rw [List.cons_append, run_mapM_cons_andThen, run_mapM_cons_andThen, Ending.andThen_assoc]
    cases (f x).run e s with
    | error => rfl
    | ok a t => simp only [Ending.andThen_ok, ih, Ending.andThen_assoc, List.cons_append]

end Act

namespace Eval

@[simp] theorem run_view (f : Store → α) : (view f : Act ℓ α).run e s = .ok (f s) s := rfl

theorem run_perform (r : Request) (h : r.allowed ℓ = true) :
    (perform r h).run e s = e.perform r s := by
  simp only [perform, Act.run]
  cases e.perform r s <;> rfl

end Eval

end Garnet
