import Garnet.Proofs.Enumeration.Visits
import Garnet.Proofs.Hashes.Selection
import Garnet.Proofs.Sorting.Elements

/-!
# Walks that are alike

A walk over anything but an array hands its source a block that keeps what has been found in a cell.
As long as the source calls the block with one element after another, and lets what stops the block
stop itself, this comes to the same as a walk over an array of the elements.
-/

namespace Garnet

open Eval

/-! ## The block of a walk -/

section Block

variable {e : Engine} {s u : Store} {cell site m : Nat} {v : Visit} {p p' : Progress} {x b : Value}
  {stop : Bool} {sig : Signal}

/-- A store in which a cell holds something else. -/
def Store.setCell (s : Store) (cell : Nat) (p : Option Progress) : Store :=
  { s with cells := s.cells.setIfInBounds cell p }

theorem Store.cells_setCell {q : Option Progress} (h : cell < s.cells.size) :
    (s.setCell cell q).cells[cell]? = some q := by
  simp [setCell, h]

theorem Store.setCell_dataStep (cell : Nat) (q : Option Progress) : DataStep s (s.setCell cell q) :=
  .of_objects rfl (Nat.le_of_eq Array.size_setIfInBounds.symm)

namespace Eval

theorem takeCell_run (h : s.cells[cell]? = some (some p)) :
    (takeCell cell).run e s = .ok (some p) (s.setCell cell none) := by
  have hp : s.cells.getD cell none = some p := by
    rw [Array.getD_eq_getD_getElem?, h, Option.getD_some]
  simp only [takeCell, Act.run, hp]
  rfl

/-- A visit that ends leaves what it has found in the cell. -/
theorem runVisit_ok (hcell : s.cells[cell]? = some (some p))
    (hvisit : (visitItem v p x).run e (s.setCell cell none) = .ok (p', stop) u) :
    (runVisit cell v site [x]).run e s =
      (if stop then signal (.breakTo site .nil) else pure .nil : Op Value).run e
        ((u.setCell cell (some (v.entering p x))).setCell cell (some p')) := by
  rw [runVisit, Act.run_bind, takeCell_run hcell]
  simp only [Ending.andThen_ok, Act.run_bind, Act.run, hvisit, Act.run_pure, setCell, update]
  rfl

theorem runVisit_signal (hcell : s.cells[cell]? = some (some p))
    (hvisit : (visitItem v p x).run e (s.setCell cell none) = .error (.signal sig) u) :
    (runVisit cell v site [x]).run e s =
      .error (.signal sig) (u.setCell cell (some (v.entering p x))) := by
  rw [runVisit, Act.run_bind, takeCell_run hcell]
  simp only [Ending.andThen_ok, Act.run_bind, Act.run, hvisit, Act.run_pure, setCell, update]
  rfl

theorem runVisit_exhausted (hcell : s.cells[cell]? = some (some p))
    (hvisit : (visitItem v p x).run e (s.setCell cell none) = .error .exhausted u) :
    (runVisit cell v site [x]).run e s = .error .exhausted u := by
  rw [runVisit, Act.run_bind, takeCell_run hcell]
  simp only [Ending.andThen_ok, Act.run_bind, Act.run, hvisit, Act.run_pure]
  rfl

theorem runVisit_log {ρ : Type} {note : Request → Store → List ρ}
    (hcell : s.cells[cell]? = some (some p)) :
    (runVisit cell v site [x]).log note e s =
      (visitItem v p x).log note e (s.setCell cell none) := by
  -- nothing but the visit itself asks for anything
  have hensure (c : Op Unit) (hc : ∀ u, c.log note e u = []) (y : Op (Progress × Bool))
      (u : Store) : (Act.ensure y c).log note e u = y.log note e u := by
    rw [Act.log, hc, ite_self, List.append_nil]
  have hrest (r : Progress × Bool) (u : Store) : (do
      Eval.setCell cell (some r.1)
      if r.2 then signal (.breakTo site .nil) else pure .nil : Op Value).log note e u = [] := by
    obtain ⟨q, stop⟩ := r
    cases stop <;> rfl
  rw [runVisit, Act.log_bind, takeCell_run hcell]
  exact (Act.log_bind_nil hrest).trans (hensure _ (fun _ => rfl) _ _)

end Eval

section Called

variable {out : Ending Value} {blk : Value} {block : Option Value} {lambda : Bool}
  (hblk : s.proc? blk = some ⟨.native (.visit cell v site), lambda⟩)

include hblk

theorem Engine.perform_visit (hrun : (runVisit cell v site [x]).run (.ofFuel m) s = out)
    (hnext : ∀ v u, out ≠ .error (.signal (.next v)) u) :
    (Engine.ofFuel (m + 1)).perform (.callProc blk [x] none none) s = out := by
  have hperform : (Engine.ofFuel (m + 1)).perform (.callProc blk [x] none none) s =
      (runProc runNative blk [x] none none).run (.ofFuel m) s := rfl
  have hvisit : (liftM (runNative blk (.visit cell v site) [x]) : Call Value).run (.ofFuel m) s =
      out := hrun
  rw [hperform, runProc, Act.run_bind, run_view, Ending.andThen_ok, hblk]
  simp only [Act.run, hvisit]

theorem Engine.calls_visit (hblock : block ≠ some blk) :
    Engine.calls block (m + 1) (.callProc blk [x] none none) s =
      (runVisit cell v site [x]).log (Engine.calls block m) (.ofFuel m) s := by
  have hcall : Request.callOf? block (.callProc blk [x] none none) = none := if_neg hblock
  rw [Engine.calls, hcall]
  have hlog : (Eval.handle (.callProc blk [x] none none)).log (Engine.calls block m) (.ofFuel m) s =
      (runProc runNative blk [x] none none).log (Engine.calls block m) (.ofFuel m) s := rfl
  simp only [Request.isCall, Bool.false_eq_true, if_false, hlog]
  rw [runProc, Act.log_bind, run_view, Ending.after_ok, hblk]
  rfl

end Called

end Block

/-! ## Walks over an array -/

section Items

variable {e : Engine} {t : Store} {v : Visit} {p : Progress} {recv y : Value} {items : Array Value}
  {i n : Nat}

/-- What is left of a walk over an array from some place on. -/
def Eval.walkFrom (v : Visit) (recv : Value) (n i : Nat) (p : Progress) : Op Progress :=
  repeatFor (arrayRound v recv) n (i, p)

namespace Eval

variable (hitems : t.array? recv = some items)

include hitems

theorem walkFrom_end (hi : items[i]? = none) : (walkFrom v recv (n + 1) i p).run e t = .ok p t ∧
    ∀ {ρ : Type} (note : Request → Store → List ρ),
      (walkFrom v recv (n + 1) i p).log note e t = [] := by
  have hview : (t.array? recv).bind (·[i]?) = none := by rw [hitems, Option.bind_some, hi]
  have hrun : (arrayRound v recv (i, p)).run e t = .ok (.inr p) t := by
    rw [arrayRound, Act.run_bind, run_view, Ending.andThen_ok, hview]
    rfl
  have hlog {ρ : Type} (note : Request → Store → List ρ) :
      (arrayRound v recv (i, p)).log note e t = [] := by
    rw [arrayRound, Act.log_bind, run_view, Ending.after_ok, hview]
    rfl
  refine ⟨by simp only [walkFrom, repeatFor, Act.run, hrun], fun note => ?_⟩
  simp only [walkFrom, repeatFor, Act.log, hlog, hrun, Ending.after_ok, List.append_nil]

/-- The element at a place is visited, and then those after it unless the walk is over. -/
theorem walkFrom_step (hi : items[i]? = some y) :
    (walkFrom v recv (n + 1) i p).run e t = (visitItem v p y >>= fun r =>
      if r.2 then pure r.1 else walkFrom v recv n (i + 1) r.1 : Op Progress).run e t ∧
    ∀ {ρ : Type} (note : Request → Store → List ρ),
      (walkFrom v recv (n + 1) i p).log note e t = (visitItem v p y >>= fun r =>
        if r.2 then pure r.1 else walkFrom v recv n (i + 1) r.1 : Op Progress).log note e t := by
  have hview : (t.array? recv).bind (·[i]?) = some y := by rw [hitems, Option.bind_some, hi]
  have hrun : (arrayRound v recv (i, p)).run e t = ((visitItem v p y).run e t).andThen fun r =>
      .ok (if r.2 then .inr r.1 else .inl (i + 1, r.1)) := by
    rw [arrayRound, Act.run_bind, run_view, Ending.andThen_ok, hview]
    exact Act.run_bind ..
  have hlog {ρ : Type} (note : Request → Store → List ρ) :
      (arrayRound v recv (i, p)).log note e t = (visitItem v p y).log note e t := by
    rw [arrayRound, Act.log_bind, run_view, Ending.after_ok, hview]
    exact Act.log_bind_nil fun _ _ => rfl
  constructor
  · rw [Act.run_bind]
    simp only [walkFrom, repeatFor, Act.run, hrun]
    cases (visitItem v p y).run e t with
    | error stop u => rfl
    | ok r u =>
      obtain ⟨q, ended⟩ := r
      cases ended <;> rfl
  · intro ρ note
    rw [Act.log_bind]
    simp only [walkFrom, repeatFor, Act.log, hrun, hlog]
    cases (visitItem v p y).run e t with
    | error stop u => rfl
    | ok r u =>
      obtain ⟨q, ended⟩ := r
      cases ended <;> rfl

end Eval

end Items

/-! ## Walks over a source -/

section Source

variable {e : Engine} {s u : Store} {v : Visit} {p q : Progress} {recv : Value} {stop : Stop}

/-- The message that a walk sends; its block is the object that is made for it. -/
def Request.each (recv : Value) (s : Store) : Request :=
  .send .all recv "each" [] (some ⟨s.objects.size⟩)

/-- What a walk does once it has its block. -/
def Eval.walkRest (recv b : Value) (site cell : Nat) : Op Progress := do
  Act.catchBreak site (discard (send recv "each" [] (some b))) fun _ => ()
  match ← takeCell cell with
  | some p => pure p
  | none => runtimeError "iteration state lost"

namespace Store

theorem iterate_dataStep : DataStep s (s.iterate v p) := by
  have hcells : s.cells.size ≤ (s.cells.push (some p)).size := by
    rw [Array.size_push]
    exact Nat.le_succ _
  exact (DataStep.of_objects rfl hcells).trans (.alloc rfl)

theorem object_iterate {a : Value} (ha : a.index < s.objects.size) :
    (s.iterate v p).object a = s.object a :=
  object_alloc_of_lt _ _ ha

theorem proc?_iterate : (s.iterate v p).proc? ⟨s.objects.size⟩ =
    some ⟨.native (.visit s.cells.size v s.nextStop), false⟩ := by
  have hobject : (s.iterate v p).object ⟨s.objects.size⟩ =
      { cls := CoreClass.proc.value, payload := _ } :=
    object_alloc ((Change.newCell p).apply (Change.newStop.apply s)) _
  rw [proc?, payload, hobject]

theorem cells_iterate : (s.iterate v p).cells = s.cells.push (some p) := rfl

end Store

namespace Eval

section Rest

variable {b : Value} {site cell : Nat}

theorem sendEach_run : (discard (send recv "each" [] (some b)) : Op Unit).run e s =
    (e.perform (.send .all recv "each" [] (some b)) s).andThen fun _ => .ok () := by
  rw [Act.run_discard]
  exact congrArg (Ending.andThen · _) (run_perform _ _)

theorem walkRest_over (hcell : u.cells[cell]? = some (some q))
    (hout : (∃ x, e.perform (.send .all recv "each" [] (some b)) s = .ok x u) ∨
      e.perform (.send .all recv "each" [] (some b)) s = .error (.signal (.breakTo site .nil)) u) :
    (walkRest recv b site cell).run e s = .ok q (u.setCell cell none) := by
  have hcatch : (Act.catchBreak site (discard (send recv "each" [] (some b))) fun _ => () :
      Op Unit).run e s = .ok () u := by
    rw [Act.run, sendEach_run]
    rcases hout with ⟨x, hout⟩ | hout <;> rw [hout]
    · rfl
    · simp only [Ending.andThen_error, beq_self_eq_true, if_true]
  rw [walkRest, Act.run_bind, hcatch, Ending.andThen_ok, Act.run_bind, takeCell_run hcell]
  rfl

theorem walkRest_stopped
    (hout : e.perform (.send .all recv "each" [] (some b)) s = .error stop u)
    (hstop : ∀ x, stop ≠ .signal (.breakTo site x)) :
    (walkRest recv b site cell).run e s = .error stop u := by
  have hcatch : (Act.catchBreak site (discard (send recv "each" [] (some b))) fun _ => () :
      Op Unit).run e s = .error stop u := by
    rw [Act.run, sendEach_run, hout, Ending.andThen_error]
    split
    · rename_i t x _ heq
      cases heq
      have ht : t ≠ site := by
        rintro rfl
        exact hstop x rfl
      rw [if_neg (by simpa using ht)]
    · rfl
  rw [walkRest, Act.run_bind, hcatch, Ending.andThen_error]

theorem walkRest_log {ρ : Type} (note : Request → Store → List ρ) :
    (walkRest recv b site cell).log note e s =
      note (.send .all recv "each" [] (some b)) s := by
  refine (Act.log_bind_nil ?_).trans (Act.log_discard _)
  intro _ u
  rw [Act.log_bind]
  cases h : (takeCell cell).run e u with
  | error stop u => rfl
  | ok p u =>
    rw [Ending.after_ok]
    cases p <;> rfl

end Rest

theorem walk_source (h : s.array? recv = none) :
    (walk v recv p).run e s = (walkRest recv ⟨s.objects.size⟩ s.nextStop s.cells.size).run e
      (s.iterate v p) ∧
    ∀ {ρ : Type} (note : Request → Store → List ρ), (walk v recv p).log note e s =
      note (.each recv s) (s.iterate v p) := by
  constructor
  · rw [walk, Act.run_bind, run_view, Ending.andThen_ok, h]
    rfl
  · intro ρ note
    rw [walk, Act.log_bind, run_view, Ending.after_ok, h]
    exact walkRest_log note

theorem walk_array {items : Array Value} (h : s.array? recv = some items) :
    (walk v recv p).run e s = (walkFrom v recv e.fuel 0 p).run e s ∧
    ∀ {ρ : Type} (note : Request → Store → List ρ), (walk v recv p).log note e s =
      (walkFrom v recv e.fuel 0 p).log note e s := by
  constructor
  · rw [walk, Act.run_bind, run_view, Ending.andThen_ok, h]
    rfl
  · intro ρ note
    rw [walk, Act.log_bind, run_view, Ending.after_ok, h]
    rfl

end Eval

end Source

/-! ## Sources -/

/-- What a source leaves alone between two calls of its block: the cells of the walks that have
begun before, and procs. -/
structure Quiet (k : Nat) (s s' : Store) : Prop where
  cells {i : Nat} (hi : i < k) : s'.cells[i]? = s.cells[i]?
  cells_le : s.cells.size ≤ s'.cells.size
  procs {v : Value} {p : ProcData} (hp : s.proc? v = some p) : s'.proc? v = some p

theorem Quiet.refl (k : Nat) (s : Store) : Quiet k s s := ⟨fun _ => rfl, Nat.le_refl _, id⟩

theorem Quiet.mono {k k' : Nat} {s s' : Store} (h : Quiet k' s s') (hk : k ≤ k') : Quiet k s s' :=
  { h with cells := fun hi => h.cells (Nat.lt_of_lt_of_le hi hk) }

theorem Quiet.trans {k : Nat} {s s' s'' : Store} (h : Quiet k s s') (h' : Quiet k s' s'') :
    Quiet k s s'' where
  cells hi := (h'.cells hi).trans (h.cells hi)
  cells_le := h.cells_le.trans h'.cells_le
  procs hp := h'.procs (h.procs hp)

/-- A cell that is new since then is written. -/
theorem Quiet.setCell {k cell : Nat} {s s' : Store} {q : Option Progress} (h : Quiet k s s')
    (hk : k ≤ cell) : Quiet k s (s'.setCell cell q) where
  cells hi := by
    have hne : cell ≠ _ := Nat.ne_of_gt (Nat.lt_of_lt_of_le hi hk)
    rw [Store.setCell, Array.getElem?_setIfInBounds_ne hne]
    exact h.cells hi
  cells_le := h.cells_le.trans (Store.setCell_dataStep cell q).cells_le
  procs hp := (Store.setCell_dataStep cell q).proc? (h.procs hp)

namespace Comparison

variable {c : Comparison} {w w' : Pairing} {s s' t t' : Store} {whole : Prop}

/-- A call of a block with an element, at the end of a step that nothing else can be told of. The
element stands for the one of the array then. -/
structure Pulls (c : Comparison) (k : Nat) (y : Value) (w : Pairing) (s t : Store)
    (m : Nat) (x : Value) (w' : Pairing) (s' : Store) : Prop where
  le : w ≤ w'
  stands : w' x y
  quiet : Quiet k s s'
  holds : c.Holds w' s' t
  level : c.level ≤ m

/-- How `each` ends when it is called with the block `b` of a walk that is stopped by breaks to
`site`: it calls the block with one element after another, does nothing else that can be told, and
rescues nothing that stops the block. There are further elements perhaps, or it goes on in another
way, unless this is the whole of them. It may take a break to a site that is neither the one of the
walk nor known to the blocks that are called, such as that of a walk of its own. -/
inductive Yields (c : Comparison) (whole : Prop) (b : Value) (site k : Nat) :
    List Value → Pairing → Store → Store → Ending Value → List (List Value) → Prop
  | done {w : Pairing} {s t : Store} {out : Ending Value} {calls : List (List Value)}
    (h : whole → calls = [] ∧ ∃ v s', out = .ok v s' ∧ Quiet k s s' ∧ c.Holds w s' t) :
    Yields c whole b site k [] w s t out calls
  | stray {w w' : Pairing} {s s' t u : Store} {m own : Nat} {x y v : Value} {ys : List Value}
    {out : Ending Value} {calls : List (List Value)} (hpull : c.Pulls k y w s t m x w' s')
    (hcall : (Engine.ofFuel (m + 1)).perform (.callProc b [x] none none) s' =
      .error (.signal (.breakTo own v)) u) (hsite : own ≠ site) (hunknown : ¬c.known own) :
    Yields c whole b site k (y :: ys) w s t out calls
  | stopped {w w' : Pairing} {s s' t u u' : Store} {m : Nat} {x y : Value} {ys : List Value}
    {stop : Stop} (hpull : c.Pulls k y w s t m x w' s')
    (hcall : (Engine.ofFuel (m + 1)).perform (.callProc b [x] none none) s' = .error stop u)
    (hquiet : Quiet k u u') (hkept : ∀ {w t}, c.Holds w u t → c.Holds w u' t) :
    Yields c whole b site k (y :: ys) w s t (.error stop u')
      (Engine.calls c.block (m + 1) (.callProc b [x] none none) s')
  | next {w w' : Pairing} {s s' t u : Store} {m : Nat} {x y v : Value} {ys : List Value}
    {out : Ending Value} {calls : List (List Value)} (hpull : c.Pulls k y w s t m x w' s')
    (hcall : (Engine.ofFuel (m + 1)).perform (.callProc b [x] none none) s' = .ok v u)
    (hrest : ∀ {w'' t'}, c.Step True w' s' t w'' u t' →
      Yields c whole b site k ys w'' u t' out calls) :
    Yields c whole b site k (y :: ys) w s t out
      (Engine.calls c.block (m + 1) (.callProc b [x] none none) s' ++ calls)

/-- The source yields the elements of the array to the block of any walk that has just begun, from
now on and when some more objects have been made. -/
structure Ready (c : Comparison) (whole : Prop) (m : Nat) (w : Pairing) (s t : Store) : Prop where
  fuel : c.elements.size < c.fuel
  fresh : ¬c.known s.nextStop
  yields {w' : Pairing} {s' t' : Store} {b : Value} {site : Nat}
    (hstep : c.Step True w s t w' s' t') (hdata : DataStep s s')
    (hkept : ∀ {v}, v.index < s.objects.size → s'.object v = s.object v)
    (hb : (s'.proc? b).isSome) (hsite : s'.nextStop = Store.stopAfter site) :
    c.Yields whole b site s'.cells.size c.elements.toList w' s' t'
      ((Engine.ofFuel m).perform (.send .all c.source "each" [] (some b)) s')
      (Engine.calls c.block m (.send .all c.source "each" [] (some b)) s')

/-- A walk over these elements comes to an end before it has passed the last of them. -/
def Decides (c : Comparison) (v : Visit) : List Value → Progress → Store → Prop
  | [], _, _ => False
  | y :: ys, p, t =>
    match (visitItem v p y).run (.ofFuel c.fuel) t with
    | .ok (p, stop) t => stop = true ∨ c.Decides v ys p t
    | .error _ _ => True

/-! ## One call of the block -/

theorem Holds.setCell (h : c.Holds w s t) (cell : Nat) (q : Option Progress) :
    c.Holds w (s.setCell cell q) t :=
  h.alone (Store.setCell_dataStep cell q) fun _ _ _ => rfl

theorem Step.setCell {strict : Prop} (h : c.Step strict w s t w' s' t') (cell : Nat)
    (q : Option Progress) : c.Step strict w s t w' (s'.setCell cell q) t' :=
  { h with
    holds := h.holds.setCell cell q
    procs := fun hp => (Store.setCell_dataStep cell q).proc? (h.procs hp)
    cells_le := h.cells_le.trans (Store.setCell_dataStep cell q).cells_le }

/-- How a call of the block of a walk ends, against a visit of the element of the array. -/
inductive Called (c : Comparison) (cell site : Nat) (w : Pairing) (s t : Store) (out : Ending Value)
    (calls : List (List Value)) : Ending (Progress × Bool) → List (List Value) → Prop
  | visited {w' : Pairing} {s' t' : Store} {p q : Progress} {ended : Bool}
    {calls' : List (List Value)} (hstep : c.Step True w s t w' s' t')
    (hcell : s'.cells[cell]? = some (some p)) (hp : p.Like w' q)
    (hcalls : List.Forall₂ (List.Forall₂ w') calls calls')
    (hout : out = if ended then .error (.signal (.breakTo site .nil)) s' else .ok .nil s') :
    Called c cell site w s t out calls (.ok (q, ended) t') calls'
  | stopped {w' : Pairing} {s' t' : Store} {stop stop' : Stop} {calls' : List (List Value)}
    (hstep : c.Step True w s t w' s' t') (hstop : stop.Like c.known w' stop')
    (hcalls : List.Forall₂ (List.Forall₂ w') calls calls') (hout : out = .error stop s') :
    Called c cell site w s t out calls (.error stop' t') calls'

section Called

variable {m cell site : Nat} {v v' : Visit} {p q : Progress} {x y b : Value}

theorem Called.of_answers (hc : c.Answers) (hm : c.level ≤ m) (h : c.Holds w s t)
    (hb : s.proc? b = some ⟨.native (.visit cell v site), false⟩) (hblock : c.block ≠ some b)
    (hcell : s.cells[cell]? = some (some p)) (hv : v.Like c w v') (hp : p.Like w q) (hx : w x y) :
    c.Called cell site w s t ((Engine.ofFuel (m + 1)).perform (.callProc b [x] none none) s)
      (Engine.calls c.block (m + 1) (.callProc b [x] none none) s)
      ((visitItem v' q y).run (.ofFuel c.fuel) t)
      ((visitItem v' q y).log (Engine.calls c.block' c.fuel) (.ofFuel c.fuel) t) := by
  have hlt : cell < s.cells.size := (Array.getElem?_eq_some_iff.mp hcell).1
  have hvisit := hc.visitItem hp hx hv hm (h.setCell cell none)
  unfold AlikeAt at hvisit
  rw [Engine.calls_visit hb hblock, runVisit_log hcell]
  generalize hleft : (visitItem v p x).run (.ofFuel m) (s.setCell cell none) = left,
    (visitItem v' q y).run (.ofFuel c.fuel) t = right at hvisit
  generalize (visitItem v p x).log _ _ _ = calls, (visitItem v' q y).log _ _ _ = calls' at hvisit
  have hback {s' : Store} {w' : Pairing} {t' : Store}
      (hstep : c.Step True w (s.setCell cell none) t w' s' t') : c.Step True w s t w' s' t' :=
    (Step.setCell (.refl h) cell none).trans hstep
  cases hvisit with
  | @ok w' u t' r r' _ _ hstep hr hcalls =>
    obtain ⟨p', _⟩ := r
    obtain ⟨q', ended⟩ := r'
    obtain ⟨hp', rfl⟩ : p'.Like w' q' ∧ ended = _ := hr
    have hrun : (runVisit cell v site [x]).run (.ofFuel m) s = _ := runVisit_ok hcell hleft
    have hsize : cell < (u.setCell cell (some (v.entering p x))).cells.size :=
      Nat.lt_of_lt_of_le hlt ((hback hstep).setCell ..).cells_le
    have hout : (if ended then signal (.breakTo site .nil) else pure .nil : Op Value).run (.ofFuel m)
        ((u.setCell cell (some (v.entering p x))).setCell cell (some p')) =
        if ended then .error (.signal (.breakTo site .nil))
          ((u.setCell cell (some (v.entering p x))).setCell cell (some p'))
        else .ok .nil ((u.setCell cell (some (v.entering p x))).setCell cell (some p')) := by
      cases ended <;> rfl
    refine .visited (((hback hstep).setCell ..).setCell ..) (Store.cells_setCell hsize) hp' hcalls
      ?_
    refine Engine.perform_visit hb (hrun.trans hout) fun _ _ => ?_
    cases ended <;> exact fun h => by cases h
  | @error w' u t' stop stop' _ _ hstep hstop hcalls =>
    cases stop with
    | exhausted =>
      refine .stopped (hback hstep) hstop hcalls
        (Engine.perform_visit hb (runVisit_exhausted hcell hleft) fun _ _ h => by cases h)
    | signal sig =>
      refine .stopped ((hback hstep).setCell ..) hstop hcalls
        (Engine.perform_visit hb (runVisit_signal hcell hleft) fun _ _ h => ?_)
      cases h
      cases hstop

end Called

/-! ## All calls of the block -/

/-- How the call of `each` of a walk ends, against a walk over the array. -/
inductive Walked (c : Comparison) (cell site : Nat) (w : Pairing) (s t : Store) (out : Ending Value)
    (calls : List (List Value)) : Ending Progress → List (List Value) → Prop
  | ended {w' : Pairing} {s' t' : Store} {p q : Progress} {calls' : List (List Value)}
    (hstep : c.Step False w s t w' s' t') (hcell : s'.cells[cell]? = some (some p))
    (hp : p.Like w' q) (hcalls : List.Forall₂ (List.Forall₂ w') calls calls')
    (hout : (∃ v, out = .ok v s') ∨ out = .error (.signal (.breakTo site .nil)) s') :
    Walked c cell site w s t out calls (.ok q t') calls'
  | stopped {w' : Pairing} {s' t' : Store} {stop stop' : Stop} {calls' : List (List Value)}
    (hstep : c.Step False w s t w' s' t') (hstop : stop.Like c.known w' stop')
    (hcalls : List.Forall₂ (List.Forall₂ w') calls calls') (hout : out = .error stop s') :
    Walked c cell site w s t out calls (.error stop' t') calls'

section Walked

variable {m cell site k : Nat} {v v' : Visit} {p q : Progress} {x y b : Value} {ys : List Value}
  {out : Ending Value} {calls calls' : List (List Value)}

theorem Step.of_quiet (hq : Quiet k s s') (hle : w ≤ w') (h : c.Holds w' s' t) :
    c.Step False w s t w' s' t :=
  ⟨hle, h, Nat.le_refl _, hq.procs, hq.cells_le, False.elim, False.elim⟩

/-- What happens after a step, and after the calls that belong to it. -/
theorem Walked.after {s'' t'' : Store} {w'' : Pairing} {right : Ending Progress}
    (h : c.Walked cell site w'' s'' t'' out calls right calls')
    (hstep : c.Step False w s t w'' s'' t'') {before before' : List (List Value)}
    (hbefore : List.Forall₂ (List.Forall₂ w'') before before') :
    c.Walked cell site w s t out (before ++ calls) right (before' ++ calls') := by
  have hmono {w₁ : Pairing} (hle : w'' ≤ w₁) : List.Forall₂ (List.Forall₂ w₁) before before' :=
    hbefore.imp fun _ _ h => h.imp hle
  cases h with
  | ended hstep' hcell hp hcalls hout =>
    exact .ended (hstep.trans hstep') hcell hp (List.rel_append (hmono hstep'.le) hcalls) hout
  | stopped hstep' hstop hcalls hout =>
    exact .stopped (hstep.trans hstep') hstop (List.rel_append (hmono hstep'.le) hcalls) hout

theorem drop_eq_cons {xs : Array Value} {i : Nat} (h : y :: ys = xs.toList.drop i) :
    xs[i]? = some y ∧ ys = xs.toList.drop (i + 1) := by
  constructor
  · rw [← Array.getElem?_toList, ← List.head?_drop, ← h, List.head?_cons]
  · rw [← List.tail_drop, ← h, List.tail_cons]

theorem Yields.walked (hc : c.Answers) (hy : c.Yields whole b site k ys w s t out calls)
    (h : c.Holds w s t) (hb : s.proc? b = some ⟨.native (.visit cell v site), false⟩)
    (hblock : c.block ≠ some b) (hcell : s.cells[cell]? = some (some p)) (hlt : cell < k)
    (hv : v.Like c w v') (hp : p.Like w q) {i n : Nat} (hys : ys = c.elements.toList.drop i)
    (hn : ys.length < n) (hend : whole ∨ c.Decides v' ys q t) :
    c.Walked cell site w s t out calls
      ((walkFrom v' c.array n i q).run (.ofFuel c.fuel) t)
      ((walkFrom v' c.array n i q).log (Engine.calls c.block' c.fuel) (.ofFuel c.fuel) t) := by
  induction hy generalizing p q i n with
  | done hdone =>
    obtain ⟨n, rfl⟩ := Nat.exists_eq_succ_of_ne_zero (Nat.ne_zero_of_lt hn)
    have hi : c.elements[i]? = none := by
      rw [Array.getElem?_eq_none_iff, ← Array.length_toList]
      exact List.drop_eq_nil_iff.mp hys.symm
    obtain ⟨hrun, hlog⟩ := walkFrom_end (v := v') (p := q) (n := n) (e := .ofFuel c.fuel) h.array hi
    rw [hrun, hlog]
    obtain ⟨rfl, _, s', rfl, hquiet, h'⟩ := hdone (hend.resolve_right id)
    exact .ended (Step.of_quiet hquiet le_rfl h') ((hquiet.cells hlt).trans hcell) hp .nil
      (.inl ⟨_, rfl⟩)
  | @stray w w' s s' t u m own x y value ys out calls hpull hcall hsite hunknown =>
    -- a visit breaks to no such site
    have hcalled := Called.of_answers hc hpull.level hpull.holds (hpull.quiet.procs hb) hblock
      ((hpull.quiet.cells hlt).trans hcell) (hv.mono hpull.le) (hp.mono hpull.le) hpull.stands
    rw [hcall] at hcalled
    generalize (visitItem v' q y).run _ _ = right, (visitItem v' q y).log _ _ _ = calls' at hcalled
    cases hcalled with
    | @visited _ _ _ _ _ ended _ _ _ _ _ hout =>
      cases ended with
      | false => cases hout
      | true =>
        cases hout
        exact absurd rfl hsite
    | stopped _ hstop _ hout =>
      cases hout
      cases hstop with
      | breakTo hknown => exact absurd hknown hunknown
  | @stopped w w' s s' t u u' m x y ys stop hpull hcall hquiet hkept =>
    obtain ⟨n, rfl⟩ := Nat.exists_eq_succ_of_ne_zero (Nat.ne_zero_of_lt hn)
    obtain ⟨hi, -⟩ := drop_eq_cons hys
    obtain ⟨hrun, hlog⟩ := walkFrom_step (v := v') (p := q) (n := n) (e := .ofFuel c.fuel)
      h.array hi
    rw [hrun, hlog, Act.run_bind, Act.log_bind]
    have hbefore : c.Step False w s t w' s' t := .of_quiet hpull.quiet hpull.le hpull.holds
    have hcalled := Called.of_answers hc hpull.level hpull.holds (hpull.quiet.procs hb) hblock
      ((hpull.quiet.cells hlt).trans hcell) (hv.mono hpull.le) (hp.mono hpull.le) hpull.stands
    rw [hcall] at hcalled
    generalize (visitItem v' q y).run _ _ = right, (visitItem v' q y).log _ _ _ = calls' at hcalled
    have hafter {w'' : Pairing} {t' : Store} (hstep : c.Step True w' s' t w'' u t') :
        c.Step False w s t w'' u' t' :=
      hbefore.trans (hstep.weaken.trans (.of_quiet hquiet le_rfl (hkept hstep.holds)))
    cases hcalled with
    | @visited w'' s'' t' p' q' ended calls' hstep hcell' hp' hcalls hout =>
      cases ended with
      | false => cases hout
      | true =>
        cases hout
        simp only [Ending.andThen_ok, Ending.after_ok, if_true]
        refine .ended (hafter hstep) ((hquiet.cells hlt).trans hcell') hp' ?_ (.inr rfl)
        simpa using hcalls
    | stopped hstep hstop hcalls hout =>
      cases hout
      simp only [Ending.andThen_error, Ending.after_error, List.append_nil]
      exact .stopped (hafter hstep) hstop hcalls rfl
  | @next w w' s s' t u m x y value ys out calls hpull hcall hrest ih =>
    obtain ⟨n, rfl⟩ := Nat.exists_eq_succ_of_ne_zero (Nat.ne_zero_of_lt hn)
    obtain ⟨hi, hys⟩ := drop_eq_cons hys
    obtain ⟨hrun, hlog⟩ := walkFrom_step (v := v') (p := q) (n := n) (e := .ofFuel c.fuel)
      h.array hi
    rw [hrun, hlog, Act.run_bind, Act.log_bind]
    have hbefore : c.Step False w s t w' s' t := .of_quiet hpull.quiet hpull.le hpull.holds
    have hcalled := Called.of_answers hc hpull.level hpull.holds (hpull.quiet.procs hb) hblock
      ((hpull.quiet.cells hlt).trans hcell) (hv.mono hpull.le) (hp.mono hpull.le) hpull.stands
    rw [hcall] at hcalled
    rw [Decides] at hend
    generalize (visitItem v' q y).run _ _ = right,
      (visitItem v' q y).log _ _ _ = calls' at hcalled hend
    cases hcalled with
    | @visited w'' s'' t' p' q' ended calls' hstep hcell' hp' hcalls hout =>
      cases ended with
      | true => cases hout
      | false =>
        cases hout
        have hle := hpull.le.trans hstep.le
        refine (ih hstep hstep.holds (hstep.procs (hpull.quiet.procs hb)) hcell' (hv.mono hle) hp'
          hys (Nat.lt_of_succ_lt_succ hn) (hend.imp_right ?_)).after (hbefore.trans hstep.weaken)
          hcalls
        exact fun hdecides => hdecides.resolve_left Bool.false_ne_true
    | stopped hstep hstop hcalls hout => cases hout

theorem Holds.step_iterate {strict : Prop} (h : c.Holds w s t) :
    c.Step strict w s t w (s.iterate v p) t :=
  ⟨le_rfl, h.alone Store.iterate_dataStep fun _ _ ha => Store.object_iterate (h.left ha),
    Nat.le_refl _, Store.iterate_dataStep.proc?, Store.iterate_dataStep.cells_le, fun _ _ _ => .inl,
    fun _ _ _ _ => ⟨rfl, rfl⟩⟩

/-- The block that a walk makes is another one than the block of the run. -/
theorem Holds.block_ne (h : c.Holds w s t) : c.block ≠ some ⟨s.objects.size⟩ := by
  intro heq
  have hrel := h.block
  rw [heq] at hrel
  generalize c.block' = b' at hrel
  cases hrel with
  | some hb => exact Nat.lt_irrefl _ (h.left hb)

/-- What the source yields to a walk that begins. -/
theorem Ready.iterate (hr : c.Ready whole m w s t) (h : c.Holds w s t) (v : Visit) (p : Progress) :
    c.Yields whole ⟨s.objects.size⟩ s.nextStop (s.cells.size + 1) c.elements.toList w (s.iterate v p)
      t ((Engine.ofFuel m).perform (.each c.source s) (s.iterate v p))
      (Engine.calls c.block m (.each c.source s) (s.iterate v p)) := by
  have hyields := @hr.yields _ _ _ _ s.nextStop (h.step_iterate (v := v) (p := p))
    Store.iterate_dataStep Store.object_iterate (by rw [Store.proc?_iterate]; rfl) rfl
  rwa [Store.cells_iterate, Array.size_push] at hyields

/-- A walk over the source is like one over the array, when the source yields the whole of the
array, or the elements of the array are enough for the walk. -/
theorem AlikeAt.walk (hc : c.Answers) (h : c.Holds w s t) (hr : c.Ready whole m w s t)
    (hv : v.Like c w v') (hp : p.Like w q)
    (hend : whole ∨ c.Decides v' c.elements.toList q t) :
    c.AlikeAt False Progress.Like m w s t (Eval.walk v c.source p) (Eval.walk v' c.array q) := by
  have hstep : c.Step False w s t w (s.iterate v p) t := h.step_iterate
  have hwalked := (hr.iterate h v p).walked hc hstep.holds Store.proc?_iterate h.block_ne
    (by simp [Store.cells_iterate]) (Nat.lt_succ_self _) hv hp (i := 0) (n := c.fuel) rfl
    (by simpa using hr.fuel) hend
  unfold AlikeAt
  obtain ⟨hrun, hlog⟩ := walk_source (e := .ofFuel m) (v := v) (p := p) h.source
  obtain ⟨hrun', hlog'⟩ := walk_array (e := .ofFuel c.fuel) (v := v') (p := q) h.array
  rw [hrun, hlog, hrun', hlog']
  have hfuel : (Engine.ofFuel c.fuel).fuel = c.fuel := rfl
  rw [hfuel]
  generalize (walkFrom v' c.array c.fuel 0 q).run _ _ = right,
    (walkFrom v' c.array c.fuel 0 q).log _ _ _ = calls' at hwalked ⊢
  cases hwalked with
  | ended hstep' hcell' hp' hcalls hout =>
    rw [walkRest_over hcell' hout]
    exact .ok ((hstep.trans hstep').setCell ..) hp' hcalls
  | stopped hstep' hstop hcalls hout =>
    rw [walkRest_stopped hout ?_]
    · exact .error (hstep.trans hstep') hstop hcalls
    · rintro x rfl
      cases hstop with
      | breakTo hsite => exact hr.fresh hsite

end Walked

end Comparison

end Garnet
