import Garnet.Library.Enumerable
import Garnet.Proofs.Enumeration.Walks
import Garnet.Proofs.Lookup.Bare
import Garnet.Proofs.Ranges.Membership
import Garnet.Proofs.Scopes.Variables

/-!
# Sources of elements

A source may go over another one with a walk of its own. What stops a block that it is given passes
through that walk, unless it is the break of that walk itself, so that the source still yields its
elements in the way that is asked of it.

A range of integers yields them to any block, and an array of them holds what it yields. With a
block that gives its argument back, the one is compared with the other.
-/

namespace Garnet

open Eval

/-! ## A call of a block takes `next` -/

theorem Act.catchNext_ne_next {ℓ : Layer} {α : Type} {x : Act ℓ α} {f : Value → α} {e : Engine}
    {s u : Store} {v : Value} : (Act.catchNext x f).run e s ≠ .error (.signal (.next v)) u := by
  rw [Act.run]
  split
  · rintro ⟨⟩
  · rename_i hout
    exact fun h => hout _ _ h

theorem Engine.callProc_ne_next {n : Nat} {p : Value} {args : List Value} {block : Option Value}
    {rebind : Option Rebind} {s u : Store} {v : Value} :
    (Engine.ofFuel n).perform (.callProc p args block rebind) s ≠ .error (.signal (.next v)) u := by
  cases n with
  | zero => rintro ⟨⟩
  | succ n =>
    have hperform : (Engine.ofFuel (n + 1)).perform (.callProc p args block rebind) s =
        (runProc runNative p args block rebind).run (.ofFuel n) s := rfl
    rw [hperform, runProc, Act.run_bind, run_view, Ending.andThen_ok]
    cases s.proc? p with
    | none => rintro ⟨⟩
    | some d =>
      obtain ⟨body, lambda⟩ := d
      cases body with
      | native b => exact Act.catchNext_ne_next
      | closure c =>
        intro h
        replace h := (run_perform _ rfl).symm.trans h
        cases n with
        | zero => cases h
        | succ n =>
          have henter : (Engine.ofFuel (n + 1)).perform (.enter p c lambda args block rebind) s =
            deeper ((runClosure p c lambda args block rebind).run (.ofFuel n)) s := rfl
          rw [henter, deeper] at h
          split at h
          · cases h
          · split at h
            · cases h
            · rename_i hrun
              cases h
              rw [runClosure, Act.run_bind] at hrun
              exact Act.catchNext_ne_next hrun

namespace Comparison

variable {c : Comparison} {w w' : Pairing} {s s' t t' u : Store} {whole strict : Prop}
  {site k m : Nat}

/-! ## Inside of a walk -/

/-- What is compared inside of a walk, one call further: a block there may break to the site of the
walk as well. -/
def inside (c : Comparison) (site : Nat) : Comparison :=
  { c with
    level := c.level + 1
    known := fun own => c.known own ∨ own = site }

theorem holds_inside : (c.inside site).Holds w s t ↔ c.Holds w s t :=
  ⟨fun h => { h with }, fun h => { h with }⟩

theorem Step.inside (h : c.Step strict w s t w' s' t') :
    (c.inside site).Step strict w s t w' s' t' :=
  { h with holds := holds_inside.mpr h.holds }

theorem Pulls.outside {x y : Value} {cell k' : Nat}
    (h : (c.inside site).Pulls k' y w s t (m + 1) x w' s') (hk : k ≤ cell) (hk' : k ≤ k') :
    c.Pulls k y w s t m x w' (s'.setCell cell none) where
  le := h.le
  stands := h.stands
  quiet := (h.quiet.mono hk').setCell hk
  holds := (holds_inside.mp h.holds).setCell ..
  level := Nat.le_of_succ_le_succ h.level

/-! ## What a visit makes of the call of its block -/

/-- The call of a block inside of the walk that calls it with each element. -/
inductive Handed (b : Value) (cell own m : Nat) (x : Value) (p : Progress) (s : Store) :
    Ending Value → Prop
  | ok {v : Value} {u : Store}
    (hcall : (Engine.ofFuel m).perform (.callProc b [x] none none) (s.setCell cell none) =
      .ok v u) :
    Handed b cell own m x p s (.ok .nil ((u.setCell cell (some p)).setCell cell (some p)))
  | signal {sig : Signal} {u : Store}
    (hcall : (Engine.ofFuel m).perform (.callProc b [x] none none) (s.setCell cell none) =
      .error (.signal sig) u) :
    Handed b cell own m x p s (.error (.signal sig) (u.setCell cell (some p)))
  | exhausted {u : Store}
    (hcall : (Engine.ofFuel m).perform (.callProc b [x] none none) (s.setCell cell none) =
      .error .exhausted u) :
    Handed b cell own m x p s (.error .exhausted u)

theorem handed {b blk x : Value} {cell own : Nat} {p : Progress}
    (hblk : s.proc? blk = some ⟨.native (.visit cell (.each b) own), false⟩)
    (hcell : s.cells[cell]? = some (some p)) :
    Handed b cell own m x p s
      ((Engine.ofFuel (m + 1)).perform (.callProc blk [x] none none) s) := by
  have hvisit : (visitItem (.each b) p x).run (.ofFuel m) (s.setCell cell none) =
      ((Engine.ofFuel m).perform (.callProc b [x] none none) (s.setCell cell none)).andThen
        fun _ => .ok (p, false) := by
    have hcall : (callBlock b [x]).run (.ofFuel m) (s.setCell cell none) =
        (Engine.ofFuel m).perform (.callProc b [x] none none) (s.setCell cell none) :=
      run_perform _ rfl
    rw [visitItem, Act.run_bind, Act.run_discard, hcall]
    cases (Engine.ofFuel m).perform _ _ <;> rfl
  cases hcall : (Engine.ofFuel m).perform (.callProc b [x] none none) (s.setCell cell none) with
  | ok v u =>
    rw [hcall] at hvisit
    rw [Engine.perform_visit hblk (runVisit_ok hcell hvisit) (by rintro _ _ ⟨⟩)]
    exact .ok hcall
  | error stop u =>
    rw [hcall] at hvisit
    cases stop with
    | signal sig =>
      have hnext (v : Value) (u' : Store) :
          (.error (.signal sig) (u.setCell cell (some p)) : Ending Value) ≠
            .error (.signal (.next v)) u' := by
        rintro ⟨⟩
        exact Engine.callProc_ne_next hcall
      rw [Engine.perform_visit hblk (runVisit_signal hcell hvisit) hnext]
      exact .signal hcall
    | exhausted =>
      rw [Engine.perform_visit hblk (runVisit_exhausted hcell hvisit) (by rintro _ _ ⟨⟩)]
      exact .exhausted hcall

/-! ## What a walk yields -/

/-- What comes before the first call can come before that as well. -/
theorem Yields.before {b : Value} {ys : List Value} {out : Ending Value} {calls : List (List Value)}
    (h : c.Yields whole b site k ys w s' t out calls) (hq : Quiet k s s') :
    c.Yields whole b site k ys w s t out calls := by
  cases h with
  | done h =>
    refine .done fun hwhole => ?_
    obtain ⟨hcalls, v, s'', hout, hquiet, hs⟩ := h hwhole
    exact ⟨hcalls, v, s'', hout, hq.trans hquiet, hs⟩
  | stray hpull hcall hsite hunknown =>
    exact .stray { hpull with quiet := hq.trans hpull.quiet } hcall hsite hunknown
  | stopped hpull hcall hquiet hkept =>
    exact .stopped { hpull with quiet := hq.trans hpull.quiet } hcall hquiet hkept
  | next hpull hcall hrest => exact .next { hpull with quiet := hq.trans hpull.quiet } hcall hrest

section Nested

variable {b blk : Value} {cell own k' m : Nat} {ys : List Value} {p : Progress} {out : Ending Value}
  {calls : List (List Value)} {f : Ending Value → Ending Value}

theorem calls_handed {x : Value} (hblock : c.block ≠ some blk)
    (hblk : s.proc? blk = some ⟨.native (.visit cell (.each b) own), false⟩)
    (hcell : s.cells[cell]? = some (some p)) :
    Engine.calls c.block (m + 1) (.callProc blk [x] none none) s =
      Engine.calls c.block m (.callProc b [x] none none) (s.setCell cell none) := by
  have hlog : (callBlock b [x]).log (Engine.calls c.block m) (.ofFuel m) (s.setCell cell none) =
      Engine.calls c.block m (.callProc b [x] none none) (s.setCell cell none) := rfl
  rw [Engine.calls_visit hblk hblock, runVisit_log hcell, visitItem,
    Act.log_bind_nil fun _ _ => rfl, Act.log_discard, hlog]

/-- Where `f` is what a walk with `each` makes of the call of the `each` that it makes. -/
theorem Yields.nested (h : (c.inside site).Yields whole blk own k' ys w s t out calls)
    (hblock : c.block ≠ some blk)
    (hblk : s.proc? blk = some ⟨.native (.visit cell (.each b) own), false⟩)
    (hcell : s.cells[cell]? = some (some p)) (hk : k ≤ cell) (hk' : cell < k') (hsite : own ≠ site)
    (hunknown : ¬c.known own)
    (hok : ∀ v u, u.cells[cell]? = some (some p) → ∃ x, f (.ok v u) = .ok x (u.setCell cell none))
    (hstop : ∀ stop u, (∀ v, stop ≠ .signal (.breakTo own v)) → f (.error stop u) = .error stop u) :
    c.Yields whole b site k ys w s t (f out) calls := by
  have hle : k ≤ k' := hk.trans (Nat.le_of_lt hk')
  induction h with
  | done hdone =>
    refine .done fun hwhole => ?_
    obtain ⟨hcalls, v, s', rfl, hquiet, hs⟩ := hdone hwhole
    obtain ⟨x, hx⟩ := hok v s' ((hquiet.cells hk').trans hcell)
    exact ⟨hcalls, x, _, hx, (hquiet.mono hle).setCell hk, (holds_inside.mp hs).setCell ..⟩
  | @stray w w' s s' t u m own' x y v ys out calls hpull hcall hsite' hunknown' =>
    obtain ⟨m, rfl⟩ := Nat.exists_eq_succ_of_ne_zero (Nat.ne_zero_of_lt hpull.level)
    have hhanded := handed (m := m + 1) (x := x) (hpull.quiet.procs hblk)
      ((hpull.quiet.cells hk').trans hcell)
    rw [hcall] at hhanded
    cases hhanded with
    | signal hcall' =>
      exact .stray (hpull.outside hk hle) hcall' (fun h => hunknown' (.inr h))
        fun h => hunknown' (.inl h)
  | @stopped w w' s s' t u u' m x y ys stop hpull hcall hquiet hkept =>
    obtain ⟨m, rfl⟩ := Nat.exists_eq_succ_of_ne_zero (Nat.ne_zero_of_lt hpull.level)
    have hblk := hpull.quiet.procs hblk
    have hcell := (hpull.quiet.cells hk').trans hcell
    have hhanded := handed (m := m + 1) (x := x) hblk hcell
    rw [hcall] at hhanded
    have hcalls := calls_handed (x := x) (m := m + 1) hblock hblk hcell
    have hquiet := hquiet.mono hle
    cases hhanded with
    | @signal sig u hcall' =>
      by_cases hsig : ∃ v, sig = .breakTo own v
      · -- the walk takes its own break, which nothing that is called can know of
        obtain ⟨v, rfl⟩ := hsig
        exact .stray (hpull.outside hk hle) hcall' hsite hunknown
      · rw [hstop _ _ fun v h => hsig ⟨v, by cases h; rfl⟩]
        refine hcalls ▸ .stopped (hpull.outside hk hle) hcall'
          (((Quiet.refl k u).setCell hk).trans hquiet) fun hs => ?_
        exact holds_inside.mp (hkept (holds_inside.mpr (hs.setCell ..)))
    | exhausted hcall' =>
      rw [hstop .exhausted _ fun v => nofun]
      exact hcalls ▸ .stopped (hpull.outside hk hle) hcall' hquiet fun hs =>
        holds_inside.mp (hkept (holds_inside.mpr hs))
  | @next w w' s s' t u m x y value ys out calls hpull hcall hrest ih =>
    obtain ⟨m, rfl⟩ := Nat.exists_eq_succ_of_ne_zero (Nat.ne_zero_of_lt hpull.level)
    have hblk := hpull.quiet.procs hblk
    have hcell := (hpull.quiet.cells hk').trans hcell
    have hhanded := handed (m := m + 1) (x := x) hblk hcell
    rw [hcall] at hhanded
    have hcalls := calls_handed (x := x) (m := m + 1) hblock hblk hcell
    cases hhanded with
    | @ok v u hcall' =>
      refine hcalls ▸ .next (hpull.outside hk hle) hcall' fun {w'' t'} hstep => ?_
      have hsize : cell < u.cells.size :=
        Nat.lt_of_lt_of_le (Array.getElem?_eq_some_iff.mp hcell).1
          ((Store.setCell_dataStep cell none).cells_le.trans hstep.cells_le)
      have hstep' : c.Step True w' s' t w'' ((u.setCell cell (some p)).setCell cell (some p)) t' :=
        ((Step.setCell (.refl (holds_inside.mp hpull.holds)) cell none).trans hstep).setCell ..
          |>.setCell ..
      have hfilled : ((u.setCell cell (some p)).setCell cell (some p)).cells[cell]? =
          some (some p) :=
        Store.cells_setCell (Nat.lt_of_lt_of_le hsize (Store.setCell_dataStep ..).cells_le)
      have hquiet : Quiet k u ((u.setCell cell (some p)).setCell cell (some p)) :=
        ((Quiet.refl k u).setCell hk).setCell hk
      exact (ih hstep'.inside (hstep'.procs hblk) hfilled).before hquiet

end Nested

/-- A walk that calls a block with each element of a source is as good as an `each` of its own. -/
theorem Ready.eachEntry (h : c.Holds w s t) (hr : (c.inside site).Ready whole m w s t) (b : Value) :
    c.Yields whole b site s.cells.size c.elements.toList w s t
      ((Library.Enumerable.eachEntry c.source [] (some b)).run (.ofFuel m) s)
      ((Library.Enumerable.eachEntry c.source [] (some b)).log (Engine.calls c.block m)
        (.ofFuel m) s) := by
  have h' : (c.inside site).Holds w s t := holds_inside.mpr h
  obtain ⟨hunknown, hsite⟩ := not_or.mp hr.fresh
  -- what the walk makes of the end of `each`
  let f (out : Ending Value) : Ending Value :=
    ((walkRest c.source ⟨s.objects.size⟩ s.nextStop s.cells.size).run ⟨m, fun _ _ => out⟩
      (s.iterate (.each b) {})).andThen fun _ => .ok c.source
  obtain ⟨hwalk, hwalk'⟩ := walk_source (e := .ofFuel m) (v := .each b) (p := {}) h.source
  have hrun : (Library.Enumerable.eachEntry c.source [] (some b)).run (.ofFuel m) s =
      f ((Engine.ofFuel m).perform (.each c.source s) (s.iterate (.each b) {})) := by
    have hengine : (walkRest c.source ⟨s.objects.size⟩ s.nextStop s.cells.size).run (.ofFuel m)
        (s.iterate (.each b) {}) = (walkRest c.source ⟨s.objects.size⟩ s.nextStop s.cells.size).run
          ⟨m, fun _ _ => (Engine.ofFuel m).perform (.each c.source s) (s.iterate (.each b) {})⟩
          (s.iterate (.each b) {}) := by
      refine (Act.run_congr (e := .ofFuel m) _ _ ?_ fun a ha => ?_).symm
      · rfl
      rw [Act.asks, walkRest_log, List.mem_singleton] at ha
      rw [ha]
      rfl
    rw [Library.Enumerable.eachEntry, Act.run_bind, needBlock, Act.run_pure, Ending.andThen_ok,
      Act.run_bind, Act.run_discard, hwalk, hengine, Ending.andThen_assoc]
    rfl
  have hlog : (Library.Enumerable.eachEntry c.source [] (some b)).log (Engine.calls c.block m)
      (.ofFuel m) s = Engine.calls c.block m (.each c.source s) (s.iterate (.each b) {}) := by
    rw [Library.Enumerable.eachEntry, Act.log_bind, needBlock, Act.run_pure, Ending.after_ok,
      Act.log_bind_nil fun _ _ => rfl, Act.log_discard, hwalk']
    rfl
  rw [hrun, hlog]
  refine ((hr.iterate h' (.each b) {}).nested (f := f) h'.block_ne Store.proc?_iterate (p := {})
    (by simp [Store.cells_iterate]) le_rfl (Nat.lt_succ_self _) hsite hunknown ?_ ?_).before ?_
  · intro v u hcell
    refine ⟨c.source, ?_⟩
    have hover : f (.ok v u) = _ :=
      congrArg (Ending.andThen · _) (walkRest_over hcell (.inl ⟨v, rfl⟩))
    rw [hover]
    rfl
  · intro stop u hstop
    exact congrArg (Ending.andThen · _) (walkRest_stopped rfl hstop)
  · refine ⟨fun hi => ?_, Store.iterate_dataStep.cells_le, Store.iterate_dataStep.proc?⟩
    rw [Store.cells_iterate, Array.getElem?_push_lt hi, Array.getElem?_eq_getElem hi]

end Comparison

/-! ## A block that gives its argument -/

open Library

/-- The block `{ |x| x }`. -/
def Closure.echo : Closure where
  params := { required := [.name "x"], single := .true }
  body := .localVar "x"
  scope := ⟨0⟩
  frame := .outermost
  site := 1

/-- A variable is found in the scope that it was written to. -/
theorem Scopes.get?_declare_self {ss : Scopes} {id : ScopeId} (hid : id.index < ss.size)
    (name : String) (v : Value) : (ss.declare id name v).get? id name = some v := by
  have hvars : ((ss.declare id name v).scope id).vars.get? name = some v := by
    rw [vars_declare hid, if_pos ⟨rfl, rfl⟩]
  have hcontains : ((ss.declare id name v).scope id).vars.contains name = true := by
    rw [Dict.contains, hvars, Option.isSome_some]
  have hholder : (ss.declare id name v).holder? id name = some id := by
    rw [holder?, holderOf?, hcontains, if_pos rfl]
  rw [get?, hholder, Option.bind_some, hvars]

/-- A store with other scopes. -/
def Store.setScopes (s : Store) (ss : Scopes) : Store := { s with scopes := ss }

/-- A store at another depth of calls. -/
def Store.setDepth (s : Store) (d : Nat) : Store := { s with depth := d }

section Echo

variable {e : Engine} {b : Value} {u : Store} {args : List Value}

theorem bindParams_echo : (bindParams Closure.echo.params args none false).run e u =
    .ok () (u.setScopes (Scopes.declare u.scopes u.scopeId "x" (args.headD .nil))) := by
  match args with
  | [] => rfl
  | [_] => rfl
  | _ :: _ :: _ => rfl

variable (heval : ∀ v, e.perform (.eval (.localVar "x")) v =
  .ok ((Scopes.get? v.scopes v.scopeId "x").getD .nil) v)

include heval

theorem runText_echo (hscope : u.scopeId.index < u.scopes.size) :
    (runText Closure.echo.params args none false Closure.echo.body).run e u = .ok (args.headD .nil)
      (u.setScopes (Scopes.declare u.scopes u.scopeId "x" (args.headD .nil))) := by
  have hget := Scopes.get?_declare_self hscope "x" (args.headD .nil)
  have hbody := (heval (u.setScopes _)).trans (congrArg (fun x => Ending.ok (x.getD .nil) _) hget)
  rw [runText, Act.run_bind]
  simp only [liftM, monadLift, MonadLift.monadLift, MonadLiftT.monadLift, Act.run, bindParams_echo,
    Ending.andThen_ok]
  exact (run_perform _ rfl).trans hbody

/-- The block gives its first argument, and makes a scope. -/
theorem runClosure_echo : ∃ ss, (runClosure b .echo false args none none).run e u =
    .ok (args.headD .nil) (u.setScopes ss) := by
  have hpush : u.scopes.size < (Scopes.push u.scopes .block (some ⟨0⟩)).2.size := by
    simp [Scopes.push]
  have htext := @runText_echo e
    ((u.setScopes (Scopes.push u.scopes .block (some ⟨0⟩)).2).enter (.block b) ⟨u.scopes.size⟩) args
    heval hpush
  refine ⟨Scopes.declare (Scopes.push u.scopes .block (some ⟨0⟩)).2 ⟨u.scopes.size⟩ "x"
    (args.headD .nil), ?_⟩
  have hnew : (liftM (newScope .block (some Closure.echo.scope)) : Call ScopeId).run e u =
    .ok ⟨u.scopes.size⟩ (u.setScopes (Scopes.push u.scopes .block (some ⟨0⟩)).2) := rfl
  rw [runClosure, Act.run_bind, hnew, Ending.andThen_ok]
  simp only [catchOwnBreak, runIn, Option.map_none, Option.getD_none, Bool.or_self,
    Bool.false_eq_true, if_false, Act.run, htext]
  rfl

end Echo

theorem callProc_echo {n : Nat} {b : Value} {u : Store} (args : List Value)
    (hb : u.proc? b = some ⟨.closure .echo, false⟩) (hdepth : u.depth < u.config.maxDepth) :
    ∃ ss, (Engine.ofFuel (n + 3)).perform (.callProc b args none none) u =
      .ok (args.headD .nil) (u.setScopes ss) := by
  obtain ⟨ss, hrun⟩ := @runClosure_echo (.ofFuel (n + 1)) b { u with depth := u.depth + 1 } args
    fun _ => rfl
  refine ⟨ss, ?_⟩
  have hperform : (Engine.ofFuel (n + 3)).perform (.callProc b args none none) u =
      (runProc runNative b args none none).run (.ofFuel (n + 2)) u := rfl
  have henter : (Engine.ofFuel (n + 2)).perform (.enter b .echo false args none none) u =
      Engine.deeper ((runClosure b .echo false args none none).run (.ofFuel (n + 1))) u := rfl
  rw [hperform, runProc, Act.run_bind, run_view, Ending.andThen_ok, hb]
  refine (run_perform _ rfl).trans (henter.trans ?_)
  rw [Engine.deeper, if_neg (Nat.not_le.mpr hdepth), hrun]
  rfl

section Sent

variable {n i : Nat} {recv : Value} {name : String} {d : Resolved} {f : Native} {args : List Value}
  {block b : Option Value} {s : Store} (hfind : s.findMethod recv name .all = .ok d)
  (hbody : d.method.body = .builtin i) (hrun : Library.run i = f)

include hfind hbody hrun

theorem Engine.perform_send : (Engine.ofFuel (n + 2)).perform (.send .all recv name args block) s =
    Engine.deeper ((f recv args block).run (.ofFuel n)) s :=
  (run_perform _ rfl).symm.trans (send_run hfind hbody hrun args block)

/-- The calls of a block by an operation of the library that a message comes to. -/
theorem Engine.calls_send : Engine.calls b (n + 2) (.send .all recv name args block) s =
    if s.depth ≥ s.config.maxDepth then [] else
      (f recv args block).log (Engine.calls b n) (.ofFuel n) (s.setDepth (s.depth + 1)) := by
  have hanswer : Engine.calls b (n + 2) (.send .all recv name args block) s =
      (answer .all recv name args block).log (Engine.calls b (n + 1)) (.ofFuel (n + 1)) s := rfl
  have hinvoke : (invoke d.method d.holder recv args block : Eval Value).log
      (Engine.calls b (n + 1)) (.ofFuel (n + 1)) s =
      Engine.calls b (n + 1) (.invoke d.method d.holder recv args block) s := rfl
  have hcall : handle (.invoke d.method d.holder recv args block) = liftM (f recv args block) := by
    simp only [handle, runMethod, hbody, hrun]
  rw [hanswer, answer, Act.log_bind, run_view, Ending.after_ok, hfind, hinvoke]
  simp only [Engine.calls, Request.callOf?, Request.isCall, if_true, hcall]
  rfl

end Sent

/-! ## Ranges of integers -/

namespace DataStep

variable {s s' : Store} {v : Value} {p : Payload}

theorem payload (h : DataStep s s') (hp : s.payload v = p) (hobject : p ≠ .object)
    (hfixed : ∀ q, ¬p.Refilled q) : s'.payload v = p := by
  rw [← hp]
  rcases h.object (Store.index_lt_of_payload s hp hobject) with heq | ⟨q, -, hq⟩
  · rw [Store.payload, heq, ← Store.payload]
  · exact absurd (hp ▸ hq) (hfixed q)

theorem own (h : DataStep s s') (hv : v.index < s.objects.size) :
    (s'.object v).own = (s.object v).own ∧ (s'.object v).extended = (s.object v).extended := by
  rcases h.object hv with heq | ⟨_, heq, -⟩ <;> rw [heq] <;> exact ⟨rfl, rfl⟩

end DataStep

/-- A range of integers whose class has the `each` of ranges. -/
structure RangeStands (recv : Value) (r : Ranges.Ends) (low high : Int) (s : Store) : Prop where
  range : s.payload recv = .range r.first r.last r.exclusive
  first : s.payload r.first = .integer low
  last : s.payload r.last = .integer high
  nil : s.payload .nil = .nil
  own : (s.object recv).own = {}
  extended : (s.object recv).extended = []
  each : ∃ m d visibility i, s.module? (s.classOf recv) = some m ∧
    m.methods.lookup "each" = some (d, visibility) ∧ d.body = .builtin i ∧
    Library.run i = Ranges.each

namespace RangeStands

variable {s s' : Store} {recv : Value} {r : Ranges.Ends} {low high : Int}

theorem index_lt (h : RangeStands recv r low high s) : recv.index < s.objects.size :=
  Store.index_lt_of_payload s h.range nofun

theorem step (h : RangeStands recv r low high s) (hs : DataStep s s') :
    RangeStands recv r low high s' where
  range := hs.payload h.range (by rintro ⟨⟩) (by rintro _ ⟨⟩)
  first := hs.payload h.first (by rintro ⟨⟩) (by rintro _ ⟨⟩)
  last := hs.payload h.last (by rintro ⟨⟩) (by rintro _ ⟨⟩)
  nil := hs.payload h.nil (by rintro ⟨⟩) (by rintro _ ⟨⟩)
  own := (hs.own h.index_lt).1.trans h.own
  extended := (hs.own h.index_lt).2.trans h.extended
  each := by rw [hs.module?, hs.classOf h.index_lt]; exact h.each

theorem setScopes (h : RangeStands recv r low high s) (ss : Scopes) :
    RangeStands recv r low high (s.setScopes ss) := { h with }

theorem setDepth (h : RangeStands recv r low high s) (d : Nat) :
    RangeStands recv r low high (s.setDepth d) := { h with }

theorem ofInts (h : RangeStands recv r low high s) : Ranges.OfInts s recv r low (.int high) where
  range := by rw [Store.range?, h.range]
  first := h.first
  last := by rw [Store.limit?, h.last]
  nil := h.nil

theorem answersWith (h : RangeStands recv r low high s) :
    s.AnswersWith recv "each" Ranges.each := by
  obtain ⟨m, d, visibility, i, hm, hd, hbody, hrun⟩ := h.each
  refine Store.answersWith_of_class h.index_lt h.own h.extended ?_ hm hd hbody hrun
  rw [Store.isClass, Store.module?, h.range]

end RangeStands

/-! ### The rounds of `each` -/

namespace Library.Ranges

/-- What `each` does with an element. -/
def yieldTo (b : Value) : Unit → Value → Op (Unit × Bool) := fun () v => do
  discard (callBlock b [v])
  pure ((), true)

/-- One round of `each` over integers. -/
def yieldRound (b : Value) (high : Int) : Int × Unit → Op ((Int × Unit) ⊕ Unit) := fun (i, st) => do
  if (some high).all (i ≤ ·) then
    let (st, more) ← yieldTo b st (← newInt i)
    pure (if more && i + 1 ≤ Number.maxWord then .inl (i + 1, st) else .inr st)
  else pure (.inr st)

variable {e : Engine} {u : Store} {b : Value} {i high : Int}

theorem yieldRound_over (hi : ¬i ≤ high) : (yieldRound b high (i, ())).run e u = .ok (.inr ()) u ∧
    ∀ {ρ : Type} (note : Request → Store → List ρ),
      (yieldRound b high (i, ())).log note e u = [] := by
  rw [yieldRound, Option.all_some, decide_eq_false hi]
  exact ⟨rfl, fun _ => rfl⟩

theorem yieldRound_next (hi : i ≤ high) (hhigh : high < Number.maxWord)
    (hinterned : u.config.interns i = true) :
    (yieldRound b high (i, ())).run e u =
      (e.perform (.callProc b [u.config.place i] none none) u).andThen
        (fun _ => .ok (.inl (i + 1, ()))) ∧
    ∀ {ρ : Type} (note : Request → Store → List ρ), (yieldRound b high (i, ())).log note e u =
      note (.callProc b [u.config.place i] none none) u := by
  have hnext : i + 1 ≤ Number.maxWord := by omega
  have hint : (newInt i).run e u = .ok (u.config.place i) u := Store.newInt_run_interned hinterned e
  have hlog {ρ : Type} (note : Request → Store → List ρ) : (newInt i).log note e u = [] := by
    rw [newInt, Act.log_bind, run_view, Ending.after_ok, hinterned]
    rfl
  have hcall : (callBlock b [u.config.place i]).run e u =
      e.perform (.callProc b [u.config.place i] none none) u := run_perform _ rfl
  rw [yieldRound, Option.all_some, decide_eq_true hi, if_pos rfl, decide_eq_true hnext]
  constructor
  · rw [Act.run_bind, hint, Ending.andThen_ok, yieldTo, Act.run_bind, Act.run_bind, Act.run_discard,
      hcall, Ending.andThen_assoc, Ending.andThen_assoc]
    rfl
  · intro ρ note
    rw [Act.log_bind, hint, hlog, Ending.after_ok, Act.log_bind_nil fun _ _ => rfl, yieldTo,
      Act.log_bind_nil fun _ _ => rfl, Act.log_discard]
    rfl

theorem each_rounds {recv : Value} {r : Ends} {low : Int} (hr : OfInts u recv r low (.int high))
    (hlow : Number.isWord low) (hhigh : Number.isWord high) (hexclusive : r.exclusive = false) :
    (each recv [] (some b)).run e u =
      ((repeatFor (yieldRound b high) e.fuel (low, ())).run e u).andThen (fun _ => .ok recv) ∧
    ∀ {ρ : Type} (note : Request → Store → List ρ), (each recv [] (some b)).log note e u =
      (repeatFor (yieldRound b high) e.fuel (low, ())).log note e u := by
  have hbounds := hr.intBounds_run (e := e) hlow hhigh
  have hends := endsOf_run (e := e) hr.range
  have hfirst : u.word? r.first = some low := by
    rw [Store.word?, hr.first]
    exact if_pos hlow
  have hlast : u.word? r.last = some high := by
    rw [Store.word?, hr.payload_last]
    exact if_pos hhigh
  have hends' {ρ : Type} (note : Request → Store → List ρ) : (endsOf recv).log note e u = [] := by
    rw [endsOf, Act.log_bind, run_view, Ending.after_ok, hr.range]
    rfl
  have hbounds' {ρ : Type} (note : Request → Store → List ρ) :
      (intBounds? r).log note e u = [] := by
    simp only [intBounds?, Act.log_bind, run_view, Ending.after_ok, hfirst, hr.last_ne_nil, hlast,
      Bool.false_eq_true, if_false]
    rfl
  rw [Limit.last, hexclusive] at hbounds
  have heach : each recv [] (some b) =
      (do walkRange (yieldTo b) (← endsOf recv) (); pure recv : Op Value) := rfl
  rw [heach]
  constructor
  · simp only [Act.run_bind, hends, Ending.andThen_ok, walkRange, hbounds]
    rfl
  · intro ρ note
    rw [Act.log_bind, hends, hends', Ending.after_ok, List.nil_append,
      Act.log_bind_nil fun _ _ => rfl, walkRange, Act.log_bind, hbounds, hbounds', Ending.after_ok]
    rfl

end Library.Ranges

/-! ## Ranges against arrays -/

/-- A range of integers against an array of them, with a block that gives its argument. -/
def Comparison.counting (config : Config) (range array block : Value) (r : Ranges.Ends)
    (low high : Int) (known : Nat → Prop) (level fuel : Nat) : Comparison where
  source := range
  array := array
  elements := ((interval low high).map config.place).toArray
  block := some block
  block' := some block
  sends _ := False
  known := known
  level := level
  fuel := fuel
  unhashed := True
  rest _ s t := RangeStands range r low high s ∧
    (s.config = config ∧ s.depth < config.maxDepth ∧ s.proc? block = some ⟨.closure .echo, false⟩) ∧
    t.config = config ∧ t.depth < config.maxDepth ∧ t.proc? block = some ⟨.closure .echo, false⟩
  rest_step h _ hs ht := by
    have hdepth {s s' : Store} (hs : DataStep s s') : s'.depth = s.depth :=
      (congrArg Store.depth hs.besides :)
    obtain ⟨hrange, ⟨hc, hd, hb⟩, hc', hd', hb'⟩ := h
    exact ⟨hrange.step hs, ⟨hs.config.trans hc, hdepth hs ▸ hd, hs.proc? hb⟩, ht.config.trans hc',
      hdepth ht ▸ hd', ht.proc? hb'⟩

namespace Comparison

variable {config : Config} {range array block : Value} {r : Ranges.Ends} {low high : Int}
  {known : Nat → Prop} {level fuel : Nat}

section Holds

variable {w : Pairing} {s t : Store}
  (h : (counting config range array block r low high known level fuel).Holds w s t)

include h

theorem counting_setScopes (ss ss' : Scopes) :
    (counting config range array block r low high known level fuel).Holds w (s.setScopes ss)
      (t.setScopes ss') :=
  { h with rest := ⟨h.rest.1.setScopes ss, h.rest.2⟩ }

/-- As long as there is room for a call. -/
theorem counting_setDepth {d : Nat} (hd : d < config.maxDepth) :
    (counting config range array block r low high known level fuel).Holds w (s.setDepth d) t :=
  { h with rest := ⟨h.rest.1.setDepth d, ⟨h.rest.2.1.1, hd, h.rest.2.1.2.2⟩, h.rest.2.2⟩ }

end Holds

theorem counting_answers (hlevel : 3 ≤ level) (hfuel : 3 ≤ fuel) :
    (counting config range array block r low high known level fuel).Answers := by
  intro m w s t r₁ r₂ hm h hasks
  cases hasks with
  | send hname => exact hname.elim
  | @call b b' args args' hb hb' hargs =>
    cases hb
    cases hb'
    obtain ⟨hrange, ⟨hc, hd, hproc⟩, hc', hd', hproc'⟩ := h.rest
    obtain ⟨n, rfl⟩ := Nat.exists_eq_add_of_le' (hlevel.trans hm)
    obtain ⟨k, rfl⟩ := Nat.exists_eq_add_of_le' hfuel
    obtain ⟨ss, hrun⟩ := callProc_echo (n := n) args hproc (hc ▸ hd)
    obtain ⟨ss', hrun'⟩ := callProc_echo (n := k) args' hproc' (hc' ▸ hd')
    have hfirst : w (args.headD .nil) (args'.headD .nil) := by
      cases hargs with
      | nil => exact h.nil
      | cons hx => exact hx
    have hstep : (counting config range array block r low high known level (k + 3)).Step True w s t
        w (s.setScopes ss) (t.setScopes ss') :=
      ⟨le_rfl, counting_setScopes h ss ss', Nat.le_refl _, id, Nat.le_refl _, fun _ _ _ => .inl,
        fun _ _ _ _ => ⟨rfl, rfl⟩⟩
    have hout := Outcome.ok (A := id) hstep hfirst (.cons hargs .nil)
    rwa [← hrun, ← hrun', ← Engine.calls_callProc rfl (n + 3) args s,
      ← Engine.calls_callProc rfl (k + 3) args' t] at hout

section Rounds

variable {whole : Prop} {w : Pairing} {t u : Store} {blk recv : Value} {site k m n : Nat} {i : Int}
  {f : Ending Unit → Ending Value}

/-- Where `f` goes back by one call. -/
theorem rounds_yield (hm : level ≤ m) (hhigh : high < Number.maxWord)
    (hinterned : ∀ i, low ≤ i → i ≤ high → config.interns i = true)
    (hok : ∀ u, f (.ok () u) = .ok recv (u.setDepth (u.depth - 1)))
    (herror : ∀ stop u, f (.error stop u) = .error stop (u.setDepth (u.depth - 1)))
    (h : (counting config range array block r low high known level fuel).Holds w u t)
    (hi : low ≤ i) (hn : (interval i high).length < n) :
    (counting config range array block r low high known level fuel).Yields whole blk site k
      ((interval i high).map config.place) w u t
      (f ((repeatFor (Ranges.yieldRound blk high) n (i, ())).run (.ofFuel (m + 1)) u))
      ((repeatFor (Ranges.yieldRound blk high) n (i, ())).log (Engine.calls (some block) (m + 1))
        (.ofFuel (m + 1)) u) := by
  have hback {w : Pairing} {t u : Store}
      (h : (counting config range array block r low high known level fuel).Holds w u t) :
      (counting config range array block r low high known level fuel).Holds w
        (u.setDepth (u.depth - 1)) t :=
    counting_setDepth h (Nat.lt_of_le_of_lt (Nat.sub_le ..) h.rest.2.1.2.1)
  have hquiet (u : Store) : Quiet k u (u.setDepth (u.depth - 1)) :=
    ⟨fun _ => rfl, Nat.le_refl _, id⟩
  induction n generalizing i w t u with
  | zero => exact absurd hn (Nat.not_lt_zero _)
  | succ n ih =>
    by_cases hle : i ≤ high
    · have hinterval : interval i high = i :: interval (i + 1) high := by
        rw [interval, spaced, steps_eq_succ (by decide) hle, progression, ← spaced, ← interval]
      rw [hinterval, List.length_cons] at hn
      have hconfig : u.config = config := h.rest.2.1.1
      have hint : u.config.interns i = true := hconfig ▸ hinterned i hi hle
      obtain ⟨hrun, hlog⟩ := Ranges.yieldRound_next (e := .ofFuel (m + 1)) (b := blk) hle hhigh hint
      have hpull : (counting config range array block r low high known level fuel).Pulls k
          (config.place i) w u t m (config.place i) w u :=
        ⟨le_rfl, hconfig ▸ h.interned hint, .refl k u, h, hm⟩
      rw [hconfig] at hrun hlog
      simp only [hinterval, List.map_cons, repeatFor, Act.run, Act.log, hrun, hlog]
      cases hcall :
        (Engine.ofFuel (m + 1)).perform (.callProc blk [config.place i] none none) u with
      | ok v u' =>
        exact .next hpull hcall fun hstep => ih hstep.holds (by omega) (by omega)
      | error stop u' =>
        simp only [Ending.andThen_error, Ending.after_error, List.append_nil, herror]
        exact .stopped hpull hcall (hquiet u') hback
    · obtain ⟨hrun, hlog⟩ := Ranges.yieldRound_over (e := .ofFuel (m + 1)) (b := blk) (u := u) hle
      have hinterval : interval i high = [] := by
        rw [interval, spaced, steps_eq_zero (by decide) (by omega), progression]
      simp only [hinterval, List.map_nil, repeatFor, Act.run, Act.log, hrun, hlog]
      refine .done fun _ => ⟨rfl, recv, _, hok u, hquiet u, hback h⟩

/-- What the call of `each` makes of the end of its rounds. -/
def leave : Ending Value → Ending Value
  | .ok v u => .ok v (u.setDepth (u.depth - 1))
  | .error stop u => .error stop (u.setDepth (u.depth - 1))

/-- The range yields its integers to every block. -/
theorem counting_ready {s : Store} (hm : level + 3 ≤ m) (hlow : Number.isWord low)
    (hhigh : Number.isWord high) (hmax : high < Number.maxWord) (hexclusive : r.exclusive = false)
    (hinterned : ∀ i, low ≤ i → i ≤ high → config.interns i = true)
    (hlength : (interval low high).length < fuel) (hlength' : (interval low high).length + 2 < m)
    (hfresh : ¬known s.nextStop) (hdepth : s.depth + 1 < config.maxDepth) :
    (counting config range array block r low high known level fuel).Ready whole m w s t where
  fuel := by simpa [counting] using hlength
  fresh := hfresh
  yields {w' s' t' b site} hstep hdata _ _ _ := by
    obtain ⟨n, rfl⟩ := Nat.exists_eq_add_of_le' (Nat.le_of_add_left_le hm)
    have hrange : RangeStands range r low high s' := hstep.holds.rest.1
    obtain ⟨d, i, hfind, hbody, hrun⟩ := hrange.answersWith
    have hdepth' : s'.depth + 1 < config.maxDepth := by
      rwa [(congrArg Store.depth hdata.besides :)]
    have hroom : ¬s'.depth ≥ s'.config.maxDepth := by
      rw [hstep.holds.rest.2.1.1]
      omega
    have hcalled := counting_setDepth hstep.holds hdepth'
    obtain ⟨heach, heach'⟩ := Ranges.each_rounds (e := .ofFuel (n + 1)) (b := b)
      (hrange.setDepth (s'.depth + 1)).ofInts hlow hhigh hexclusive
    have hperform : (Engine.ofFuel (n + 3)).perform (.send .all range "each" [] (some b)) s' =
        leave (((repeatFor (Ranges.yieldRound b high) (n + 1) (low, ())).run (.ofFuel (n + 1))
          (s'.setDepth (s'.depth + 1))).andThen fun _ => .ok range) := by
      rw [Engine.perform_send hfind hbody hrun, Engine.deeper, if_neg hroom]
      exact congrArg leave heach
    have hcalls : Engine.calls (some block) (n + 3) (.send .all range "each" [] (some b)) s' =
        (repeatFor (Ranges.yieldRound b high) (n + 1) (low, ())).log
          (Engine.calls (some block) (n + 1)) (.ofFuel (n + 1)) (s'.setDepth (s'.depth + 1)) := by
      rw [Engine.calls_send hfind hbody hrun, if_neg hroom]
      exact heach' _
    change Yields _ whole b site _ _ w' s' t'
      ((Engine.ofFuel (n + 3)).perform (.send .all range "each" [] (some b)) s')
      (Engine.calls (some block) (n + 3) (.send .all range "each" [] (some b)) s')
    rw [hperform, hcalls]
    exact .before (rounds_yield (f := fun out => leave (out.andThen fun _ => .ok range)) (by omega)
      hmax hinterned (fun _ => rfl) (fun _ _ => rfl) hcalled le_rfl (by omega))
      ⟨fun _ => rfl, Nat.le_refl _, id⟩

end Rounds

end Comparison

end Garnet
