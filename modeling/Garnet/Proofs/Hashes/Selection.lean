import Garnet.Proofs.Hashes.Sieves
import Garnet.Proofs.Requests

/-!
# Selecting entries

`select` and `reject` of a hash are those of any source of elements: they ask the hash to hand its
entries one by one to a block of their own, which calls the block that was given and notes the
arrays about which it says what is wanted.
-/

namespace Garnet

open Library.Hashes hiding entries
open Library.Enumerable (filterBy rebuild)
open Store Eval

variable {n : Nat} {b : Value}

/-! ## Notes of an iteration -/

namespace Store

/-- What an iteration has found, while no visit is running. -/
def progress? (s : Store) (cell : Nat) : Option Progress := s.cells.getD cell none

theorem lt_of_progress? {s : Store} {cell : Nat} {q : Progress} (h : s.progress? cell = some q) :
    cell < s.cells.size := by
  by_contra hge
  rw [progress?, Array.getD_eq_getD_getElem?, Array.getElem?_eq_none (Nat.le_of_not_lt hge)] at h
  cases h

theorem progress?_setCell {s : Store} {cell : Nat} (h : cell < s.cells.size) (q : Option Progress) :
    ((Change.setCell cell q).apply s).progress? cell = q := by
  simp only [progress?, Change.apply, Array.getD_eq_getD_getElem?,
    Array.getElem?_setIfInBounds_self_of_lt h, Option.getD_some]

end Store

/-- No change takes away the notes of an iteration. -/
theorem Change.size_cells_le (c : Change) (s : Store) :
    s.cells.size ≤ (c.apply s).cells.size := by
  have modifyTable (t : Store) (holder : Holder) (f : MethodTable → MethodTable) :
      (t.modifyTable holder f).cells = t.cells := by cases holder <;> rfl
  cases c with
  | newCell => exact Nat.le_trans (Nat.le_succ _) (Nat.le_of_eq (Array.size_push _).symm)
  | setCell => exact Nat.le_of_eq Array.size_setIfInBounds.symm
  | allocInteger | allocSymbol | instantiate | copyObject | allocLambda | aliasMethod | aliasPending
  | aliasVisible =>
    simp only [apply]
    split <;> exact Nat.le_refl _
  | subclass =>
    simp only [apply]
    split
    · obtain ⟨m, -, -, h⟩ := subclass_eq_ok ‹_›
      cases h
      exact Nat.le_refl _
    · exact Nat.le_refl _
  | copyClass =>
    simp only [apply]
    split
    · obtain ⟨m, -, h⟩ := copyClass_eq_ok ‹_›
      cases h
      exact Nat.le_refl _
    · exact Nat.le_refl _
  | includeModule =>
    simp only [apply]
    split
    · obtain ⟨m, -, -, ⟨-, rfl⟩ | rfl⟩ := includeModule_eq_ok ‹_› <;> exact Nat.le_refl _
    · exact Nat.le_refl _
  | extendObject =>
    simp only [apply]
    split
    · obtain ⟨-, rfl | rfl⟩ := extendObject_eq_ok ‹_› <;> exact Nat.le_refl _
    · exact Nat.le_refl _
  | define | setVisibility | eraseMethod =>
    exact Nat.le_of_eq (congrArg Array.size (modifyTable s _ _).symm)
  | adopt =>
    simp only [apply]
    split
    · exact Nat.le_of_eq (congrArg Array.size (modifyTable s _ _).symm)
    · exact Nat.le_refl _
  | promote =>
    simp only [apply]
    refine promoteAll_induction (P := fun t => s.cells.size ≤ t.cells.size) _ ?_ ?_ _
    · exact Nat.le_refl _
    · intro t f ht
      rw [modifyTable]
      exact ht
  | _ => exact Nat.le_refl _

theorem Kept.cells : Kept fun s t => s.cells.size ≤ t.cells.size where
  refl _ := Nat.le_refl _
  trans := Nat.le_trans
  exception _ _ _ := Nat.le_refl _
  activate _ := Nat.le_refl _
  within h := h
  deeper h := h
  handling h := h
  change c s _ := c.size_cells_le s

/-! ## Answers of the library -/

/-- A message that an operation of the library answers. -/
theorem Point.running_send {recv : Value} {name : String} {s : Store} {r : Resolved} {i : Nat}
    {f : Native} (hfind : s.findMethod recv name .all = .ok r) (hm : r.method.body = .builtin i)
    (hf : Library.run i = f) (hdepth : s.depth < s.config.maxDepth) (n : Nat) (args : List Value)
    (block : Option Value) :
    ∃ π, Point.Running ⟨n + 2, (send recv name args block : Op Value), s⟩ π
      ⟨n, f recv args block, { s with depth := s.depth + 1 }⟩ := by
  have hanswer : (view (·.findMethod recv name .all) : Eval (Except Miss Resolved)).run
      (.ofFuel (n + 1)) s = .ok (.ok r) s := hfind ▸ rfl
  have hcall : Eval.handle (.invoke r.method r.holder recv args block) =
      liftM (f recv args block) := by
    simp only [Eval.handle, Eval.runMethod, hm, hf]
  have hsend := (Point.Running.start
    (p := ⟨n + 2, (send recv name args block : Op Value), s⟩)).step (.request rfl)
  have hinvoke := ((hsend.step .lift).step (.second hanswer)).step (.call rfl hdepth)
  rw [hcall] at hinvoke
  exact ⟨_, (hinvoke.step .lift).step .lift⟩

/-- What an iteration begins with: a site, notes and a block of its own. -/
def Store.iterate (s : Store) (v : Visit) (q : Progress) : Store :=
  ((Change.newCell q).apply (Change.newStop.apply s)).allocProc
    ⟨.native (.visit s.cells.size v s.nextStop), false⟩ |>.2

/-- The block of an iteration. -/
def visiting (cell : Nat) (v : Visit) (site : Nat) : ProcData :=
  ⟨.native (.visit cell v site), false⟩

/-- A block stays what it is. -/
theorem Store.proc?_of_kind {s t : Store} {v : Value} {d : ProcData}
    (h : (t.payload v).kind = (s.payload v).kind) (hv : s.proc? v = some d) :
    t.proc? v = some d := by
  rw [proc?_eq_some.mp hv] at h
  rw [proc?_eq_some]
  cases hp : t.payload v <;> rw [hp] at h <;> first | exact h | cases h

/-- An iteration is at work and no visit is running. -/
def Store.Iterating (s : Store) (block : Value) (cell : Nat) (v : Visit) (site : Nat) : Prop :=
  s.proc? block = some (visiting cell v site) ∧ ∃ q, s.progress? cell = some q

section Visit

variable {keep : Bool} {a block : Value} {cell site : Nat} {q : Progress} {s t : Store}
  (hblock : s.proc? block = some (visiting cell (.filter b keep) site))
  (hcell : s.progress? cell = some q)

include hblock hcell

/-- The block of `select` and `reject` calls the one that was given. -/
theorem running_visit :
    ∃ π, Point.Running ⟨n + 1, (callBlock block [a] : Op Value), s⟩ π
      ⟨n, (callBlock b [a] : Op Value), (Change.setCell cell none).apply s⟩ := by
  have hproc : (view (·.proc? block) : Call (Option ProcData)).run (.ofFuel n) s =
      .ok (some (visiting cell (.filter b keep) site)) s := hblock ▸ rfl
  have htake : (takeCell cell).run (.ofFuel n) s =
      .ok (some q) ((Change.setCell cell none).apply s) := hcell ▸ rfl
  have hvisit := ((Point.Running.start
    (p := ⟨n + 1, (callBlock block [a] : Op Value), s⟩).step (.request rfl)).step
    (.second hproc)).step .catchNext
  have hrun := ((hvisit.step .lift).step .lift).step (.second htake)
  exact ⟨_, (((hrun.step (.second rfl)).step .first).step .ensure).step .first⟩

theorem visit_run {x : Value}
    (hrun : (callBlock b [a]).run (.ofFuel n) ((Change.setCell cell none).apply s) = .ok x t) :
    (callBlock block [a]).run (.ofFuel (n + 1)) s =
      .ok .nil ((Change.setCell cell (some
        (if x.truthy == keep then { q with items := q.items.push a } else q))).apply
          ((Change.setCell cell (some q)).apply t)) := by
  have htake : (takeCell cell).run (.ofFuel n) s =
      .ok (some q) ((Change.setCell cell none).apply s) := hcell ▸ rfl
  have hcall : (callBlock block [a]).run (.ofFuel (n + 1)) s =
      (runProc runNative block [a] none none).run (.ofFuel n) s :=
    (run_perform (.callProc block [a] none none) rfl).trans rfl
  have hvisit : (liftM (liftM (runVisit cell (.filter b keep) site [a]) : Eval Value) :
      Call Value).run (.ofFuel n) s =
      .ok .nil ((Change.setCell cell (some
        (if x.truthy == keep then { q with items := q.items.push a } else q))).apply
          ((Change.setCell cell (some q)).apply t)) := by
    change (runVisit cell (.filter b keep) site [a]).run (.ofFuel n) s = _
    simp only [runVisit, Act.run_bind, htake, Ending.andThen_ok, Act.run_pure, visitItem, Act.run,
      hrun]
    rfl
  rw [hcall]
  simp only [runProc, Act.run_bind, run_view, Ending.andThen_ok, hblock, visiting, runNative,
    Act.run]
  rw [hvisit]

end Visit

/-- What is left after a call of the block: the array is noted if that was wanted. -/
def noting (keep : Bool) (cell : Nat) (u : Store) (c : Verdict) : Store :=
  let q := (u.progress? cell).getD {}
  (Change.setCell cell (some
      (if c.answer.truthy == keep then { q with items := q.items.push c.pair } else q))).apply
    ((Change.setCell cell (some q)).apply c.after)

section Noting

variable {keep : Bool} {block : Value} {cell site : Nat} {q : Progress} {u v : Store} {c : Verdict}
  {entry : Value × Value} {entries rest : List (Value × Value)} {calls : List Verdict} {d : Table}

theorem progress?_noting (hcell : u.progress? cell = some q)
    (hrun : (callBlock b [c.pair]).run (.ofFuel n) c.before = .ok c.answer c.after)
    (hbefore : c.before.cells.size = u.cells.size) :
    (noting keep cell u c).progress? cell = some
      (if c.answer.truthy == keep then { q with items := q.items.push c.pair } else q) := by
  have hsize := Kept.cells.outcome_ok (p := ⟨n, callBlock b [c.pair], c.before⟩) hrun
  rw [noting, hcell, progress?_setCell, Option.getD_some]
  simp only [Change.apply, Array.size_setIfInBounds]
  exact Nat.lt_of_lt_of_le (hbefore ▸ lt_of_progress? hcell) hsize

/-- `each` hands an entry over to the block of `select` or `reject`, and so to the one that was
given. -/
theorem running_handed (hu : u.Iterating block cell (.filter b keep) site) :
    ∃ π, Point.Running ⟨n + 1, (do discard (callBlock block [← newPair entry]) : Op Unit), u⟩ π
      ⟨n, (callBlock b [⟨u.objects.size⟩] : Op Value),
        (Change.setCell cell none).apply (u.withArray #[entry.1, entry.2])⟩ := by
  obtain ⟨hblock, q, hcell⟩ := hu
  obtain ⟨π, hvisit⟩ := running_visit (n := n) (a := ⟨u.objects.size⟩) (proc?_alloc _ hblock) hcell
  exact ⟨_, ((Point.Running.start.step (.second (newPair_run entry))).step .first).append hvisit⟩

theorem handed_run {x : Value} {t : Store} (hu : u.Iterating block cell (.filter b keep) site)
    (hrun : (callBlock b [⟨u.objects.size⟩]).run (.ofFuel n)
      ((Change.setCell cell none).apply (u.withArray #[entry.1, entry.2])) = .ok x t) :
    (do discard (callBlock block [← newPair entry]) : Op Unit).run (.ofFuel (n + 1)) u =
        .ok () (noting keep cell u ⟨⟨u.objects.size⟩, (Change.setCell cell none).apply
          (u.withArray #[entry.1, entry.2]), x, t⟩) ∧
      (noting keep cell u ⟨⟨u.objects.size⟩, (Change.setCell cell none).apply
        (u.withArray #[entry.1, entry.2]), x, t⟩).Iterating block cell (.filter b keep) site := by
  obtain ⟨hblock, q, hcell⟩ := hu
  have hblock' : (u.withArray #[entry.1, entry.2]).proc? block = _ := proc?_alloc _ hblock
  have hkind := (Lasting.kind.kept.outcome_ok
    (p := ⟨n, callBlock b [⟨u.objects.size⟩], _⟩) hrun).2 block (index_lt_of_proc? hblock')
  refine ⟨?_, proc?_of_kind hkind hblock', _, progress?_noting hcell hrun Array.size_setIfInBounds⟩
  rw [Act.run_bind, newPair_run, Ending.andThen_ok, Act.run_discard,
    visit_run hblock' hcell hrun, Ending.andThen_ok, noting, hcell]
  rfl

/-- The loop of `each` with the block of `select` or `reject`. -/
def filtering (n : Nat) (b : Value) (keep : Bool) (block : Value) (cell site : Nat) :
    Judging n b where
  fuel := n + 1
  body entry := do discard (callBlock block [← newPair entry])
  holds u := u.Iterating block cell (.filter b keep) site
  start entry u := (Change.setCell cell none).apply (u.withArray #[entry.1, entry.2])
  next u _ c := noting keep cell u c
  given := array?_newPair
  enters := running_handed
  ends := handed_run

/-- The arrays that are noted. -/
def Verdict.pairs (keep : Bool) (calls : List Verdict) : List Value :=
  (calls.filter fun c => c.answer.truthy == keep).map Verdict.pair

theorem Verdict.pairs_cons : Verdict.pairs keep (c :: calls) =
    if c.answer.truthy == keep then c.pair :: Verdict.pairs keep calls
    else Verdict.pairs keep calls := by
  rw [Verdict.pairs, List.filter_cons]
  split <;> rfl

/-- The arrays that are noted are those of the entries that are kept. -/
theorem Verdict.kept_pairs {R : Value × Value → Value → Prop}
    (h : List.Forall₂ (fun entry c => R entry (Verdict.pair c)) entries calls) :
    List.Forall₂ R (Verdict.kept keep entries calls) (Verdict.pairs keep calls) := by
  induction h with
  | nil => exact .nil
  | cons hc _ ih =>
    rw [Verdict.pairs_cons, Verdict.kept]
    split
    · exact .cons hc ih
    · exact ih

theorem filtering_items (hcalls : (filtering n b keep block cell site).Calls u rest calls v)
    (hu : u.progress? cell = some q) :
    ∃ q', v.progress? cell = some q' ∧
      q'.items.toList = q.items.toList ++ Verdict.pairs keep calls := by
  induction hcalls generalizing q with
  | nil => exact ⟨q, hu, (List.append_nil _).symm⟩
  | cons _ hrun _ ih =>
    obtain ⟨q', hv, hitems⟩ := ih (progress?_noting hu hrun Array.size_setIfInBounds)
    refine ⟨q', hv, hitems.trans ?_⟩
    rw [Verdict.pairs_cons]
    split
    · rw [Array.toList_push, List.append_assoc, List.singleton_append]
    · rfl

/-- What no call changes is there at the end. -/
theorem filtering_array? (hcalls : (filtering n b keep block cell site).Calls u rest calls v)
    {x : Value} {xs : Array Value} (hkept : ∀ c ∈ calls, ∀ xs, c.before.array? x = some xs →
      c.after.array? x = some xs) (hu : u.array? x = some xs) : v.array? x = some xs := by
  induction hcalls with
  | nil => exact hu
  | cons _ _ _ ih =>
    refine ih (fun c hc => hkept c (List.mem_cons_of_mem _ hc)) ?_
    exact hkept _ List.mem_cons_self xs (array?_alloc _ hu)

theorem filtering_pairs (hcalls : (filtering n b keep block cell site).Calls u rest calls v)
    (hkept : ∀ c ∈ calls, ∀ c' ∈ calls, ∀ xs, c.before.array? c'.pair = some xs →
      c.after.array? c'.pair = some xs) :
    List.Forall₂ (fun entry c => v.array? (Verdict.pair c) = some #[entry.1, entry.2])
      rest calls := by
  induction hcalls with
  | nil => exact .nil
  | cons _ _ hrest ih =>
    refine .cons ?_ (ih fun c hc c' hc' =>
      hkept c (List.mem_cons_of_mem _ hc) c' (List.mem_cons_of_mem _ hc'))
    have hpair := fun c hc => hkept c hc _ List.mem_cons_self
    refine filtering_array? hrest (fun c hc => hpair c (List.mem_cons_of_mem _ hc)) ?_
    exact hpair _ List.mem_cons_self _ (array?_newPair _ _)

theorem filtering_apart (hcalls : (filtering n b keep block cell site).Calls u rest calls v)
    (hd : ∀ c ∈ calls, c.after.Apart d) : rest = [] ∨ v.Apart d := by
  induction hcalls with
  | nil => exact .inl rfl
  | @cons u entry y t rest calls v _ _ hrest ih =>
    right
    obtain rfl | h := ih fun c hc => hd c (List.mem_cons_of_mem _ hc)
    · cases hrest
      exact Apart.of_compared (s := t) (fun _ => rfl) (hd _ List.mem_cons_self)
    · exact h

end Noting

/-! ## The new hash -/

section Rebuild

variable {recv : Value} {u : Store} {h : HashData} {entries : List (Value × Value)}
  {items : List Value}

/-- An array holds an entry whose key is an object. -/
def Store.Holds (u : Store) (entry : Value × Value) (x : Value) : Prop :=
  u.array? x = some #[entry.1, entry.2] ∧ entry.1.index < u.objects.size

theorem rebuild_run (hrecv : (u.hash? recv).isSome)
    (hitems : List.Forall₂ u.Holds entries items) :
    (rebuild recv items.toArray).run (.ofFuel n) u = .ok ⟨u.objects.size⟩ (u.withHash
      { table := entries.foldl (fun t p => t.insert u.keyEql p.1 p.2) {} }) := by
  have hloop {h : HashData} : (items.forM fun pair => do
      let kv ← toList pair
      insertEntry ⟨u.objects.size⟩ (kv[0]?.getD .nil) (kv[1]?.getD .nil)).run (.ofFuel n)
        (u.withHash h) = .ok () (u.withHash
          { h with table := entries.foldl (fun t p => t.insert u.keyEql p.1 p.2) h.table }) := by
    induction hitems generalizing h with
    | nil => rfl
    | @cons entry x entries items hx _ ih =>
      have hlist : (toList x).run (.ofFuel n) (u.withHash h) =
          .ok [entry.1, entry.2] (u.withHash h) := by
        rw [toList, run_view, withHash, array?_alloc _ hx.1]
      have hkey : entry.1.index < (u.withHash h).objects.size :=
        size_withHash ▸ Nat.lt_succ_of_lt hx.2
      have hinsert : (insertEntry ⟨u.objects.size⟩ entry.1 entry.2).run (.ofFuel n)
          (u.withHash h) = .ok () (u.withHash
            { h with table := h.table.insert u.keyEql entry.1 entry.2 }) := by
        have hedit : (insertEntry ⟨u.objects.size⟩ entry.1 entry.2).run (.ofFuel n)
            (u.withHash h) = .ok () ((Change.editHash ⟨u.objects.size⟩
              (.insert entry.1 entry.2)).apply (u.withHash h)) := rfl
        rw [hedit, editHash_withHash, HashEdit.apply, if_pos hkey, keyEql_withHash]
      rw [Act.run_forM_cons, Act.run_bind, hlist, Ending.andThen_ok]
      exact (congrArg (Ending.andThen · _) hinsert).trans ih
  have hview : (view (·.hash? recv) : Op (Option HashData)).run (.ofFuel n) u =
      .ok (u.hash? recv) u := rfl
  have hsome : (u.hash? recv).isNone = false := by rw [Option.isNone_eq_false_iff]; exact hrecv
  simp only [rebuild, Act.run_bind, hview, Ending.andThen_ok, hsome, Bool.false_eq_true, if_false,
    newHash_run]
  exact (congrArg (Ending.andThen · _) hloop)

end Rebuild

/-! ## Runs -/

section

variable {s : Store} {recv : Value}

/-- The store in which `each` is answered, when `select` or `reject` has asked for it. -/
def asking (s : Store) (b : Value) (keep : Bool) : Store :=
  let s := s.iterate (.filter b keep) {}
  { s with depth := s.depth + 1 }

theorem array?_of_hash? (hrecv : (s.hash? recv).isSome) : s.array? recv = none := by
  obtain ⟨d, hd⟩ := payload_of_hash? hrecv
  rw [array?, hd]

/-- `select` and `reject` of a hash come to the loop of its `each`. -/
theorem running_filterBy {keep : Bool} (hrecv : (s.hash? recv).isSome)
    (heach : (s.iterate (.filter b keep) {}).AnswersWith recv "each" (visit newPair))
    (hdepth : s.depth < s.config.maxDepth) (n : Nat) :
    ∃ π, Point.Running ⟨n + 3, filterBy keep recv [] (some b), s⟩ π
      ⟨n + 1, ((asking s b keep).entries recv).pairs.forM
        (filtering n b keep ⟨s.objects.size⟩ s.cells.size s.nextStop).body, asking s b keep⟩ := by
  obtain ⟨r, i, hfind, hm, hf⟩ := heach
  have hview : (view (·.array? recv) : Op (Option (Array Value))).run (.ofFuel (n + 3)) s =
      .ok none s := array?_of_hash? hrecv ▸ rfl
  have hwalk := ((Point.Running.start (p := ⟨n + 3, filterBy keep recv [] (some b), s⟩)).step
    (.second rfl)).step .first
  have hnew := ((hwalk.step (.second hview)).step (.second rfl)).step (.second rfl)
  have hsend := ((hnew.step (.second rfl)).step .first).step .catchBreak
  obtain ⟨π, heach⟩ := Point.running_send hfind hm hf hdepth (n + 1) [] (some ⟨s.objects.size⟩)
  have hloop := (hsend.step .first).append heach
  exact ⟨_, ((hloop.step (.second rfl)).step (.second pairsOf_run)).step .first⟩

theorem filterBy_run {keep : Bool} {t : Store} {q : Progress} (hrecv : (s.hash? recv).isSome)
    (heach : (s.iterate (.filter b keep) {}).AnswersWith recv "each" (visit newPair))
    (hdepth : s.depth < s.config.maxDepth)
    (hloop : (((asking s b keep).entries recv).pairs.forM
      (filtering n b keep ⟨s.objects.size⟩ s.cells.size s.nextStop).body).run (.ofFuel (n + 1))
        (asking s b keep) = .ok () t)
    (hq : t.progress? s.cells.size = some q) :
    (filterBy keep recv [] (some b)).run (.ofFuel (n + 3)) s =
      (rebuild recv q.items).run (.ofFuel (n + 3))
        ((Change.setCell s.cells.size none).apply { t with depth := t.depth - 1 }) := by
  obtain ⟨r, i, hfind, hm, hf⟩ := heach
  have hvisit : (visit newPair recv [] (some ⟨s.objects.size⟩)).run (.ofFuel (n + 1))
      (asking s b keep) = .ok recv t := by
    simp only [filtering] at hloop
    simp only [visit, needBlock, Act.run_bind, Act.run_pure, Ending.andThen_ok, pairsOf_run, hloop]
  have hdepth' : (s.iterate (.filter b keep) {}).depth <
      (s.iterate (.filter b keep) {}).config.maxDepth := hdepth
  have hsend : (send recv "each" [] (some ⟨s.objects.size⟩)).run (.ofFuel (n + 3))
      (s.iterate (.filter b keep) {}) = .ok recv { t with depth := t.depth - 1 } := by
    simp only [asking] at hvisit
    rw [send_run hfind hm hf, Engine.deeper, if_neg (Nat.not_le_of_lt hdepth'), hvisit]
  have hwalk : (walk (.filter b keep) recv {}).run (.ofFuel (n + 3)) s =
      .ok q ((Change.setCell s.cells.size none).apply { t with depth := t.depth - 1 }) := by
    have hstop : newStop.run (.ofFuel (n + 3)) s = .ok s.nextStop (Change.newStop.apply s) := rfl
    have hcell : (newCell {}).run (.ofFuel (n + 3)) (Change.newStop.apply s) =
        .ok s.cells.size ((Change.newCell {}).apply (Change.newStop.apply s)) := rfl
    have hblock : (newObject .proc (.proc (visiting s.cells.size (.filter b keep) s.nextStop))).run
        (.ofFuel (n + 3)) ((Change.newCell {}).apply (Change.newStop.apply s)) =
        .ok ⟨s.objects.size⟩ (s.iterate (.filter b keep) {}) := rfl
    have htake : (takeCell s.cells.size).run (.ofFuel (n + 3)) { t with depth := t.depth - 1 } =
        .ok (some q)
          ((Change.setCell s.cells.size none).apply { t with depth := t.depth - 1 }) := hq ▸ rfl
    simp only [visiting] at hblock
    simp only [Eval.walk, Act.run_bind, run_view, Ending.andThen_ok, array?_of_hash? hrecv,
      Option.isSome_none, Bool.false_eq_true, if_false, hstop, hcell, hblock]
    simp only [Act.run, Act.run_discard, hsend, Ending.andThen_ok]
    rw [Act.run_bind, htake]
    rfl
  simp only [filterBy, needBlock, Act.run_bind, Act.run_pure, Ending.andThen_ok, hwalk]

theorem objects_asking {keep : Bool} : (asking s b keep).objects = (s.allocProc
    (visiting s.cells.size (.filter b keep) s.nextStop)).2.objects := rfl

theorem payload_asking {keep : Bool} {v : Value} (hv : v.index < s.objects.size) :
    (asking s b keep).payload v = s.payload v := by
  rw [Store.payload, object, objects_asking, ← object, allocProc, object_alloc_of_lt s _ hv,
    Store.payload]

theorem proc?_asking {keep : Bool} : (asking s b keep).proc? ⟨s.objects.size⟩ =
    some (visiting s.cells.size (.filter b keep) s.nextStop) := by
  rw [proc?, Store.payload, object, objects_asking, ← object, allocProc, object_alloc]

theorem progress?_asking {keep : Bool} : (asking s b keep).progress? s.cells.size = some {} := by
  have hcells : (asking s b keep).cells = s.cells.push (some {}) := rfl
  rw [progress?, hcells, Array.getD_eq_getD_getElem?, Array.getElem?_push_size, Option.getD_some]

/-- `select` and `reject` are interrupted in a call of the block, or make a hash of the entries
about which the block said what was wanted. -/
theorem filterBy_ends (hkeys : s.KeysExist) (hrecv : (s.hash? recv).isSome) (keep : Bool)
    (heach : (s.iterate (.filter b keep) {}).AnswersWith recv "each" (visit newPair))
    (hdepth : s.depth < s.config.maxDepth) (n : Nat) :
    let p : Point := ⟨n + 3, filterBy keep recv [] (some b), s⟩
    p.Interrupted n b ∨
      ∃ calls, List.Forall₂ (Verdict.Of p n b) (s.entries recv).pairs calls ∧
        ((∀ c ∈ calls, c.after.Apart (s.entries recv) ∧ ∀ c' ∈ calls, ∀ xs,
            c.before.array? c'.pair = some xs → c.after.array? c'.pair = some xs) →
          ∃ x t d, p.outcome = .ok x t ∧ t.hash? x = some { table := d } ∧
            d.pairs = Verdict.kept keep (s.entries recv).pairs calls) := by
  intro p
  have hentries : (asking s b keep).entries recv = s.entries recv := by
    rw [Store.entries, hash?, payload_asking (index_lt_of_hash? hrecv), ← hash?, ← Store.entries]
  obtain ⟨π, hrunning⟩ := running_filterBy hrecv heach hdepth n
  obtain h | ⟨calls, t, hcalls, hchain, -, hrun⟩ :=
    (filtering n b keep ⟨s.objects.size⟩ s.cells.size s.nextStop).loop
      ⟨proc?_asking, _, progress?_asking⟩ hrunning
  · exact .inl h
  rw [hentries] at hcalls hchain
  refine .inr ⟨calls, hcalls, fun hintact => ?_⟩
  obtain ⟨q, hq, hitems⟩ := filtering_items hchain progress?_asking
  have houtcome := filterBy_run hrecv heach hdepth hrun hq
  have hitems' : q.items = (Verdict.pairs keep calls).toArray := by
    rw [← hitems.trans (List.nil_append _)]
  let u := (Change.setCell s.cells.size none).apply { t with depth := t.depth - 1 }
  have hasked : ((asking s b keep).hash? recv).isSome := by
    rw [hash?, payload_asking (index_lt_of_hash? hrecv), ← hash?]
    exact hrecv
  have hhash : (t.hash? recv).isSome := hash?_of_run hrun hasked
  have hsize : s.objects.size ≤ u.objects.size := Nat.le_trans (Nat.le_of_lt (size_alloc _))
    (Lasting.kind.kept.outcome_ok (p := ⟨n + 1, _, asking s b keep⟩) hrun).1
  -- every call leaves all of the arrays alone, so that they hold the entries when they are read
  have hpairs : List.Forall₂ (fun entry c => u.Holds entry (Verdict.pair c))
      (s.entries recv).pairs calls := by
    have hpairs := filtering_pairs hchain fun c hc => (hintact c hc).2
    refine List.forall₂_iff_zip.mpr ⟨hpairs.length_eq, fun {entry c} hmem => ⟨?_, ?_⟩⟩
    · exact (List.forall₂_iff_zip.mp hpairs).2 hmem
    · refine Nat.lt_of_lt_of_le (hkeys recv entry.1 ?_) hsize
      rw [← keys_entries]
      exact Table.mem_keys_of_mem (List.of_mem_zip hmem).1
  have hholds : List.Forall₂ u.Holds (Verdict.kept keep (s.entries recv).pairs calls)
      (Verdict.pairs keep calls) := Verdict.kept_pairs hpairs
  have happart : (Verdict.kept keep (s.entries recv).pairs calls).Pairwise
      fun p q => u.keyEql p.1 q.1 = false := by
    obtain hnil | happart := filtering_apart hchain fun c hc => (hintact c hc).1
    · rw [hnil, Verdict.kept]
      exact .nil
    · have hu : u.Apart (s.entries recv) := Apart.of_compared (s := t) (fun _ => rfl) happart
      exact hu.pairs.sublist Verdict.kept_sublist
  rw [hitems'] at houtcome
  exact ⟨_, _, _, houtcome.trans (rebuild_run (u := u) hhash hholds), hash?_withHash,
    (Table.pairs_foldl_insert (t := {}) happart).trans (List.nil_append _)⟩

end

end Garnet
