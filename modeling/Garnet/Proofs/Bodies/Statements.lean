import Garnet.Proofs.Bodies.Operations
import Garnet.Proofs.Control.Later
import Garnet.Proofs.Requests

/-!
# Statements of a body that change methods

A method is defined, gets a second name, or the class is sent a message such as `attr_reader` or
`private` with names. Each statement stands for a row of moves, and evaluating it makes them, as
long as the message still means what the library has under its name.
-/

namespace Garnet

/-- A message to the class whose body is open that changes its methods. -/
inductive ClassMessage where
  | defineMethod (name : String) (block : BlockLiteral Expr)
  | attrReader (names : List String)
  | attrWriter (names : List String)
  | attrAccessor (names : List String)
  | aliasMethod (new old : String)
  | setVisibility (v : Visibility) (first : String) (rest : List String)
  | moduleFunction (names : List String)
  | removeMethod (names : List String)

namespace ClassMessage

def keyword : ClassMessage → String
  | defineMethod .. => "define_method"
  | attrReader _ => "attr_reader"
  | attrWriter _ => "attr_writer"
  | attrAccessor _ => "attr_accessor"
  | aliasMethod .. => "alias_method"
  | setVisibility v .. => v.text
  | moduleFunction _ => "module_function"
  | removeMethod _ => "remove_method"

/-- What the library has under the keyword. -/
def native : ClassMessage → Native
  | defineMethod .. => Library.Modules.defineMethod
  | attrReader _ => Library.Modules.attrReader
  | attrWriter _ => Library.Modules.attrWriter
  | attrAccessor _ => Library.Modules.attrAccessor
  | aliasMethod .. => Library.Modules.aliasMethod
  | setVisibility v .. => Library.Modules.changeVisibility v
  | moduleFunction _ => Library.Modules.moduleFunction
  | removeMethod _ => Library.Modules.removeMethod

def names : ClassMessage → List String
  | defineMethod name _ => [name]
  | attrReader names | attrWriter names | attrAccessor names | moduleFunction names
  | removeMethod names => names
  | aliasMethod new old => [new, old]
  | setVisibility _ first rest => first :: rest

def block : ClassMessage → BlockArg Expr
  | defineMethod _ b => .literal b
  | _ => .none

def expr (m : ClassMessage) : Expr :=
  .send none m.keyword (m.names.map fun n => .plain (.symbol n)) m.block false false

/-- The moves that a message stands for once its block has become the proc `p`. -/
def moves (p : Value) : ClassMessage → List Move
  | defineMethod name _ => [.install name ⟨name, .proc p, true⟩]
  | attrReader names => names.map .reader
  | attrWriter names => names.map .writer
  | attrAccessor names => names.flatMap fun n => [.reader n, .writer n]
  | aliasMethod new old => [.aliasAs new old]
  | setVisibility v first rest => (first :: rest).map (.setVisibility v)
  | moduleFunction names => names.map .copy
  | removeMethod names => names.map .remove

end ClassMessage

/-- What a block becomes in a body with this frame. -/
def BlockLiteral.procIn (b : BlockLiteral Expr) (frame : Frame) : ProcData :=
  ⟨.closure ⟨b.params, b.body, frame.home, frame, b.site⟩, false⟩

/-- A statement of a body that changes methods. -/
inductive Statement where
  | define (name : String) (params : Params Expr) (body : Expr)
  | aliasAs (new old : String)
  | message (m : ClassMessage)

namespace Statement

def expr : Statement → Expr
  | define name params body => .define name params body
  | aliasAs new old => .aliasMethod (.symbol new) (.symbol old)
  | message m => m.expr

/-- A body as a program has it. -/
def bodyOf : List Statement → Option Expr
  | [] => none
  | [st] => some st.expr
  | sts => some (.sequence (sts.map expr))

/-- The moves that a statement stands for in a body with this scope. -/
def moves (scope : ScopeId) (p : Value) : Statement → List Move
  | define name params body => [.define name ⟨name, .compiled params body (some scope), true⟩]
  | aliasAs new old => [.aliasAs new old]
  | message m => m.moves p

/-- A statement stands for moves in a body with this frame; its block has become a proc. -/
def Denotes (s : Store) (frame : Frame) (st : Statement) (moves : List Move) : Prop :=
  ∃ p, moves = st.moves frame.home p ∧
    ∀ m b, st = message m → m.block = .literal b → s.proc? p = some (b.procIn frame)

/-- No move of the statement is about this name. -/
def Spares (st : Statement) (name : String) : Prop :=
  ∀ scope p, ∀ m ∈ st.moves scope p, name ≠ m.name

end Statement

/-! ## Evaluating parts of a statement -/

namespace Store

/-- A message to `c` means an operation of the library. -/
structure Means (s : Store) (c : Value) (name : String) (f : Native) : Prop where
  unbound : ∀ id, Scopes.pending? s.scopes id name = none
  builtin : ∃ r i, s.findMethod c name .all = .ok r ∧ r.method.body = .builtin i ∧
    Library.run i = f

end Store

namespace Body

/-- The name means in the class what it meant when the body was opened. -/
structure Untouched (B : Body) (d : Drafts) (name : String) : Prop where
  instances : d.instances name = (B.store.tableOf (.instances B.target)).lookup name
  own : d.own name = (B.store.tableOf (.own B.target)).lookup name
  parked : d.parked name = none

variable {B : Body} {n : Nat} {u : Store} {d : Drafts} {α β : Type} {ℓ : Layer} {r : Drafts × Bool}

theorem Untouched.after {name : String} (h : B.Untouched d name) {ms : List Move}
    (hms : ∀ m ∈ ms, name ≠ m.name) : B.Untouched (B.after d ms).1 name := by
  obtain ⟨hinstances, hown, hparked⟩ :
      (B.after d ms).1.instances name = d.instances name ∧
        (B.after d ms).1.own name = d.own name ∧ (B.after d ms).1.parked name = d.parked name :=
    runMoves_of_ne hms d
  exact ⟨hinstances.trans h.instances, hown.trans h.own, hparked.trans h.parked⟩

theorem Ends.catchBreak {x : Act ℓ α} {e : Engine} {site : Nat} {f : Value → α}
    (h : B.Ends (x.run e u) r) : B.Ends ((Act.catchBreak site x f).run e u) r := by
  rw [Act.run]
  generalize x.run e u = out at h
  cases h with
  | ok h => exact .ok h
  | raise h => exact .raise h

theorem Ends.invoke (hdepth : u.depth < u.config.maxDepth) {m : MethodDef} {i : Nat} {f : Native}
    (hm : m.body = .builtin i) (hf : Library.run i = f) {holder : Holder} {recv : Value}
    {args : List Value} {block : Option Value}
    (h : B.Ends ((f recv args block).run (.ofFuel n) { u with depth := u.depth + 1 }) r) :
    B.Ends ((Eval.invoke m holder recv args block).run (.ofFuel (n + 1)) u) r := by
  simp only [Eval.invoke, Eval.perform, Act.run, Engine.perform_invoke hm hf, Engine.deeper,
    ge_iff_le, Nat.not_le_of_lt hdepth, if_false]
  generalize (f recv args block).run _ _ = out at h
  cases h with
  | ok h => exact .ok (h.withDepth _)
  | raise h => exact .raise (h.withDepth _)

namespace At

theorem means (h : B.At u d) {name : String} {f : Native} (hm : B.store.Means B.target name f)
    (hd : B.Untouched d name) : u.Means B.target name f := by
  refine ⟨fun id => ?_, ?_⟩
  · by_cases hid : id = B.scope
    · rw [hid]
      exact Option.map_eq_none_iff.mp ((h.pending?_map name).trans hd.parked)
    · rw [h.pending?_of_ne hid]
      exact hm.unbound id
  · rw [h.findMethod_target hd.instances hd.own]
    exact hm.builtin

theorem sendSelf (h : B.At u d) (hdepth : u.depth < u.config.maxDepth) {name : String} {f : Native}
    (hm : u.Means B.target name f) {args : List Value} {block : Option Value}
    (hf : ∀ e, B.Ends ((f B.target args block).run e { u with depth := u.depth + 1 }) r) :
    B.Ends ((Eval.sendSelf name args block).run (.ofFuel (n + 1)) u) r := by
  obtain ⟨found, i, hfound, hbody, hlib⟩ := hm.builtin
  have hscope : Scopes.findMethod? u.scopes u.scopeId name = none :=
    Scopes.findMethod?_eq_none hm.unbound
  refine .after_ok (a := B.target) (t := u) ?_ (.after_ok (a := none) (t := u) ?_
    (.after_ok (a := .ok found) (t := u) ?_ ?_))
  · exact congrArg (Ending.ok · u) h.self_eq
  · exact congrArg (Ending.ok · u) hscope
  · exact congrArg (Ending.ok · u) hfound
  · exact .invoke hdepth hbody hlib (hf _)

/-- Names written as arguments become symbols. -/
theorem evalNames (h : B.At u d) (names : List String) :
    ∃ vs t, (Eval.evalItems (names.map fun n => .plain (.symbol n))).run (.ofFuel (n + 1)) u =
      .ok vs t ∧ B.At t d ∧ Edited u t ∧ t.Names vs names := by
  induction names generalizing u with
  | nil => exact ⟨[], u, rfl, h, .refl, .nil⟩
  | cons name names ih =>
    obtain ⟨v, t, hv, ht, hedited, hname⟩ := h.newSymbol (e := .ofFuel n) name
    obtain ⟨vs, t', hvs, ht', hedited', hnames⟩ := ih ht
    have heval : (Eval.eval (.symbol name)).run (.ofFuel (n + 1)) u = .ok v t :=
      (Eval.eval_run _).trans hv
    refine ⟨v :: vs, t', ?_, ht', hedited.trans hedited',
      .cons (hedited'.symbol hname) hnames⟩
    simp only [List.map_cons, Eval.evalItems, bind, Act.run, heval, hvs, pure]

/-- The block of a message, if it has one, becomes a proc that closes over the body. -/
theorem resolveBlock (h : B.At u d) (m : ClassMessage) :
    ∃ block p t, (Eval.resolveBlock m.block).run (.ofFuel n) u = .ok block t ∧ B.At t d ∧
      Edited u t ∧
      ∀ b, m.block = .literal b → block = some p ∧ t.proc? p = some (b.procIn B.store.frame) := by
  cases m with
  | defineMethod name b =>
    refine ⟨some ⟨u.objects.size⟩, ⟨u.objects.size⟩, (Change.allocBlock b false).apply u, rfl,
      h.alloc ⟨rfl, rfl, rfl⟩, .alloc .refl _ id, fun b' hb => ?_⟩
    cases hb
    refine ⟨rfl, Store.proc?_eq_some.mpr ?_⟩
    refine (congrArg Object.payload (Store.object_alloc u _)).trans ?_
    rw [BlockLiteral.procIn, h.scopeId_eq, B.home, Store.frame, h.frames]
    rfl
  | _ => exact ⟨none, .nil, u, rfl, h, .refl, fun _ hb => by cases hb⟩

theorem native (h : B.At u d) (m : ClassMessage) {e : Engine} {args : List Value}
    {block : Option Value} {p : Value} (hn : u.Names args m.names)
    (hb : ∀ b, m.block = .literal b → block = some p) :
    B.Ends ((m.native B.target args block).run e u) (B.after d (m.moves p)) := by
  cases m with
  | defineMethod name b =>
    rw [hb b rfl]
    exact h.defineMethod hn p
  | attrReader names => exact h.attrReader block hn
  | attrWriter names => exact h.attrWriter block hn
  | attrAccessor names => exact h.attrAccessor block hn
  | aliasMethod new old => exact h.aliasMethod block hn
  | setVisibility v first rest => exact h.changeVisibility block hn v
  | moduleFunction names => exact h.moduleFunction block hn
  | removeMethod names => exact h.removeMethod block hn

/-- A message does what the moves say that it stands for. -/
theorem message (h : B.At u d) (hdepth : u.depth < u.config.maxDepth) (m : ClassMessage)
    (hm : B.store.Means B.target m.keyword m.native) (hd : B.Untouched d m.keyword) :
    ∃ p, B.Ends ((Eval.evalExpr m.expr).run (.ofFuel (n + 1)) u) (B.after d (m.moves p)) ∧
      ∀ b, m.block = .literal b →
        ((Eval.evalExpr m.expr).run (.ofFuel (n + 1)) u).store.proc? p =
          some (b.procIn B.store.frame) := by
  obtain ⟨args, t, hargs, ht, hedited, hnames⟩ := h.evalNames (n := n) m.names
  obtain ⟨block, p, t', hblock, ht', hedited', hproc⟩ := ht.resolveBlock (n := n + 1) m
  have hrun : (Eval.evalExpr m.expr).run (.ofFuel (n + 1)) u =
      (Eval.catchBlockBreak m.block (Eval.sendSelf m.keyword args block) >>= pure).run
        (.ofFuel (n + 1)) t' := by
    simp only [ClassMessage.expr, Eval.evalExpr, Eval.evalSend, Eval.evalOption, Bool.false_and,
      Bool.false_eq_true, if_false, bind, pure, Act.run, hargs, hblock]
  have hdepth' : t'.depth < t'.config.maxDepth :=
    (Level.of_edited (hedited.trans hedited')).depth_lt hdepth
  have hsend : B.Ends ((Eval.sendSelf m.keyword args block).run (.ofFuel (n + 1)) t')
      (B.after d (m.moves p)) := by
    have hnames' : t'.Names args m.names := hnames.mono hedited'
    refine ht'.sendSelf hdepth' (ht'.means hm hd) fun _ => ?_
    exact (ht'.withDepth _).native m hnames' fun b hb => (hproc b hb).1
  refine ⟨p, ?_, fun b hb => ?_⟩
  · rw [hrun]
    refine .before_ok ?_ fun _ _ _ ht => .ok ht
    unfold Eval.catchBlockBreak
    split
    · exact .catchBreak hsend
    · exact hsend
  · rw [hrun]
    exact (Later.kept.outcome ⟨n + 1, _, t'⟩).procs _ _ (hproc b hb).2

theorem define (h : B.At u d) {e : Engine} (name : String) (params : Params Expr) (body : Expr) :
    B.Ends ((Eval.evalDefine name params body).run e u)
      (B.after d [.define name ⟨name, .compiled params body (some B.scope), true⟩]) := by
  have hpark := h.park name (p := ⟨⟨name, .compiled params body (some B.scope), true⟩, .pub⟩) rfl
  obtain ⟨v, t, hrun, ht, _⟩ := hpark.newSymbol (e := e) name
  have hlift {β : Type} (x : Op β) (t : Store) : (liftM x : Eval β).run e t = x.run e t := rfl
  simp only [Eval.evalDefine, Eval.view, Eval.update, bind, Act.run, hlift, h.scopeId_eq, h.kind_eq,
    h.defaultVisibility, Change.apply, hrun]
  exact .ok ht

theorem aliasAs (h : B.At u d) (new old : String) :
    B.Ends ((Eval.evalAlias (.symbol new) (.symbol old)).run (.ofFuel (n + 1)) u)
      (B.after d [.aliasAs new old]) := by
  obtain ⟨v, t, hv, ht, _, hnew⟩ := h.newSymbol (e := .ofFuel n) new
  obtain ⟨w, t', hw, ht', hedited, hold⟩ := ht.newSymbol (e := .ofFuel n) old
  have hnew' : t'.payload v = .symbol new := hedited.symbol hnew
  have hmodule : t'.isModuleLike B.target = true := by
    rw [Store.isModuleLike_eq_link?]
    exact ht'.hasTable
  refine .after_ok ((Eval.eval_run _).trans hv) (.after_ok ((Eval.eval_run _).trans hw)
    (.after_ok (Eval.nameOf_run (.inl hnew')) (.after_ok (Eval.nameOf_run (.inl hold)) ?_)))
  refine .before_ok ?_ fun _ _ _ ht => .ok ht
  refine .after_ok (a := B.target) (congrArg (Ending.ok · t') ht'.self_eq)
    (.after_ok (a := true) (congrArg (Ending.ok · t') hmodule) ?_)
  exact ht'.aliasIn new old

end At

end Body

end Garnet

/-!
## Rows of statements

The statements of a body make their moves one after another until one fails. The blocks that they
make stay what they are.
-/

namespace Garnet

variable {B : Body} {n : Nat} {s t u : Store} {d : Drafts} {frame : Frame} {st : Statement}
  {ms : List Move}

namespace Statement

theorem Denotes.mono (h : st.Denotes s frame ms) (hl : Later s t) : st.Denotes t frame ms := by
  obtain ⟨p, hms, hp⟩ := h
  exact ⟨p, hms, fun m b hm hb => hl.procs _ _ (hp m b hm hb)⟩

theorem Denotes.ne_name (h : st.Denotes s frame ms) {name : String} (hst : st.Spares name) :
    ∀ m ∈ ms, name ≠ m.name := by
  obtain ⟨p, rfl, _⟩ := h
  exact hst _ p

end Statement

theorem Eval.evalSequence_cons (x y : Expr) (xs : List Expr) {e : Engine} :
    (evalSequence (x :: y :: xs)).run e u =
      match (eval x).run e u with
      | .ok _ t => (evalSequence (y :: xs)).run e t
      | .error stop t => .error stop t := by
  have hdiscard : (discard (eval x) : Eval Unit) = .bind (eval x) fun _ => .pure () := rfl
  rw [evalSequence]
  · simp only [hdiscard, bind, Act.run]
    cases (eval x).run e u <;> rfl
  · exact fun h => List.cons_ne_nil _ _ h

namespace Body

/-- The messages among some statements still mean operations of the library, and none of the
statements is about their names. -/
def Ready (B : Body) (d : Drafts) (sts : List Statement) : Prop :=
  ∀ m, .message m ∈ sts → B.store.Means B.target m.keyword m.native ∧
    B.Untouched d m.keyword ∧ ∀ st ∈ sts, st.Spares m.keyword

/-- Statements have made their moves one after another until one failed. -/
def Ran (B : Body) (d : Drafts) (sts : List Statement) (out : Ending Value) : Prop :=
  ∃ done rest moves, sts = done ++ rest ∧
    List.Forall₂ (Statement.Denotes out.store B.store.frame) done moves ∧
    B.Ends out (B.after d moves.flatten) ∧ ((B.after d moves.flatten).2 = true → rest = [])

theorem Ready.head {sts : List Statement} (h : B.Ready d (st :: sts)) : B.Ready d [st] := by
  intro m hm
  have hst : Statement.message m = st := List.mem_singleton.mp hm
  obtain ⟨hmeans, huntouched, hspares⟩ := h m (hst ▸ List.mem_cons_self)
  refine ⟨hmeans, huntouched, fun st' hst' => hspares st' ?_⟩
  rw [List.mem_singleton.mp hst']
  exact List.mem_cons_self

theorem Ready.tail {sts : List Statement} (h : B.Ready d (st :: sts))
    (hms : st.Denotes s frame ms) : B.Ready (B.after d ms).1 sts := by
  intro m hm
  obtain ⟨hmeans, huntouched, hspares⟩ := h m (List.mem_cons_of_mem _ hm)
  have hne := hms.ne_name (hspares st List.mem_cons_self)
  exact ⟨hmeans, huntouched.after hne, fun st' hst' => hspares st' (List.mem_cons_of_mem _ hst')⟩

namespace At

theorem statement (h : B.At u d) (hdepth : u.depth < u.config.maxDepth) (hst : B.Ready d [st]) :
    ∃ ms, st.Denotes ((Eval.eval st.expr).run (.ofFuel (n + 2)) u).store B.store.frame ms ∧
      B.Ends ((Eval.eval st.expr).run (.ofFuel (n + 2)) u) (B.after d ms) := by
  rw [Eval.eval_run]
  cases st with
  | define name params body =>
    refine ⟨_, ⟨.nil, rfl, fun _ _ hm => by cases hm⟩, ?_⟩
    rw [B.home]
    exact h.define name params body
  | aliasAs new old => exact ⟨_, ⟨.nil, rfl, fun _ _ hm => by cases hm⟩, h.aliasAs new old⟩
  | message m =>
    obtain ⟨hmeans, huntouched, _⟩ := hst m List.mem_cons_self
    obtain ⟨p, hends, hproc⟩ := h.message (n := n) hdepth m hmeans huntouched
    refine ⟨_, ⟨p, rfl, fun m' b hm hb => ?_⟩, hends⟩
    cases hm
    exact hproc b hb

theorem ran_one (h : B.At u d) (hdepth : u.depth < u.config.maxDepth) (hst : B.Ready d [st]) :
    B.Ran d [st] ((Eval.eval st.expr).run (.ofFuel (n + 2)) u) := by
  obtain ⟨ms, hms, hends⟩ := h.statement (n := n) hdepth hst
  refine ⟨[st], [], [ms], rfl, .cons hms .nil, ?_, fun _ => rfl⟩
  rw [List.flatten_singleton]
  exact hends

/-- One statement after another. -/
theorem ran_sequence (h : B.At u d) (hdepth : u.depth < u.config.maxDepth) {sts : List Statement}
    (hsts : B.Ready d sts) :
    B.Ran d sts ((Eval.evalSequence (sts.map Statement.expr)).run (.ofFuel (n + 2)) u) := by
  induction sts generalizing u d with
  | nil => exact ⟨[], [], [], rfl, .nil, .ok h, fun _ => rfl⟩
  | cons st sts ih =>
    cases sts with
    | nil => exact h.ran_one hdepth hsts
    | cons st' sts =>
      obtain ⟨ms, hms, hends⟩ := h.statement (n := n) hdepth hsts.head
      have hready := hsts.tail hms
      have hlevel := Level.kept.outcome ⟨n + 2, Eval.eval st.expr, u⟩
      rw [List.map_cons, List.map_cons, Eval.evalSequence_cons]
      simp only [Point.outcome] at hlevel
      generalize (Eval.eval st.expr).run (.ofFuel (n + 2)) u = out at hms hends hlevel
      generalize hr : B.after d ms = r at hends hready
      cases hends with
      | raise ht =>
        refine ⟨[st], st' :: sts, [ms], rfl, .cons hms .nil, ?_, ?_⟩
        · rw [List.flatten_singleton, hr]
          exact .raise ht
        · rw [List.flatten_singleton, hr]
          exact fun h => absurd h Bool.false_ne_true
      | @ok a t d' ht =>
        have hlevel : Level u t := hlevel
        obtain ⟨done, rest, moves, hsplit, hdone, hend, hrest⟩ :=
          ih ht (hlevel.depth_lt hdepth) hready
        have hlater := Later.kept.outcome
          ⟨n + 2, Eval.evalSequence ((st' :: sts).map Statement.expr), t⟩
        have hafter : B.after d (ms :: moves).flatten = B.after d' moves.flatten := by
          rw [List.flatten_cons, after_append, hr, if_pos rfl]
        refine ⟨st :: done, rest, ms :: moves, congrArg (st :: ·) hsplit,
          .cons (hms.mono hlater) hdone, ?_, ?_⟩
        · rw [hafter]
          exact hend
        · rw [hafter]
          exact hrest

theorem ran_body (h : B.At u d) (hdepth : u.depth < u.config.maxDepth) {sts : List Statement}
    (hsts : B.Ready d sts) :
    B.Ran d sts ((match Statement.bodyOf sts with
      | some x => Eval.perform (.eval x)
      | none => pure .nil : Eval Value).run (.ofFuel (n + 3)) u) := by
  match sts with
  | [] => exact ⟨[], [], [], rfl, .nil, .ok h, fun _ => rfl⟩
  | [st] => exact h.ran_one hdepth hsts
  | st :: st' :: sts =>
    have hsequence := h.ran_sequence (n := n) hdepth hsts
    change B.Ran d _ ((Eval.eval (.sequence ((st :: st' :: sts).map Statement.expr))).run _ u)
    rw [Eval.eval_run]
    exact hsequence

end At

end Body

end Garnet
