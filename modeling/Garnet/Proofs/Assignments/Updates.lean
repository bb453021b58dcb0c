import Garnet.Program.Build.Forms
import Garnet.Proofs.Jumps.Placed
import Garnet.Proofs.Requests
import Garnet.Session.Start

/-!
# Assignments that update

An assignment with an operator is an assignment of the operator's answer. On a variable it goes as
the assignment written out does; the operand, which is an expression of its own there, takes one
more request. On an attribute or an index it evaluates the receiver and the indexes once and makes
two requests of what it got, one to read and one to write.
-/

namespace Garnet

/-- What has a value that can be read and written by its name alone. -/
inductive Variable where
  | localVar (n : String)
  | ivar (n : String)
  | gvar (n : String)
  | cvar (n : String)

namespace Variable

def place : Variable → Place Expr
  | localVar n => .localVar n
  | ivar n => .ivar n
  | gvar n => .gvar n
  | cvar n => .cvar n

/-- The expression that reads the variable. -/
def read : Variable → Expr
  | localVar n => .localVar n
  | ivar n => .ivar n
  | gvar n => .gvar n
  | cvar n => .cvar n

/-- The plain assignment. -/
def assign (value : Expr) : Variable → Expr
  | localVar n => .setLocal n value
  | ivar n => .setIvar n value
  | gvar n => .setGvar n value
  | cvar n => .setCvar n value

def get : Variable → Op Value
  | localVar n => Eval.getLocal n
  | ivar n => Eval.getIvar n
  | gvar n => Eval.getGlobal n
  | cvar n => Eval.getCvar n

def set (v : Value) : Variable → Eval Unit
  | localVar n => Eval.setLocal n v
  | ivar n => Eval.setIvar n v
  | gvar n => Eval.setGlobal n v
  | cvar n => Eval.setCvar n v

def isCvar : Variable → Bool
  | cvar _ => true
  | _ => false

end Variable

namespace Eval

variable {n : Nat} {e e' : Engine} {s : Store} {x : Variable} {value : Expr} {op : String}

/-! ## Variables -/

theorem evalExpr_read (x : Variable) : evalExpr x.read = liftM x.get := by cases x <;> rfl

theorem evalExpr_assign (x : Variable) (value : Expr) :
    evalExpr (x.assign value) = (eval value >>= fun v => x.set v >>= fun _ => pure v) := by
  cases x <;> rfl

theorem bindPlace_variable (x : Variable) : bindPlace x.place = pure (some .plain) := by
  cases x <;> rfl

theorem readPlace_variable (x : Variable) : readPlace x.place .plain = liftM x.get := by
  cases x <;> rfl

theorem readPlaceOrNil_variable (hx : x.isCvar = false) :
    readPlaceOrNil x.place .plain = liftM x.get := by
  cases x <;> first | rfl | cases hx

theorem writePlace_variable (x : Variable) (v : Value) :
    writePlace x.place .plain v = x.set v := by
  cases x <;> rfl

theorem mapM_groupText_run (groups : List (Option String)) (e e' : Engine) (s : Store) :
    (groups.mapM groupText).run e' s = (groups.mapM groupText).run e s := by
  induction groups generalizing s with
  | nil => rfl
  | cons g groups ih =>
    have hg : (groupText g).run e' s = (groupText g).run e s := by cases g <;> rfl
    simp only [Act.run_mapM_cons, Act.run, hg, ih]

/-- A variable is read without requests. -/
theorem variable_get_run (x : Variable) (e e' : Engine) (s : Store) :
    x.get.run e' s = x.get.run e s := by
  cases x with
  | gvar m =>
    simp only [Variable.get, getGlobal]
    split
    · simp only [Act.run_bind, run_view, Ending.andThen_ok]
      cases s.lastMatch with
      | none => rfl
      | some groups =>
        simp only [Act.run_bind]
        rw [mapM_groupText_run groups e e']
        rfl
    · rfl
  | cvar m =>
    simp only [Variable.get, getCvar, Act.run_bind, run_view, Ending.andThen_ok]
    split <;> rfl
  | localVar | ivar => rfl

theorem variable_set_run (x : Variable) (v : Value) (e e' : Engine) (s : Store) :
    (x.set v).run e' s = (x.set v).run e s := by
  cases x <;> rfl

/-- An assignment with an operator is the assignment of the operator's answer. -/
theorem update_run (hop : Build.isSetter op = false) (x : Variable) (value : Expr) (n : Nat)
    (s : Store) :
    (evalExpr (.update x.place op value)).run (.ofFuel (n + 1)) s =
      (evalExpr (x.assign (.send (some x.read) op [.plain value] .none false
        (Build.isSetter op)))).run (.ofFuel (n + 2)) s := by
  have hupdate : evalExpr (.update x.place op value) = evalUpdate x.place op value := rfl
  have hsend : evalExpr (.send (some x.read) op [.plain value] .none false (Build.isSetter op)) =
      evalSend (some x.read) op [.plain value] .none false (Build.isSetter op) := rfl
  have hread : (evalOption (some x.read)).run (.ofFuel (n + 1)) s =
      (x.get.run (.ofFuel (n + 1)) s).andThen fun v => .ok (some v) := by
    rw [evalOption, Act.run_map, eval_run, evalExpr_read, Act.run_liftM, variable_get_run]
  rw [evalExpr_assign, Act.run_bind, eval_run, hupdate, hsend, evalUpdate, evalSend, hop]
  simp only [bindPlace_variable, readPlace_variable, Act.run_bind, hread, Act.run_pure,
    Ending.andThen_ok, Act.run_liftM, Ending.andThen_assoc]
  refine congrArg _ (funext fun current => funext fun t => ?_)
  simp only [evalItems, Bool.false_and, Bool.false_eq_true, if_false, Act.run_bind, Act.run_pure,
    Ending.andThen_assoc, Ending.andThen_ok, resolveBlock, catchBlockBreak, writePlace_variable]
  refine congrArg _ (funext fun right => funext fun u => ?_)
  rw [Act.run_bind]
  refine congrArg _ (funext fun v => funext fun w => ?_)
  rw [Act.run_bind, variable_set_run x v (.ofFuel (n + 1)) (.ofFuel (n + 2))]
  rfl

/-- An assignment that depends on the value so far is a choice between this value and the plain
assignment. -/
theorem updateIf_run (hx : x.isCvar = false) (whenTrue : Bool) (value : Expr) (n : Nat)
    (s : Store) :
    (evalExpr (.updateIf x.place whenTrue value)).run (.ofFuel n) s =
      (evalExpr (.logic whenTrue x.read (x.assign value))).run (.ofFuel (n + 1)) s := by
  have hupdate : evalExpr (.updateIf x.place whenTrue value) =
      evalUpdateIf x.place whenTrue value := rfl
  have hlogic : evalExpr (.logic whenTrue x.read (x.assign value)) = (eval x.read >>= fun l =>
      if l.truthy == whenTrue then eval (x.assign value) else pure l) := rfl
  rw [hupdate, hlogic, evalUpdateIf, Act.run_bind, Act.run_bind, bindPlace_variable, Act.run_pure,
    Ending.andThen_ok, eval_run, evalExpr_read]
  simp only [Act.run_bind, readPlaceOrNil_variable hx]
  refine congrArg _ (funext fun current => funext fun t => ?_)
  cases hkept : current.truthy == whenTrue with
  | true =>
    simp [bne, hkept, Act.run_bind, eval_run, evalExpr_assign, writePlace_variable]
  | false => simp [bne, hkept]

end Eval

end Garnet

/-!
## Updates of attributes and indexes

The receiver and the index expressions of the place are evaluated before anything else, each once
and from left to right. What follows are at most four requests: the message that reads, the
expression on the right, the operator, and the message that writes. Both messages go to the same
receiver with the same indexes.
-/

namespace Garnet

/-- The expression that an evaluation is asked for. -/
def Request.expr? : Request → Option Expr
  | eval e => some e
  | _ => none

/-- The expressions that a run itself has evaluated, in order. -/
def evaluated (asked : List (Request × Store)) : List Expr := asked.filterMap (·.1.expr?)

/-- What a caller sees of the receiver of a message. -/
def Store.callerAccess (s : Store) (recv : Value) : Access :=
  if recv == s.self then .all else ⟨false, s.isA s.self (s.classOf recv)⟩

/-- A message that is written in the program. -/
def Store.message (s : Store) (recv : Value) (name : String) (args : List Value) : Request :=
  .send (s.callerAccess recv) recv name args none

namespace Place

variable {ε : Type}

/-- Whether the place is read and written by messages. -/
def isMessage : Place ε → Bool
  | .attribute .. | .index .. => true
  | _ => false

/-- The message that reads the place. -/
def reader : Place ε → String
  | .attribute _ name _ _ => name
  | _ => "[]"

/-- The message that writes the place. -/
def writer : Place ε → String
  | .attribute _ _ name _ => name
  | _ => "[]="

end Place

namespace Eval.Bound

def recv : Bound → Value
  | .plain => .nil
  | .attribute r | .index r _ => r

def args : Bound → List Value
  | .plain | .attribute _ => []
  | .index _ argv => argv

end Eval.Bound

/-- The requests of an assignment with an operator once receiver and indexes have their values: the
answer to each of them is needed for the next one. -/
inductive Updates (e : Engine) (recv : Value) (argv : List Value) (reader writer op : String)
    (value : Expr) : Store → List (Request × Store) → Ending Value → Prop
  | readFails {s t stop}
    (hread : e.perform (s.message recv reader argv) s = .error stop t) :
    Updates e recv argv reader writer op value s
      [(s.message recv reader argv, s)] (.error stop t)
  | valueFails {s t u current stop}
    (hread : e.perform (s.message recv reader argv) s = .ok current t)
    (hvalue : e.perform (.eval value) t = .error stop u) :
    Updates e recv argv reader writer op value s
      [(s.message recv reader argv, s), (.eval value, t)] (.error stop u)
  | operatorFails {s t u w current right stop}
    (hread : e.perform (s.message recv reader argv) s = .ok current t)
    (hvalue : e.perform (.eval value) t = .ok right u)
    (hop : e.perform (u.message current op [right]) u = .error stop w) :
    Updates e recv argv reader writer op value s
      [(s.message recv reader argv, s), (.eval value, t), (u.message current op [right], u)]
      (.error stop w)
  | writes {s t u w current right v out}
    (hread : e.perform (s.message recv reader argv) s = .ok current t)
    (hvalue : e.perform (.eval value) t = .ok right u)
    (hop : e.perform (u.message current op [right]) u = .ok v w)
    (hwrite : e.perform (w.message recv writer (argv ++ [v])) w = out) :
    Updates e recv argv reader writer op value s
      [(s.message recv reader argv, s), (.eval value, t), (u.message current op [right], u),
        (w.message recv writer (argv ++ [v]), w)]
      (out.andThen fun _ => .ok v)

/-- The requests of an assignment that depends on the value so far. -/
inductive UpdatesIf (e : Engine) (recv : Value) (argv : List Value) (reader writer : String)
    (whenTrue : Bool) (value : Expr) : Store → List (Request × Store) → Ending Value → Prop
  | readFails {s t stop}
    (hread : e.perform (s.message recv reader argv) s = .error stop t) :
    UpdatesIf e recv argv reader writer whenTrue value s
      [(s.message recv reader argv, s)] (.error stop t)
  /-- The value so far stays, and nothing is written. -/
  | kept {s t current}
    (hread : e.perform (s.message recv reader argv) s = .ok current t)
    (hkept : current.truthy ≠ whenTrue) :
    UpdatesIf e recv argv reader writer whenTrue value s
      [(s.message recv reader argv, s)] (.ok current t)
  | valueFails {s t u current stop}
    (hread : e.perform (s.message recv reader argv) s = .ok current t)
    (hchanged : current.truthy = whenTrue)
    (hvalue : e.perform (.eval value) t = .error stop u) :
    UpdatesIf e recv argv reader writer whenTrue value s
      [(s.message recv reader argv, s), (.eval value, t)] (.error stop u)
  | writes {s t u current v out}
    (hread : e.perform (s.message recv reader argv) s = .ok current t)
    (hchanged : current.truthy = whenTrue)
    (hvalue : e.perform (.eval value) t = .ok v u)
    (hwrite : e.perform (u.message recv writer (argv ++ [v])) u = out) :
    UpdatesIf e recv argv reader writer whenTrue value s
      [(s.message recv reader argv, s), (.eval value, t),
        (u.message recv writer (argv ++ [v]), u)]
      (out.andThen fun _ => .ok v)

variable {ℓ : Layer} {α β : Type} {e : Engine} {s : Store}

theorem evaluated_append (xs ys : List (Request × Store)) :
    evaluated (xs ++ ys) = evaluated xs ++ evaluated ys :=
  List.filterMap_append

theorem asks_bind (x : Act ℓ β) (f : β → Act ℓ α) :
    (x >>= f).asks e s = x.asks e s ++ (x.run e s).after fun b => (f b).asks e :=
  rfl

/-- An operation of the library has no expression evaluated by itself. -/
theorem evaluated_library (x : Act ℓ α) (hℓ : ℓ = .library) (s : Store) :
    evaluated (x.asks e s) = [] := by
  induction x generalizing s with
  | bind x f ihx ihf =>
    have hf : evaluated ((x.run e s).after fun b => (f b).asks e) = [] := by
      cases x.run e s with
      | ok b t => exact ihf b hℓ t
      | error => rfl
    exact (evaluated_append _ _).trans (by rw [← Act.asks, ihx hℓ, List.nil_append]; exact hf)
  | @lift _ k _ x h ih =>
    subst hℓ
    cases k with
    | library => exact ih rfl s
    | language | call => cases h
  | perform r f h =>
    subst hℓ
    cases r <;> first | rfl | cases h
  | rescue x f ih => exact ih hℓ s
  | inspected v f =>
    simp only [Act.asks, Act.log]
    split <;> rfl
  | ensure x cleanup ihx ihc =>
    refine (evaluated_append _ _).trans ?_
    rw [← Act.asks, ihx hℓ, List.nil_append]
    split
    · rfl
    · exact ihc hℓ _
  | within st scope x h ih => exact ih hℓ _
  | activate => cases hℓ
  | catchNext x f ih => exact ih hℓ s
  | catchBreak site x f ih => exact ih hℓ s
  | handling => cases hℓ
  | pure | fuel | exhausted | view | change | fail | signal | leave => rfl

/-! ### Receivers and indexes -/

/-- However the action is run, it has these expressions evaluated in order, as far as it gets, and
all of them when it ends with a value. -/
def Act.Evaluates (x : Act ℓ α) (es : List Expr) : Prop :=
  ∀ (e : Engine) (s : Store), evaluated (x.asks e s) <+: es ∧
    ∀ a t, x.run e s = .ok a t → evaluated (x.asks e s) = es

namespace Act.Evaluates

theorem pure (a : α) : (Pure.pure a : Act ℓ α).Evaluates [] :=
  fun _ _ => ⟨List.prefix_rfl, fun _ _ _ => rfl⟩

theorem op (x : Op α) : (liftM x : Act ℓ α).Evaluates [] := by
  intro e s
  have hnone : evaluated ((liftM x : Act ℓ α).asks e s) = [] := evaluated_library x rfl s
  rw [hnone]
  exact ⟨List.prefix_rfl, fun _ _ _ => rfl⟩

theorem eval (x : Expr) : (Eval.eval x).Evaluates [x] :=
  fun _ _ => ⟨List.prefix_rfl, fun _ _ _ => rfl⟩

theorem bind {x : Act ℓ β} {f : β → Act ℓ α} {es es' : List Expr} (hx : x.Evaluates es)
    (hf : ∀ b, (f b).Evaluates es') : (x >>= f).Evaluates (es ++ es') := by
  intro e s
  obtain ⟨hfirst, hall⟩ := hx e s
  rw [asks_bind, evaluated_append, run_bind]
  cases hrun : x.run e s with
  | ok b t =>
    obtain ⟨hmore, hrest⟩ := hf b e t
    rw [hall b t hrun]
    exact ⟨(List.prefix_append_right_inj es).mpr hmore, fun a u h => congrArg _ (hrest a u h)⟩
  | error stop t =>
    refine ⟨?_, nofun⟩
    rw [Ending.after_error]
    exact (List.append_nil _).symm ▸ hfirst.trans (List.prefix_append ..)

theorem after_op {x : Op β} {f : β → Act ℓ α} {es : List Expr} (hf : ∀ b, (f b).Evaluates es) :
    ((liftM x : Act ℓ β) >>= f).Evaluates es :=
  bind (op x) hf

theorem last {x : Act ℓ β} {f : β → Act ℓ α} {es : List Expr} (hx : x.Evaluates es)
    (hf : ∀ b, (f b).Evaluates []) : (x >>= f).Evaluates es :=
  List.append_nil es ▸ bind hx hf

end Act.Evaluates

namespace Eval

theorem evalItems_evaluates (items : List (Item Expr)) :
    (evalItems items).Evaluates (items.flatMap Item.parts) := by
  induction items with
  | nil => exact .pure []
  | cons item items ih =>
    cases item with
    | plain x =>
      refine .bind (.eval x) fun v => ?_
      exact .last ih fun vs => .pure _
    | splat x =>
      refine .bind (.eval x) fun v => .after_op fun xs => ?_
      exact .last ih fun vs => .pure _

/-- To bind a place is to evaluate its receiver and its indexes, each once. -/
theorem bindPlace_evaluates {p : Place Expr} (hp : p.isMessage = true) :
    (bindPlace p).Evaluates p.parts := by
  match p, hp with
  | .attribute (some x) _ _ _, _ => exact .last (.eval x) fun r => .pure _
  | .attribute none _ _ _, _ => exact .last (.op self) fun r => .pure _
  | .index recv args, _ =>
    refine .bind (.eval recv) fun r => ?_
    exact .last (evalItems_evaluates args) fun argv => .pure _

/-! ### Reading and writing -/

theorem callMethod_run (recv : Value) (name : String) (args : List Value) (e : Engine) (s : Store) :
    (callMethod recv name args none).run e s = e.perform (s.message recv name args) s :=
  run_perform _ _

theorem eval_asks (x : Expr) (e : Engine) (s : Store) :
    (eval x).asks e s = [(.eval x, s)] ∧ (eval x).run e s = e.perform (.eval x) s :=
  ⟨rfl, run_perform _ _⟩

/-- To write is a message whose answer does not matter. -/
def writeBy (recv : Value) (name : String) (args : List Value) (v : Value) : Eval Value := do
  discard (callMethod recv name args none : Eval Value)
  pure v

theorem writeBy_run (recv : Value) (name : String) (args : List Value) (v : Value) (e : Engine)
    (s : Store) :
    (writeBy recv name args v).asks e s = [(s.message recv name args, s)] ∧
      (writeBy recv name args v).run e s =
        (e.perform (s.message recv name args) s).andThen fun _ => .ok v := by
  refine ⟨?_, ?_⟩
  · rw [writeBy, asks_bind, Act.asks, Act.log_discard]
    exact congrArg _ (Ending.after_nil _)
  · rw [writeBy, Act.run_bind, Act.run_discard, Ending.andThen_assoc]
    exact congrArg (Ending.andThen · _) (callMethod_run ..)

/-- The assignment with an operator, once receiver and indexes have their values. -/
def updateBound (recv : Value) (argv : List Value) (reader writer op : String) (value : Expr) :
    Eval Value := do
  let current ← callMethod recv reader argv none
  let right ← eval value
  let v ← callMethod current op [right] none
  writeBy recv writer (argv ++ [v]) v

/-- The assignment that depends on the value so far, once receiver and indexes have theirs. -/
def updateIfBound (recv : Value) (argv : List Value) (reader writer : String) (whenTrue : Bool)
    (value : Expr) : Eval Value := do
  let current ← callMethod recv reader argv none
  if current.truthy != whenTrue then pure current
  else
    let v ← eval value
    writeBy recv writer (argv ++ [v]) v

theorem updateBound_run (recv : Value) (argv : List Value) (reader writer op : String)
    (value : Expr) (e : Engine) (s : Store) :
    Updates e recv argv reader writer op value s
      ((updateBound recv argv reader writer op value).asks e s)
      ((updateBound recv argv reader writer op value).run e s) := by
  rw [updateBound, asks_bind, Act.run_bind, Act.run_liftM, callMethod_run]
  cases hread : e.perform (s.message recv reader argv) s with
  | error stop t => exact .readFails hread
  | ok current t =>
    rw [Ending.after_ok, Ending.andThen_ok, asks_bind, Act.run_bind, (eval_asks value e t).1,
      (eval_asks value e t).2]
    cases hvalue : e.perform (.eval value) t with
    | error stop u => exact .valueFails hread hvalue
    | ok right u =>
      rw [Ending.after_ok, Ending.andThen_ok, asks_bind, Act.run_bind, Act.run_liftM,
        callMethod_run]
      cases hop : e.perform (u.message current op [right]) u with
      | error stop w => exact .operatorFails hread hvalue hop
      | ok v w =>
        obtain ⟨hasks, hrun⟩ := writeBy_run recv writer (argv ++ [v]) v e w
        rw [Ending.after_ok, Ending.andThen_ok, hasks, hrun]
        exact .writes hread hvalue hop rfl

theorem updateIfBound_run (recv : Value) (argv : List Value) (reader writer : String)
    (whenTrue : Bool) (value : Expr) (e : Engine) (s : Store) :
    UpdatesIf e recv argv reader writer whenTrue value s
      ((updateIfBound recv argv reader writer whenTrue value).asks e s)
      ((updateIfBound recv argv reader writer whenTrue value).run e s) := by
  rw [updateIfBound, asks_bind, Act.run_bind, Act.run_liftM, callMethod_run]
  cases hread : e.perform (s.message recv reader argv) s with
  | error stop t => exact .readFails hread
  | ok current t =>
    rw [Ending.after_ok, Ending.andThen_ok]
    by_cases htruth : current.truthy = whenTrue
    · rw [if_neg (by simp [htruth]), asks_bind, Act.run_bind, (eval_asks value e t).1,
        (eval_asks value e t).2]
      cases hvalue : e.perform (.eval value) t with
      | error stop u => exact .valueFails hread htruth hvalue
      | ok v u =>
        obtain ⟨hasks, hrun⟩ := writeBy_run recv writer (argv ++ [v]) v e u
        rw [Ending.after_ok, Ending.andThen_ok, hasks, hrun]
        exact .writes hread htruth hvalue rfl
    · rw [if_pos (by simp [htruth])]
      exact .kept hread htruth

/-! ### The whole assignment -/

/-- How an assignment to a place goes whose messages follow the rule: nothing more is asked when
receiver or indexes fail or a safe receiver is nil, else the rule starts from their values. -/
inductive Assigns (p : Place Expr) (e : Engine)
    (rule : Value → List Value → Store → List (Request × Store) → Ending Value → Prop)
    (s : Store) : List (Request × Store) → Ending Value → Prop
  | fails {stop t} (hbind : (bindPlace p).run e s = .error stop t)
    (hparts : evaluated ((bindPlace p).asks e s) <+: p.parts) :
    Assigns p e rule s ((bindPlace p).asks e s) (.error stop t)
  | skips {t} (hbind : (bindPlace p).run e s = .ok none t)
    (hparts : evaluated ((bindPlace p).asks e s) = p.parts) :
    Assigns p e rule s ((bindPlace p).asks e s) (.ok .nil t)
  | goes {b t asked out} (hbind : (bindPlace p).run e s = .ok (some b) t)
    (hparts : evaluated ((bindPlace p).asks e s) = p.parts)
    (hrule : rule b.recv b.args t asked out) :
    Assigns p e rule s ((bindPlace p).asks e s ++ asked) out

variable {p : Place Expr}

theorem bindPlace_fits (hp : p.isMessage = true) {b : Bound} {t : Store}
    (h : (bindPlace p).run e s = .ok (some b) t) :
    readPlace p b = liftM (callMethod b.recv p.reader b.args none) ∧
      ∀ v, writePlace p b v =
        discard (callMethod b.recv p.writer (b.args ++ [v]) none : Eval Value) := by
  match p, hp with
  | .attribute recv reader setter safe, _ =>
    have hbound (x : Eval Value) (h : (x >>= fun r => pure
        (if safe && r.isNil then none else some (Bound.attribute r))).run e s = .ok (some b) t) :
        ∃ r, b = .attribute r := by
      obtain ⟨r, u, -, hb⟩ := Act.run_bind_ok h
      obtain ⟨hb, -⟩ := Ending.ok.inj hb
      split at hb
      · cases hb
      · exact ⟨r, (Option.some.inj hb).symm⟩
    obtain ⟨r, rfl⟩ : ∃ r, b = .attribute r := by
      cases recv with
      | some y => exact hbound _ h
      | none => exact hbound _ h
    exact ⟨rfl, fun _ => rfl⟩
  | .index recv args, _ =>
    obtain ⟨r, u, -, h⟩ := Act.run_bind_ok h
    obtain ⟨argv, w, -, h⟩ := Act.run_bind_ok h
    obtain ⟨hb, -⟩ := Ending.ok.inj h
    cases hb
    exact ⟨rfl, fun _ => rfl⟩

theorem assigns_of_rule
    {rule : Value → List Value → Store → List (Request × Store) → Ending Value → Prop}
    {x : Option Bound → Eval Value} (hp : p.isMessage = true) (hnone : x none = pure .nil)
    (hsome : ∀ b t, (bindPlace p).run e s = .ok (some b) t →
      rule b.recv b.args t ((x (some b)).asks e t) ((x (some b)).run e t)) :
    Assigns p e rule s ((bindPlace p >>= x).asks e s) ((bindPlace p >>= x).run e s) := by
  obtain ⟨hinitial, hall⟩ := bindPlace_evaluates hp e s
  rw [asks_bind, Act.run_bind]
  cases hbind : (bindPlace p).run e s with
  | error stop t =>
    rw [Ending.after_error, Ending.andThen_error, List.append_nil]
    exact .fails hbind hinitial
  | ok b t =>
    rw [Ending.after_ok, Ending.andThen_ok]
    cases b with
    | none =>
      rw [hnone]
      exact (List.append_nil _).symm ▸ Assigns.skips hbind (hall _ _ hbind)
    | some b => exact .goes hbind (hall _ _ hbind) (hsome b t hbind)

/-- An assignment with an operator to a variable goes as the assignment of the operator's answer
written out, and one that depends on the value so far as the choice written out; written out, they
take one more nested request. An assignment to a place that is read and written by messages has the
receiver and the indexes evaluated first, each once, and sends both messages to what they gave; it
sends no second message where the value so far stays. -/
theorem update_assigns :
    (∀ (x : Variable) (op : String) (value : Expr) (n : Nat) (s : Store),
      Build.isSetter op = false →
      (evalExpr (.update x.place op value)).run (.ofFuel (n + 1)) s =
        (evalExpr (x.assign (.send (some x.read) op [.plain value] .none false
          (Build.isSetter op)))).run (.ofFuel (n + 2)) s) ∧
    (∀ (x : Variable) (whenTrue : Bool) (value : Expr) (n : Nat) (s : Store), x.isCvar = false →
      (evalExpr (.updateIf x.place whenTrue value)).run (.ofFuel n) s =
        (evalExpr (.logic whenTrue x.read (x.assign value))).run (.ofFuel (n + 1)) s) ∧
    ∀ (p : Place Expr) (value : Expr) (e : Engine) (s : Store), p.isMessage = true →
      (∀ op, Assigns p e (Updates e · · p.reader p.writer op value) s
        ((evalExpr (.update p op value)).asks e s) ((evalExpr (.update p op value)).run e s)) ∧
      ∀ whenTrue, Assigns p e (UpdatesIf e · · p.reader p.writer whenTrue value) s
        ((evalExpr (.updateIf p whenTrue value)).asks e s)
        ((evalExpr (.updateIf p whenTrue value)).run e s) := by
  refine ⟨fun x op value n s hop => update_run hop x value n s,
    fun x whenTrue value n s hx => updateIf_run hx whenTrue value n s,
    fun p value e s hp => ⟨fun op => ?_, fun whenTrue => ?_⟩⟩
  · refine assigns_of_rule hp rfl fun b t hbind => ?_
    obtain ⟨hread, hwrite⟩ := bindPlace_fits hp hbind
    simp only [hread, hwrite]
    exact updateBound_run b.recv b.args p.reader p.writer op value e t
  · refine assigns_of_rule hp rfl fun b t hbind => ?_
    obtain ⟨hread, hwrite⟩ := bindPlace_fits hp hbind
    have hreadOrNil : readPlaceOrNil p b = readPlace p b := by
      match p, hp with
      | .attribute .., _ | .index .., _ => rfl
    simp only [hreadOrNil, hread, hwrite]
    exact updateIfBound_run b.recv b.args p.reader p.writer whenTrue value e t

/-- A receiver that may be nil. -/
def samplePlace : Place Expr := .attribute (some .nil) "a" "a=" true

/-- Nothing is asked of a receiver that may be nil and is. -/
theorem update_assigns_sample :
    Build.isSetter "+" = false ∧ samplePlace.isMessage = true ∧
    (evalExpr (.update (.localVar "x") "+" (.int 1))).run (.ofFuel 5) (Store.start {} []) =
      (evalExpr (.setLocal "x" (.send (some (.localVar "x")) "+" [.plain (.int 1)] .none false
        false))).run (.ofFuel 6) (Store.start {} []) ∧
    (evalExpr (.updateIf (.localVar "x") false (.int 1))).run (.ofFuel 5) (Store.start {} []) =
      (evalExpr (.logic false (.localVar "x") (.setLocal "x" (.int 1)))).run (.ofFuel 6)
        (Store.start {} []) ∧
    evaluated ((evalExpr (.update samplePlace "+" (.int 1))).asks (.ofFuel 5)
      (Store.start {} [])) = [.nil] := by
  have hsetter : Build.isSetter "+" = false := by decide +kernel
  obtain ⟨hupdate, hupdateIf, hplaces⟩ := update_assigns
  refine ⟨hsetter, rfl, ?_, hupdateIf (.localVar "x") false (.int 1) 5 _ rfl, ?_⟩
  · have hwritten := hupdate (.localVar "x") "+" (.int 1) 4 (Store.start {} []) hsetter
    rw [hsetter] at hwritten
    exact hwritten
  · generalize Store.start {} [] = s
    have hplace := (hplaces samplePlace (.int 1) (.ofFuel 5) s rfl).1 "+"
    have hbind : (bindPlace samplePlace).run (.ofFuel 5) s = .ok none s := rfl
    generalize (evalExpr (.update samplePlace "+" (.int 1))).asks (.ofFuel 5) s = asked at hplace ⊢
    cases hplace with
    | skips _ hparts => exact hparts
    | goes h => cases h.symm.trans hbind

end Eval

end Garnet
