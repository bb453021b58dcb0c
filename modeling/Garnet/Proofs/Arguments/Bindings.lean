import Garnet.Eval.Call
import Garnet.Proofs.Endings
import Garnet.Proofs.Heap
import Garnet.Session.Start

/-!
# The arguments of a call

Arguments are shared out among the parameters by their number, and then bound to them.
-/

/-!
## Sharing out arguments

Where the number of arguments is one that a parameter list accepts, every argument comes to exactly
one kind of parameter and their order is kept. The shares can be read off one after another, with a
position that moves along the arguments; no such read goes beyond their end, however many arguments
there are.
-/

namespace Garnet

namespace Params

variable {ε : Type} {p : Params ε} {args : List Value}

/-- How many of the optional parameters get an argument when there are `n`. -/
def givenCount (p : Params ε) (n : Nat) : Nat := min (n - p.requiredCount) p.optional.length

/-! ### The number of arguments -/

theorem accepts_iff {n : Nat} :
    p.accepts n = true ↔
      p.requiredCount ≤ n ∧ (p.hasRest = true ∨ n ≤ p.requiredCount + p.optional.length) := by
  simp only [accepts, Bool.and_eq_true, Bool.or_eq_true, decide_eq_true_eq]

/-- What a parameter list is like whose arity is not negative. -/
theorem fixed_of_arity_nonneg (h : 0 ≤ p.arity) :
    p.hasRest = false ∧ p.optional = [] ∧ p.arity = p.requiredCount := by
  unfold arity at h ⊢
  split at h <;> rename_i hopen
  · omega
  · rw [if_neg hopen]
    simpa using hopen

theorem arity_of_neg (h : p.arity < 0) : p.arity = -((p.requiredCount : Int) + 1) := by
  unfold arity at h ⊢
  split at h <;> rename_i hopen
  · rw [if_pos hopen]
  · omega

/-- An arity that is not negative is the one number of arguments that is accepted. -/
theorem accepts_iff_of_arity_nonneg (h : 0 ≤ p.arity) (n : Nat) :
    p.accepts n = true ↔ (n : Int) = p.arity := by
  obtain ⟨hrest, hoptional, harity⟩ := fixed_of_arity_nonneg h
  rw [accepts_iff, harity, hrest, hoptional]
  simp only [Bool.false_eq_true, false_or, List.length_nil]
  omega

/-- A negative arity tells the least number of arguments; without a rest parameter there is a
greatest one too. -/
theorem accepts_iff_of_arity_neg (h : p.arity < 0) (n : Nat) :
    p.accepts n = true ↔
      -p.arity - 1 ≤ n ∧ (p.hasRest = true ∨ n ≤ p.requiredCount + p.optional.length) := by
  rw [accepts_iff, arity_of_neg h]
  refine and_congr_left' ?_
  omega

theorem accepts_least (h : p.arity < 0) : p.accepts (-p.arity - 1).toNat = true := by
  have harity := arity_of_neg h
  exact (accepts_iff_of_arity_neg h _).mpr ⟨by omega, .inr (by omega)⟩

/-! ### The shares -/

theorem length_allot_given : (p.allot args).given.length = p.givenCount args.length := by
  simp only [allot, givenCount, requiredCount, List.length_take, List.length_drop]
  omega

/-- What an accepted number of arguments comes to. -/
theorem length_allot (h : p.accepts args.length = true) :
    (p.allot args).required.length = p.required.length ∧
      (p.allot args).post.length = p.post.length ∧
      (p.hasRest = false → (p.allot args).rest = []) := by
  rw [accepts_iff, requiredCount] at h
  refine ⟨?_, ?_, fun hrest => ?_⟩
  · simp only [allot, List.length_take]
    omega
  · simp only [allot, requiredCount, List.length_drop]
    split <;> rename_i hrest
    · omega
    · have := h.2.resolve_left hrest
      omega
  · simp only [allot, hrest]
    rfl

/-- No argument is lost, is given twice or changes its place. -/
theorem append_allot (args : List Value) :
    (p.allot args).required ++ (p.allot args).given ++ (p.allot args).rest ++
      (p.allot args).post = args := by
  simp only [allot, List.append_assoc, List.take_append_drop, ← List.drop_drop]

/-! ### Reading the arguments in order -/

/-- The arguments from one position up to another, if both are in order and within them. -/
def slice? (args : List Value) (first last : Nat) : Option (List Value) :=
  if first ≤ last ∧ last ≤ args.length then some ((args.take last).drop first) else none

/-- Shares out arguments with a position that moves along them: nothing when an optional parameter
with a share has no argument there, or the rest is no slice of them. What a required parameter
finds no argument for is nil, wherever the position is. -/
def allotAlong (p : Params ε) (args : List Value) : Option Allotment := do
  let n := args.length
  let given := p.givenCount n
  let rest := n - (p.requiredCount + given)
  let values ← (List.range' p.required.length given).mapM fun i => args[i]?
  let start := p.required.length + given
  let last := if p.hasRest then min (start + rest) n else start
  let items ← if p.hasRest then slice? args (min start n) last else some []
  pure
    { required := args.take p.required.length
      given := values
      rest := items
      post := args.drop last }

/-- The elements at positions that are there, one after another. -/
theorem mapM_range'_getElem? {first count : Nat} (h : first + count ≤ args.length) :
    ((List.range' first count).mapM fun i => args[i]?) = some ((args.drop first).take count) := by
  induction count generalizing first with
  | zero => rfl
  | succ count ih =>
    have hfirst : first < args.length := by omega
    rw [List.range'_succ, List.mapM_cons, ih (by omega), List.getElem?_eq_getElem hfirst,
      List.drop_eq_getElem_cons hfirst, List.take_succ_cons]
    rfl

/-- A slice whose ends are brought back to the end of the arguments. -/
theorem slice?_min (args : List Value) (first count : Nat) :
    slice? args (min first args.length) (min (first + count) args.length) =
      some ((args.drop first).take count) := by
  have hdrop : args.drop (min first args.length) = args.drop first :=
    List.drop_eq_drop_iff.mpr (by omega)
  rw [slice?, if_pos (by omega), List.drop_take, hdrop]
  refine congrArg some (List.take_eq_take_iff.mpr ?_)
  rw [List.length_drop]
  omega

/-- Every read is within the arguments, and the shares are those of `allot`. -/
theorem allotAlong_eq (p : Params ε) (args : List Value) :
    p.allotAlong args = some (p.allot args) := by
  have hgiven : (List.range' p.required.length (p.givenCount args.length)).mapM
      (fun i => args[i]?) = some (p.allot args).given := by
    by_cases hshort : args.length ≤ p.requiredCount
    · have hnone : p.givenCount args.length = 0 := by simp only [givenCount]; omega
      rw [List.eq_nil_of_length_eq_zero (length_allot_given.trans hnone), hnone]
      rfl
    · refine mapM_range'_getElem? ?_
      simp only [givenCount, requiredCount] at hshort ⊢
      omega
  rw [allotAlong]
  simp only [hgiven]
  cases hrest : p.hasRest with
  | false => simp [allot, hrest, givenCount]
  | true =>
    simp only [if_true, slice?_min]
    simp [allot, hrest, givenCount, Nat.sub_add_eq, List.drop_eq_drop_iff]

end Params

end Garnet

/-!
## Binding parameters

What a call binds, and in which order: the required parameters and the first optional ones, then
the other optional ones to their defaults, then the rest, the parameters after it and the block. A
pattern takes an array apart as the store has it when the pattern is bound.
-/

namespace Garnet

namespace Store

variable {s : Store}

/-- The elements of an array, or the value alone. -/
def elements (s : Store) (v : Value) : List Value := (s.array? v).elim [v] Array.toList

/-- The store with a new array. -/
def addList (s : Store) (vs : List Value) : Store :=
  (s.alloc { cls := CoreClass.array.value, payload := .array vs.toArray }).2

/-- Binds variables in this very scope, one after another. -/
def bindAll (s : Store) (scope : ScopeId) (bs : List (String × Value)) : Store :=
  { s with scopes := bs.foldl (fun ss b => Scopes.declare ss scope b.1 b.2) s.scopes }

theorem bindAll_nil (scope : ScopeId) : s.bindAll scope [] = s := rfl

theorem bindAll_append (scope : ScopeId) (bs cs : List (String × Value)) :
    s.bindAll scope (bs ++ cs) = (s.bindAll scope bs).bindAll scope cs := by
  simp only [bindAll, List.foldl_append]

end Store

mutual

/-- The variables that a pattern binds to the parts of a value, in order. -/
def Pattern.bindings (elements : Value → List Value) : Pattern → Value → List (String × Value)
  | .name n, v => [(n, v)]
  | .nested ps, v => Pattern.bindingsAll elements ps (elements v)

/-- Patterns take values in order; what has no value takes nil. -/
def Pattern.bindingsAll (elements : Value → List Value) :
    List Pattern → List Value → List (String × Value)
  | [], _ => []
  | p :: ps, vs => p.bindings elements (vs.headD .nil) ++ Pattern.bindingsAll elements ps vs.tail

end

/-- Optional parameters are bound to their defaults, each where those before it are bound. -/
inductive Defaults (e : Engine) (scope : ScopeId) :
    List (String × Expr) → Store → Ending Unit → Prop
  | done {s : Store} : Defaults e scope [] s (.ok () s)
  | bound {n : String} {default : Expr} {ps : List (String × Expr)} {v : Value} {s t : Store}
    {out : Ending Unit} (h : e.perform (.eval default) s = .ok v t)
    (more : Defaults e scope ps (t.bindAll scope [(n, v)]) out) :
    Defaults e scope ((n, default) :: ps) s out
  | failed {n : String} {default : Expr} {ps : List (String × Expr)} {stop : Stop} {s t : Store}
    (h : e.perform (.eval default) s = .error stop t) :
    Defaults e scope ((n, default) :: ps) s (.error stop t)

namespace Params

variable {ε : Type}

/-- The arguments as they are shared out, where a lone array may be spread over parameters. -/
def spreadOut (p : Params ε) (s : Store) (args : List Value) (strict : Bool) : List Value :=
  if (!strict && p.spreads) && args.length == 1 then args.flatMap s.elements else args

theorem spreadOut_strict (p : Params ε) (s : Store) (args : List Value) :
    p.spreadOut s args true = args := by
  simp [spreadOut]

/-- What is bound before any default is evaluated. -/
def firstBindings (p : Params ε) (elements : Value → List Value) (a : Allotment) :
    List (String × Value) :=
  Pattern.bindingsAll elements p.required a.required ++ (p.optional.map (·.1)).zip a.given

/-- The store with the rest parameter bound: a new array, even where it has no name. -/
def bindRest (p : Params ε) (scope : ScopeId) (vs : List Value) (s : Store) : Store :=
  if p.hasRest then (s.addList vs).bindAll scope (p.rest.toList.map (·, ⟨s.objects.size⟩)) else s

/-- The store with what is bound after the defaults. -/
def bindLast (p : Params ε) (scope : ScopeId) (a : Allotment) (block : Option Value) (s : Store) :
    Store :=
  let s := p.bindRest scope a.rest s
  let s := s.bindAll scope (Pattern.bindingsAll s.elements p.post a.post)
  s.bindAll scope (p.block.toList.map (·, block.getD .nil))

/-- The message of the error about a wrong number of arguments. -/
def wrongNumber (p : Params ε) (given : Nat) : String :=
  let expected := p.expected
  s!"wrong number of arguments (given {given}, expected {expected})"

end Params

namespace Eval

variable {e : Engine} {s : Store} {scope : ScopeId} {p : Params Expr}

/-! ### Patterns -/

mutual

theorem bindPattern_run : ∀ (q : Pattern) (v : Value) (s : Store),
    (bindPattern scope q v).run e s = .ok () (s.bindAll scope (q.bindings s.elements v))
  | .name n, v, s => by
    rw [bindPattern, Pattern.bindings]
    rfl
  | .nested ps, v, s => by
    rw [bindPattern, Pattern.bindings, Act.run_bind, run_view, Ending.andThen_ok, Store.elements]
    cases s.array? v <;> exact bindPatterns_run ps _ s

/-- Patterns only declare variables, so that all of them see the same arrays. -/
theorem bindPatterns_run : ∀ (ps : List Pattern) (vs : List Value) (s : Store),
    (bindPatterns scope ps vs).run e s =
      .ok () (s.bindAll scope (Pattern.bindingsAll s.elements ps vs))
  | [], vs, s => by
    rw [bindPatterns, Pattern.bindingsAll]
    rfl
  | q :: ps, vs, s => by
    rw [bindPatterns, Pattern.bindingsAll, Act.run_bind, bindPattern_run q, Ending.andThen_ok,
      bindPatterns_run ps, Store.bindAll_append]
    rfl

end

/-! ### Optional parameters -/

theorem bindOptional_given {ps : List (String × Expr)} {vs : List Value}
    (h : vs.length ≤ ps.length) :
    (bindOptional scope ps vs).run e s =
      (bindOptional scope (ps.drop vs.length) []).run e
        (s.bindAll scope ((ps.map (·.1)).zip vs)) := by
  induction vs generalizing ps s with
  | nil => rw [List.zip_nil_right, List.length_nil, List.drop_zero, Store.bindAll_nil]
  | cons v vs ih =>
    match ps, h with
    | (n, default) :: ps, h =>
      rw [bindOptional, Act.run_bind]
      exact ih (Nat.le_of_succ_le_succ h)

theorem defaults_bindOptional (ps : List (String × Expr)) (s : Store) :
    Defaults e scope ps s ((bindOptional scope ps []).run e s) := by
  induction ps generalizing s with
  | nil => exact .done
  | cons q ps ih =>
    obtain ⟨n, default⟩ := q
    have hdefault : (perform (.eval default) : Eval Value).run e s = e.perform (.eval default) s :=
      run_perform _ _
    rw [bindOptional, Act.run_bind, hdefault]
    cases h : e.perform (.eval default) s with
    | ok v t => exact .bound h (ih _)
    | error stop t => exact .failed h

/-! ### All parameters -/

theorem spreadArgs_run (p : Params Expr) (args : List Value) (strict : Bool) :
    (spreadArgs p args strict).run e s = .ok (p.spreadOut s args strict) s := by
  match args with
  | [] => simp [spreadArgs, Params.spreadOut]
  | [v] =>
    rw [spreadArgs, Params.spreadOut]
    cases !strict && p.spreads with
    | false => rfl
    | true =>
      simp only [Bool.true_and, List.length_singleton, beq_self_eq_true, if_true, run_view,
        List.flatMap_singleton, Store.elements]
      cases s.array? v <;> rfl
  | _ :: _ :: _ => simp [spreadArgs, Params.spreadOut]

theorem bindRest_run (vs : List Value) :
    (bindRest scope p vs).run e s = .ok () (p.bindRest scope vs s) := by
  rw [bindRest, Params.bindRest]
  cases p.hasRest with
  | false => rfl
  | true => cases p.rest <;> rfl

theorem bindBlock_run (block : Option Value) :
    (bindBlock scope p block).run e s =
      .ok () (s.bindAll scope (p.block.toList.map (·, block.getD .nil))) := by
  rw [bindBlock]
  cases p.block <;> rfl

/-- A call that may not have this number of arguments only makes an exception. -/
theorem bindParams_refuses {args : List Value} (h : p.accepts args.length = false)
    (block : Option Value) :
    (bindParams p args block true).run e s =
      .error
        (.signal (.raise
          (s.newException CoreClass.argumentError.value (p.wrongNumber args.length)).1))
        (s.newException CoreClass.argumentError.value (p.wrongNumber args.length)).2 := by
  rw [bindParams, Act.run_bind, Act.run_liftM, spreadArgs_run, Ending.andThen_ok,
    Params.spreadOut_strict, h]
  rfl

/-- How the parameters of an allowed call are bound. -/
theorem bindParams_run {args vs : List Value} {strict : Bool}
    (hvs : p.spreadOut s args strict = vs) (h : strict = true → p.accepts vs.length = true)
    (block : Option Value) :
    (bindParams p args block strict).run e s =
      ((bindOptional s.scopeId (p.optional.drop (p.givenCount vs.length)) []).run e
        (s.bindAll s.scopeId (p.firstBindings s.elements (p.allot vs)))).andThen
          fun _ t => .ok () (p.bindLast s.scopeId (p.allot vs) block t) := by
  have hallowed : ¬(strict && !p.accepts vs.length) = true := by
    cases strict with
    | false => simp
    | true => simp [h rfl]
  have hgiven : (p.allot vs).given.length ≤ p.optional.length :=
    Params.length_allot_given ▸ Nat.min_le_right ..
  rw [bindParams, Act.run_bind, Act.run_liftM, spreadArgs_run, hvs, Ending.andThen_ok,
    if_neg hallowed]
  simp only [Act.run_bind, Act.run_liftM, run_view, Ending.andThen_ok, bindPatterns_run,
    bindOptional_given hgiven, Params.length_allot_given]
  rw [Params.firstBindings, Store.bindAll_append]
  refine congrArg _ (funext fun _ => funext fun t => ?_)
  simp only [Act.run_bind, Act.run_liftM, Ending.andThen_ok, bindRest_run, bindPatterns_run,
    bindBlock_run]
  rfl

/-- A call with a wrong number of arguments raises an error before anything is bound or evaluated.
With an accepted number every argument comes to one parameter, in order: the required parameters,
as many optional ones as there are arguments for, the rest and the parameters after it. The other
optional parameters are bound to their defaults from left to right. A call that is not strict shares
out its arguments in the same way, whatever their number, and all reads are within the arguments.
The arity tells what is accepted. -/
theorem bindParams_shares (p : Params Expr) (args : List Value) (block : Option Value) (s : Store) :
    (p.accepts args.length = false →
      ∃ exc t, (∀ e, (bindParams p args block true).run e s = .error (.signal (.raise exc)) t) ∧
        t.scopes = s.scopes ∧ (∀ v, v.index < s.objects.size → t.object v = s.object v) ∧
        t.classOf exc = CoreClass.argumentError.value ∧
        t.exceptionMessage exc = p.wrongNumber args.length) ∧
    (p.accepts args.length = true →
      (p.allot args).required.length = p.required.length ∧
      (p.allot args).given.length = min (args.length - p.requiredCount) p.optional.length ∧
      (p.hasRest = false → (p.allot args).rest = []) ∧
      (p.allot args).post.length = p.post.length ∧
      args = (p.allot args).required ++ (p.allot args).given ++ (p.allot args).rest ++
        (p.allot args).post) ∧
    (∀ (strict : Bool) (vs : List Value), vs = p.spreadOut s args strict →
      (strict = true → p.accepts args.length = true) →
      ∀ e, ∃ out,
        Defaults e s.scopeId (p.optional.drop (p.allot vs).given.length)
          (s.bindAll s.scopeId (p.firstBindings s.elements (p.allot vs))) out ∧
        (bindParams p args block strict).run e s =
          out.andThen fun _ t => .ok () (p.bindLast s.scopeId (p.allot vs) block t)) ∧
    (∀ vs : List Value, p.allotAlong vs = some (p.allot vs)) ∧
    (0 ≤ p.arity → ∀ n, p.accepts n = true ↔ (n : Int) = p.arity) ∧
    (p.arity < 0 → p.accepts (-p.arity - 1).toNat = true ∧ ∀ n, p.accepts n = true ↔
      -p.arity - 1 ≤ n ∧ (p.hasRest = true ∨ n ≤ p.requiredCount + p.optional.length)) := by
  refine ⟨fun h => ?_, fun h => ?_, ?_, p.allotAlong_eq, Params.accepts_iff_of_arity_nonneg,
    fun h => ⟨Params.accepts_least h, Params.accepts_iff_of_arity_neg h⟩⟩
  · refine ⟨_, _, fun e => bindParams_refuses h block, rfl, fun v hv => ?_,
      Store.classOf_newException .., Store.exceptionMessage_newException ..⟩
    exact (Store.object_alloc_of_lt _ _ (Nat.lt_trans hv (Store.size_alloc _))).trans
      (Store.object_alloc_of_lt _ _ hv)
  · obtain ⟨hrequired, hpost, hrest⟩ := Params.length_allot h
    exact ⟨hrequired, Params.length_allot_given, hrest, hpost, (Params.append_allot args).symm⟩
  · rintro strict vs rfl hstrict e
    refine ⟨_, defaults_bindOptional _ _, ?_⟩
    rw [Params.length_allot_given]
    refine bindParams_run rfl (fun h => ?_) block
    rw [h, Params.spreadOut_strict]
    exact hstrict h

/-- The parameters `a, b = nil, *c, d`. -/
def sampleParams : Params Expr :=
  { required := [.name "a"], optional := [("b", .nil)], rest := some "c", post := [.name "d"] }

/-- One argument is too few; of two arguments the optional and the rest parameter get none. -/
theorem bindParams_shares_sample :
    sampleParams.accepts 1 = false ∧ sampleParams.accepts 2 = true ∧ sampleParams.arity < 0 ∧
    (∃ exc t, (∀ e, (bindParams sampleParams [⟨4⟩] none true).run e (Store.start {} []) =
      .error (.signal (.raise exc)) t) ∧ t.scopes = (Store.start {} []).scopes) ∧
    (sampleParams.allot [⟨4⟩, ⟨5⟩]).post.length = 1 ∧
    ∀ e, ∃ out,
      Defaults e (Store.start {} []).scopeId [("b", .nil)]
        ((Store.start {} []).bindAll (Store.start {} []).scopeId [("a", ⟨4⟩)]) out ∧
      (bindParams sampleParams [⟨4⟩, ⟨5⟩] none true).run e (Store.start {} []) =
        out.andThen fun _ t => .ok ()
          (sampleParams.bindLast (Store.start {} []).scopeId ⟨[⟨4⟩], [], [], [⟨5⟩]⟩ none t) := by
  obtain ⟨hrefused, -⟩ := bindParams_shares sampleParams [⟨4⟩] none (Store.start {} [])
  obtain ⟨-, hlength, hbinds, -⟩ :=
    bindParams_shares sampleParams [⟨4⟩, ⟨5⟩] none (Store.start {} [])
  obtain ⟨exc, t, hrun, hscopes, -⟩ := hrefused rfl
  refine ⟨rfl, rfl, by decide, ⟨exc, t, hrun, hscopes⟩, (hlength rfl).2.2.2.1, fun e => ?_⟩
  exact hbinds true _ rfl (fun _ => rfl) e

end Eval

end Garnet
