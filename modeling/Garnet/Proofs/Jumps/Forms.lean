import Garnet.Proofs.Jumps.Fits

/-!
# The forms of expressions keep `next` in its place

An expression that is placed evaluates to an action that fits: its parts are placed where it
evaluates them, the methods that it finds are, a `next` of its own is inside of a loop or block, and
the globals of its targets are among those that may be assigned.
-/

namespace Garnet.Eval

variable {A : String → Prop} {b : Bool} {e : Expr}

theorem eval_placed (h : e.Placed A b) : (eval e).Placed A b := ⟨h, fun _ => trivial⟩

theorem evalOption_placed {e : Option Expr} (h : PlacedAll A b e.toList) :
    (evalOption e).Placed A b := by
  cases e with
  | none => trivial
  | some e => exact .map (eval_placed (h e List.mem_cons_self)) fun _ _ => trivial

/-! ## Lists of values -/

theorem evalItem_placed {item : Item Expr} (h : PlacedAll A b item.parts) :
    (evalItem item).Placed A b := by
  cases item with
  | plain e => exact .bind (eval_placed (placedAll_cons.mp h).1) fun _ _ => trivial
  | splat e => exact .bind (eval_placed (placedAll_cons.mp h).1) fun _ _ => .op _

theorem evalItems_placed {items : List (Item Expr)} (h : PlacedAll A b (items.flatMap Item.parts)) :
    (evalItems items).Placed A b := by
  induction items with
  | nil => trivial
  | cons item items ih =>
    rw [List.flatMap_cons, placedAll_append] at h
    cases item with
    | plain e =>
      refine .bind (eval_placed (placedAll_cons.mp h.1).1) fun _ _ => ?_
      exact .bind (ih h.2) fun _ _ => trivial
    | splat e =>
      refine .bind (eval_placed (placedAll_cons.mp h.1).1) fun _ _ => ?_
      refine .bind (.op _) fun _ _ => ?_
      exact .bind (ih h.2) fun _ _ => trivial

theorem renderPieces_placed {ps : List (Piece Expr)} (h : PlacedAll A b (ps.flatMap Piece.parts)) :
    (renderPieces ps).Placed A b := by
  induction ps with
  | nil => trivial
  | cons p ps ih =>
    rw [List.flatMap_cons, placedAll_append] at h
    cases p with
    | literal t => exact .bind (ih h.2) fun _ _ => trivial
    | hole e =>
      refine .bind (eval_placed (placedAll_cons.mp h.1).1) fun _ _ => ?_
      refine .bind (.op _) fun _ _ => ?_
      exact .bind (ih h.2) fun _ _ => trivial

theorem fillHash_placed {out : Value} {pairs : List (Expr × Expr)}
    (h : PlacedAll A b (pairs.flatMap fun p => [p.1, p.2])) : (fillHash out pairs).Placed A b := by
  induction pairs with
  | nil => exact trivial
  | cons p pairs ih =>
    rw [List.flatMap_cons, placedAll_append, placedAll_cons, placedAll_cons] at h
    refine .bind (eval_placed h.1.1) fun _ _ => ?_
    refine .bind (eval_placed h.1.2.1) fun _ _ => ?_
    exact .bind (.op _) fun _ _ => ih h.2

theorem evalHash_placed {pairs : List (Expr × Expr)}
    (h : PlacedAll A b (pairs.flatMap fun p => [p.1, p.2])) : (evalHash pairs).Placed A b :=
  .bind (.op _) fun _ _ => fillHash_placed h

/-! ## Constants -/

theorem readConst_placed {path : ConstPath Expr} {name : String} (h : PlacedAll A b path.parts) :
    (readConst path name).Placed A b := by
  cases path with
  | lexical | top => exact .op _
  | inside e => exact .bind (eval_placed (placedAll_cons.mp h).1) fun _ _ => .op _

theorem writeConst_placed {path : ConstPath Expr} {name : String} {v : Value}
    (h : PlacedAll A b path.parts) : (writeConst path name v).Placed A b := by
  cases path with
  | lexical | top => exact .op _
  | inside e => exact .bind (eval_placed (placedAll_cons.mp h).1) fun _ _ => .op _

theorem containerFor_placed {path : ConstPath Expr} (h : PlacedAll A b path.parts) :
    (containerFor path).Placed A b := by
  cases path with
  | lexical | top => trivial
  | inside e => exact .map (eval_placed (placedAll_cons.mp h).1) fun _ _ => trivial

/-! ## Messages -/

theorem invoke_placed {m : MethodDef} (h : m.body.Placed A) (holder : Holder) (recv : Value)
    (args : List Value) (block : Option Value) : (invoke m holder recv args block).Placed A b :=
  ⟨h, fun _ => trivial⟩

theorem scopeMethod?_fits (name : String) :
    (scopeMethod? name).Fits A b fun m => ∀ m' ∈ m, m'.body.Placed A :=
  fun _ hs _ hm => hs.findScopeMethod? hm

theorem ownMethodMissing?_fits (recv : Value) :
    (ownMethodMissing? recv).Fits A b fun r => ∀ r' ∈ r, r'.method.body.Placed A := by
  intro s hs r hr
  dsimp only at hr
  split at hr
  · split at hr
    · cases hr
    · cases hr
      exact hs.findMethod ‹_›
  · cases hr

theorem methodMissing_placed (recv : Value) (name : String) (args : List Value)
    (block : Option Value) (miss : Miss) :
    (methodMissing recv name args block miss).Placed A b := by
  refine .bind (.lift (ownMethodMissing?_fits recv)) fun r hr => ?_
  cases r with
  | some r => exact .bind (.op _) fun _ _ => invoke_placed (hr r rfl) _ _ _ _
  | none => exact .op _

/-- The message finds a method whose code is placed, or none. -/
theorem findMethod_fits (recv : Value) (name : String) (access : Access) :
    (view (·.findMethod recv name access) : Eval _).Fits A b
      fun r => ∀ r', r = .ok r' → r'.method.body.Placed A :=
  fun _ hs _ hr => hs.findMethod hr

theorem answer_placed (access : Access) (recv : Value) (name : String) (args : List Value)
    (block : Option Value) : (answer access recv name args block).Placed A b := by
  refine .bind (findMethod_fits recv name access) fun r hr => ?_
  cases r with
  | ok r => exact invoke_placed (hr r rfl) _ _ _ _
  | error miss => exact methodMissing_placed _ _ _ _ _

theorem answerBound_placed (recv : Value) (name : String) (args : List Value)
    (block : Option Value) : (answerBound recv name args block).Placed A b := by
  refine .bind (.lift (scopeMethod?_fits name)) fun m hm => ?_
  cases m with
  | some m => exact invoke_placed (hm m rfl) _ _ _ _
  | none => exact answer_placed _ _ _ _ _

theorem sendSelf_placed (name : String) (args : List Value) (block : Option Value) :
    (sendSelf name args block).Placed A b := by
  refine .bind (.op _) fun recv _ => .bind (.lift (scopeMethod?_fits name)) fun m hm => ?_
  cases m with
  | some m => exact invoke_placed (hm m rfl) _ _ _ _
  | none =>
    refine .bind (findMethod_fits recv name .all) fun r hr => ?_
    cases r with
    | ok r => exact invoke_placed (hr r rfl) _ _ _ _
    | error miss =>
      refine .bind (.op _) fun own _ => ?_
      split
      · exact methodMissing_placed _ _ _ _ _
      · split
        · exact .bind (.op _) fun _ _ => trivial
        · exact .op _

theorem callSuper_placed (args : Option (List Value)) (block : Option Value) :
    (callSuper args block).Placed A b := by
  refine .bind (.view _) fun frame _ => ?_
  split
  · trivial
  · split
    · trivial
    · rename_i name holder _
      have hfind : (view (·.findSuper? frame.self name holder) : Eval _).Fits A b
          fun r => ∀ r' ∈ r, r'.method.body.Placed A :=
        fun _ hs _ hr => hs.findSuper? hr
      refine .bind hfind fun r hr => ?_
      cases r with
      | some r => exact invoke_placed (hr r rfl) _ _ _ _
      | none => exact .bind (.op _) fun _ _ => trivial

/-! ## Calls -/

theorem newBlock_placed {l : BlockLiteral Expr} (h : PlacedParts A b l.parts) (lambda : Bool) :
    (newBlock l lambda).Placed A b := by
  obtain ⟨hbody, hparams⟩ := placedParts_cons.mp h
  have hparams := placedParts_map.mp hparams
  exact ⟨⟨hparams.mono fun _ => rfl, hbody⟩, fun _ _ => trivial⟩

theorem resolveBlock_placed {block : BlockArg Expr} (h : PlacedParts A b block.parts) :
    (resolveBlock block).Placed A b := by
  cases block with
  | none => trivial
  | literal l =>
    exact .map (newBlock_placed h false) fun _ _ => trivial
  | pass e =>
    refine .bind (eval_placed (placedParts_cons.mp h).1) fun v _ => ?_
    split
    · trivial
    · refine .bind (.view _) fun _ _ => ?_
      split
      · trivial
      · exact .map (.op _) fun _ _ => trivial
  | forward => exact .view _

theorem catchBlockBreak_placed {block : BlockArg Expr} {x : Eval Value} (h : x.Placed A b) :
    (catchBlockBreak block x).Placed A b := by
  cases block with
  | literal => exact ⟨h, fun _ => trivial⟩
  | _ => exact h

theorem evalSend_placed {recv : Option Expr} {args : List (Item Expr)} {block : BlockArg Expr}
    (hr : PlacedAll A b recv.toList) (ha : PlacedAll A b (args.flatMap Item.parts))
    (hb : PlacedParts A b block.parts) (name : String) (safe setter : Bool) :
    (evalSend recv name args block safe setter).Placed A b := by
  refine .bind (evalOption_placed hr) fun r _ => ?_
  split
  · trivial
  · refine .bind (evalItems_placed ha) fun argv _ => ?_
    refine .bind (resolveBlock_placed hb) fun bv _ => ?_
    refine .bind (P := fun _ => True) (catchBlockBreak_placed ?_) fun _ _ => trivial
    cases r with
    | some r => exact .op _
    | none => exact sendSelf_placed _ _ _

theorem evalSuper_placed {args : Option (List (Item Expr))} {block : BlockArg Expr}
    (ha : PlacedAll A b ((args.getD []).flatMap Item.parts)) (hb : PlacedParts A b block.parts) :
    (evalSuper args block).Placed A b := by
  have hcall (argv : Option (List Value)) :
      (resolveBlock block >>= fun v => catchBlockBreak block (callSuper argv v)).Placed A b :=
    .bind (resolveBlock_placed hb) fun _ _ => catchBlockBreak_placed (callSuper_placed _ _)
  cases args with
  | some items =>
    exact .bind (P := fun _ => True) (.map (evalItems_placed ha) fun _ _ => trivial)
      fun argv _ => hcall argv
  | none => exact .bind (P := fun _ => True) trivial fun argv _ => hcall argv

theorem evalIndex_placed {recv : Expr} {args : List (Item Expr)} (hr : recv.Placed A b)
    (ha : PlacedAll A b (args.flatMap Item.parts)) : (evalIndex recv args).Placed A b := by
  refine .bind (eval_placed hr) fun _ _ => ?_
  exact .bind (evalItems_placed ha) fun _ _ => .op _

theorem evalSetIndex_placed {recv : Expr} {args : List (Item Expr)} (hr : recv.Placed A b)
    (ha : PlacedAll A b (args.flatMap Item.parts)) : (evalSetIndex recv args).Placed A b := by
  refine .bind (eval_placed hr) fun _ _ => ?_
  refine .bind (evalItems_placed ha) fun _ _ => ?_
  exact .bind (.discard (.op _)) fun _ _ => trivial

/-! ## Assignment -/

theorem setGlobal_placed {name : String} (h : A name) (v : Value) :
    (setGlobal name v).Placed A b :=
  ⟨h, fun _ _ => trivial⟩

theorem store_placed {t : Target Expr} (h : t.Placed A b) (v : Value) :
    (perform (.store t v) : Eval Value).Placed A b :=
  ⟨h, fun _ => trivial⟩

theorem storeSlots_placed {slots : List (Slot (Target Expr))} (h : (Target.many slots).Placed A b)
    (values : List Value) (leading trailing i : Nat) :
    (storeSlots values leading trailing slots i).Placed A b := by
  induction slots generalizing i with
  | nil => trivial
  | cons slot slots ih =>
    cases slot with
    | one t =>
      obtain ⟨ht, h⟩ := Target.placed_many_one.mp h
      exact .bind (.discard (store_placed ht _)) fun _ _ => ih h _
    | rest t =>
      cases t with
      | some t =>
        obtain ⟨ht, h⟩ := Target.placed_many_rest.mp h
        refine .bind (.op _) fun _ _ => ?_
        exact .bind (.discard (store_placed ht _)) fun _ _ => ih h _
      | none => exact ih (Target.placed_many_rest_none.mp h) _

theorem storeIn_placed {t : Target Expr} (ht : t.Placed A b) (v : Value) :
    (storeIn t v).Placed A b := by
  obtain ⟨h, hg⟩ := ht
  cases t with
  | localVar | ivar | cvar => exact .op _
  | gvar n => exact setGlobal_placed (hg n List.mem_cons_self) v
  | const path name =>
    rw [Target.parts] at h
    exact .discard (writeConst_placed h)
  | «attribute» recv setter args safe =>
    rw [Target.parts, placedAll_append] at h
    have hset (r : Value) : Act.Placed A b (if safe && r.isNil then pure () else
        evalItems args >>= fun argv => discard (callMethod r setter (argv ++ [v]) none)) := by
      split
      · trivial
      · exact .bind (evalItems_placed h.2) fun _ _ => .discard (.op _)
    cases recv with
    | some e => exact .bind (eval_placed (placedAll_cons.mp h.1).1) fun r _ => hset r
    | none => exact .bind (.op _) fun r _ => hset r
  | index recv args =>
    rw [Target.parts, placedAll_cons] at h
    refine .bind (eval_placed h.1) fun _ _ => ?_
    refine .bind (evalItems_placed h.2) fun _ _ => ?_
    exact .discard (.op _)
  | many slots => exact .bind (.op _) fun _ _ => storeSlots_placed ⟨h, hg⟩ _ _ _ _

theorem bindPlace_placed {p : Place Expr} (h : PlacedAll A b p.parts) :
    (bindPlace p).Placed A b := by
  cases p with
  | «attribute» recv reader setter safe =>
    cases recv with
    | some e => exact .bind (eval_placed (placedAll_cons.mp h).1) fun _ _ => trivial
    | none => exact .bind (.op _) fun _ _ => trivial
  | index recv args =>
    obtain ⟨hr, ha⟩ := placedAll_cons.mp h
    refine .bind (eval_placed hr) fun _ _ => ?_
    exact .bind (evalItems_placed ha) fun _ _ => trivial
  | _ => trivial

theorem readPlace_placed {p : Place Expr} (h : PlacedAll A b p.parts) (bound : Bound) :
    (readPlace p bound).Placed A b := by
  cases p with
  | localVar | ivar | gvar | cvar => exact .op _
  | const path name => exact readConst_placed h
  | «attribute» =>
    cases bound with
    | «attribute» => exact .op _
    | _ => trivial
  | index =>
    cases bound with
    | index => exact .op _
    | _ => trivial

theorem orNil_placed {x : Eval Value} (h : x.Placed A b) : (orNil x).Placed A b := by
  refine .bind (P := fun _ => True) ⟨_, h, fun _ _ => trivial, fun _ => trivial⟩ fun r _ => ?_
  cases r with
  | ok | error => trivial

theorem readPlaceOrNil_placed {p : Place Expr} (h : PlacedAll A b p.parts) (bound : Bound) :
    (readPlaceOrNil p bound).Placed A b := by
  have hread := readPlace_placed h bound
  unfold readPlaceOrNil
  split
  · exact .view _
  · exact orNil_placed hread
  · exact orNil_placed hread
  · exact hread

theorem writePlace_placed {p : Place Expr} (h : PlacedAll A b p.parts) (hg : ∀ n ∈ p.globals, A n)
    (bound : Bound) (v : Value) : (writePlace p bound v).Placed A b := by
  cases p with
  | localVar | ivar | cvar => exact .op _
  | gvar n => exact setGlobal_placed (hg n List.mem_cons_self) v
  | const path name => exact .discard (writeConst_placed h)
  | «attribute» =>
    cases bound with
    | «attribute» => exact .discard (.op _)
    | _ => trivial
  | index =>
    cases bound with
    | index => exact .discard (.op _)
    | _ => trivial

theorem evalUpdate_placed {p : Place Expr} {value : Expr} (hp : PlacedAll A b p.parts)
    (hg : ∀ n ∈ p.globals, A n) (hv : value.Placed A b) (op : String) :
    (evalUpdate p op value).Placed A b := by
  refine .bind (bindPlace_placed hp) fun bound _ => ?_
  cases bound with
  | none => trivial
  | some bound =>
    refine .bind (readPlace_placed hp bound) fun _ _ => ?_
    refine .bind (eval_placed hv) fun _ _ => ?_
    refine .bind (.op _) fun _ _ => ?_
    exact .bind (writePlace_placed hp hg bound _) fun _ _ => trivial

theorem evalUpdateIf_placed {p : Place Expr} {value : Expr} (hp : PlacedAll A b p.parts)
    (hg : ∀ n ∈ p.globals, A n) (hv : value.Placed A b) (whenTrue : Bool) :
    (evalUpdateIf p whenTrue value).Placed A b := by
  refine .bind (bindPlace_placed hp) fun bound _ => ?_
  cases bound with
  | none => trivial
  | some bound =>
    refine .bind (readPlaceOrNil_placed hp bound) fun _ _ => ?_
    split
    · trivial
    · refine .bind (eval_placed hv) fun _ _ => ?_
      exact .bind (writePlace_placed hp hg bound _) fun _ _ => trivial

/-! ## Control flow -/

theorem evalSequence_placed {es : List Expr} (h : PlacedAll A b es) :
    (evalSequence es).Placed A b := by
  induction es with
  | nil => trivial
  | cons e es ih =>
    obtain ⟨he, hes⟩ := placedAll_cons.mp h
    cases es with
    | nil => exact eval_placed he
    | cons e' es => exact .bind (.discard (eval_placed he)) fun _ _ => ih hes

/-- A pass of a loop takes the `next` of its body. -/
theorem loopPass_placed {x : Eval Value} (h : x.Placed A true) (site : Nat) :
    (loopPass site x).Placed A b :=
  ⟨⟨.bind (.discard h) fun _ _ => trivial, fun _ => trivial⟩, fun _ => trivial⟩

theorem repeatFor_placed {ℓ : Layer} {α σ : Type} {step : σ → Act ℓ (σ ⊕ α)}
    (h : ∀ st, (step st).Placed A b) (n : Nat) (st : σ) : (repeatFor step n st).Placed A b := by
  induction n generalizing st with
  | zero => trivial
  | succ n ih =>
    refine .bind (h st) fun r _ => ?_
    cases r with
    | inl st => exact ih st
    | inr a => trivial

theorem loopOver_placed {test : Expr} (h : test.Placed A b) (negate skipTest : Bool) :
    (loopOver test negate skipTest).Placed A b := by
  unfold loopOver
  split
  · trivial
  · exact .bind (eval_placed h) fun _ _ => trivial

theorem loopRound_placed {test body : Expr} (ht : test.Placed A b) (hb : body.Placed A true)
    (negate : Bool) (site : Nat) (skipTest : Bool) :
    (loopRound test body negate site skipTest).Placed A b := by
  refine .bind (loopOver_placed ht negate skipTest) fun done _ => ?_
  split
  · trivial
  · refine .bind (loopPass_placed (eval_placed hb) site) fun r _ => ?_
    cases r with
    | some | none => trivial

theorem evalLoop_placed {test body : Expr} (ht : test.Placed A b) (hb : body.Placed A true)
    (negate post : Bool) (site : Nat) : (evalLoop test body negate post site).Placed A b := by
  refine .bind (P := fun _ => True) (fun _ => trivial) fun n _ => ?_
  exact repeatFor_placed (fun skip => loopRound_placed ht hb negate site skip) n post

theorem evalForEach_placed {target : Target Expr} {source body : Expr}
    (ht : target.Placed A b) (hs : source.Placed A b) (hb : body.Placed A true) (site : Nat) :
    (evalForEach target source body site).Placed A b := by
  refine .bind (eval_placed hs) fun iter _ => ?_
  refine .bind (P := fun _ => True) ⟨⟨ht.mono fun _ => rfl, hb⟩, fun _ _ => trivial⟩ fun _ _ => ?_
  exact ⟨.bind (.discard (.op _)) fun _ _ => trivial, fun _ => trivial⟩

theorem forStep_placed {target : Target Expr} {body : Expr} (ht : target.Placed A b)
    (hb : body.Placed A b) (p : Value) (scope : ScopeId) (args : List Value) :
    (forStep p target body scope args).Placed A b := by
  have hstep (v : Value) : Act.Placed A b (.within (.step p) scope (do
      discard (perform (.store target v))
      eval body) rfl : Eval Value) :=
    .bind (.discard (store_placed ht v)) fun _ _ => eval_placed hb
  unfold forStep
  split
  · exact .bind (P := fun _ => True) trivial fun v _ => hstep v
  · exact .bind (.op _) fun v _ => hstep v

theorem testItems_placed {items : List (Item Expr)} (h : PlacedAll A b (items.flatMap Item.parts))
    (subject : Option Value) : (testItems subject items).Placed A b := by
  induction items with
  | nil => trivial
  | cons item items ih =>
    rw [List.flatMap_cons, placedAll_append] at h
    refine .bind (evalItem_placed h.1) fun _ _ => ?_
    refine .bind (.op _) fun _ _ => ?_
    split
    · trivial
    · exact ih h.2

theorem evalArms_placed {arms : List (List (Item Expr) × Expr)} {otherwise : Expr}
    (ha : PlacedAll A b (arms.flatMap fun a => a.1.flatMap Item.parts ++ [a.2]))
    (ho : otherwise.Placed A b) (subject : Option Value) :
    (evalArms subject otherwise arms).Placed A b := by
  induction arms with
  | nil => exact eval_placed ho
  | cons arm arms ih =>
    simp only [List.flatMap_cons, placedAll_append, placedAll_cons] at ha
    refine .bind (testItems_placed ha.1.1 subject) fun _ _ => ?_
    split
    · exact eval_placed ha.1.2.1
    · exact ih ha.2

theorem clauseTakes_placed {c : Clause Expr} (h : PlacedAll A b c.parts) (exc : Value) :
    (clauseTakes c exc).Placed A b := by
  simp only [Clause.parts, placedAll_append] at h
  unfold clauseTakes
  split
  · exact .op _
  · rename_i items hitems
    rw [hitems] at h
    exact .bind (evalItems_placed h.1.1) fun _ _ => .op _

theorem runClauses_placed {clauses : List (Clause Expr)}
    (h : PlacedAll A b (clauses.flatMap Clause.parts))
    (hg : ∀ n ∈ clauses.flatMap Clause.globals, A n) (exc : Value) :
    (runClauses exc clauses).Placed A b := by
  induction clauses with
  | nil => trivial
  | cons c clauses ih =>
    rw [List.flatMap_cons, placedAll_append] at h
    rw [List.flatMap_cons, List.forall_mem_append, Clause.globals] at hg
    obtain ⟨hglobals, hgrest⟩ := hg
    refine .bind (clauseTakes_placed h.1 exc) fun _ _ => ?_
    simp only [Clause.parts, placedAll_append, placedAll_cons] at h
    obtain ⟨⟨⟨_, hbind⟩, hbody, _⟩, hrest⟩ := h
    split
    · cases hc : c.bind with
      | some t =>
        rw [hc] at hbind hglobals
        exact Act.Fits.bind (.discard (store_placed ⟨hbind, hglobals⟩ exc))
          fun _ _ => eval_placed hbody
      | none => exact eval_placed hbody
    · exact ih hrest hgrest

theorem evalRescue_placed {body : Expr} {clauses : List (Clause Expr)} {otherwise : Option Expr}
    (hb : body.Placed A b) (hc : PlacedAll A b (clauses.flatMap Clause.parts))
    (hg : ∀ n ∈ clauses.flatMap Clause.globals, A n) (ho : PlacedAll A b otherwise.toList) :
    (evalRescue body clauses otherwise).Placed A b := by
  refine .bind (P := fun _ => True) ⟨_, eval_placed hb, fun _ _ => trivial, fun _ => trivial⟩
    fun r _ => ?_
  cases r with
  | ok v =>
    cases otherwise with
    | some e => exact eval_placed (placedAll_cons.mp ho).1
    | none => trivial
  | error exc => exact runClauses_placed hc hg exc

/-! ## Definitions -/

theorem runBody_placed {body : Option Expr} (h : PlacedAll A false body.toList) (target : Value)
    (singleton : Bool) : (runBody target singleton body).Placed A b := by
  refine .bind (.view _) fun _ _ => .bind (.op _) fun _ _ => ⟨?_, trivial, fun _ _ => trivial⟩
  cases body with
  | some e => exact eval_placed ((placedAll_cons.mp h).1.mono nofun)
  | none => trivial

theorem openClass_placed {body : Option Expr} (h : PlacedAll A false body.toList)
    (container : Option Value) (name : String) (base : Option Value) :
    (openClass container name base body).Placed A b :=
  .bind (.op _) fun _ _ => .bind (P := fun _ => True) ⟨trivial, fun _ => trivial⟩ fun _ _ =>
    runBody_placed h _ _

theorem openModule_placed {body : Option Expr} (h : PlacedAll A false body.toList)
    (container : Option Value) (name : String) : (openModule container name body).Placed A b :=
  .bind (.op _) fun _ _ => .bind (P := fun _ => True) ⟨trivial, fun _ => trivial⟩ fun _ _ =>
    runBody_placed h _ _

theorem evalDefine_placed {params : Params Expr} {body : Expr} (hp : PlacedAll A false params.parts)
    (hb : body.Placed A false) (name : String) : (evalDefine name params body).Placed A b := by
  refine .bind (.view _) fun scope _ => .bind (.view _) fun kind _ => ?_
  have hdefine (c : Change) (h : c.allowed .language = true) (hc : c.Placed A) :
      (update c h >>= fun _ => liftM (newSymbol name) : Eval Value).Placed A b :=
    .bind (P := fun _ => True) ⟨hc, fun _ _ => trivial⟩ fun _ _ => .op _
  split
  · exact .bind (.op _) fun _ _ => hdefine _ _ ⟨hp, hb⟩
  · exact .bind (.op _) fun _ _ => hdefine _ _ ⟨hp, hb⟩
  · exact .bind (.view _) fun _ _ =>
      .bind (P := fun _ => True) (.bind (.op _) fun _ _ => ⟨⟨hp, hb⟩, fun _ _ => trivial⟩)
        fun _ _ => .op _

theorem evalDefineOn_placed {target : Expr} {params : Params Expr} {body : Expr}
    (ht : target.Placed A b) (hp : PlacedAll A false params.parts) (hb : body.Placed A false)
    (name : String) : (evalDefineOn target name params body).Placed A b := by
  refine .bind (eval_placed ht) fun _ _ => .bind (.view _) fun _ _ => ?_
  exact .bind (P := fun _ => True) ⟨⟨hp, hb⟩, fun _ _ => trivial⟩ fun _ _ => .op _

theorem evalAlias_placed {new old : Expr} (hn : new.Placed A b) (ho : old.Placed A b) :
    (evalAlias new old).Placed A b := by
  refine .bind (eval_placed hn) fun _ _ => .bind (eval_placed ho) fun _ _ => ?_
  refine .bind (.op _) fun _ _ => .bind (.op _) fun _ _ => ?_
  exact .bind (.op _) fun _ _ => trivial

/-! ## The table of forms -/

theorem evalExpr_placed (h : e.Placed A b) : (evalExpr e).Placed A b := by
  have hp := h.parts
  cases e <;>
    simp only [Expr.parts, placedParts_append, placedParts_cons, placedParts_map, placedAll_append,
      placedAll_cons, Nesting.context] at hp
  case nil | true | false | root => trivial
  case self | int | float | text | symbol | localVar | ivar | gvar | cvar | group => exact .op _
  case interpolated | interpolatedSymbol | regexp =>
    exact .bind (renderPieces_placed hp) fun _ _ => .op _
  case array => exact .bind (evalItems_placed hp) fun _ _ => .op _
  case hash => exact evalHash_placed hp
  case range =>
    refine .bind (eval_placed hp.1) fun _ _ => ?_
    exact .bind (eval_placed hp.2.1) fun _ _ => .op _
  case const => exact readConst_placed hp
  case setGvar n _ =>
    refine .bind (eval_placed hp.1) fun v _ => ?_
    exact .bind (setGlobal_placed (h.globals n List.mem_cons_self) v) fun _ _ => trivial
  case setLocal | setIvar | setCvar =>
    exact .bind (eval_placed hp.1) fun _ _ => .bind (.op _) fun _ _ => trivial
  case setConst => exact .bind (eval_placed hp.2.1) fun _ _ => writeConst_placed hp.1
  case setMany =>
    refine .bind (eval_placed hp.2.1) fun v _ => ?_
    exact .bind (.discard (store_placed ⟨hp.1, h.globals⟩ v)) fun _ _ => trivial
  case update => exact evalUpdate_placed hp.1 h.globals hp.2.1 _
  case updateIf => exact evalUpdateIf_placed hp.1 h.globals hp.2.1 _
  case sequence => exact evalSequence_placed hp
  case cond =>
    refine .bind (eval_placed hp.1) fun _ _ => ?_
    split
    · exact eval_placed hp.2.1
    · exact eval_placed hp.2.2.1
  case loop => exact evalLoop_placed hp.1 hp.2.1 _ _ _
  case forEach => exact evalForEach_placed ⟨hp.2.1, h.globals⟩ hp.2.2.1 hp.1 _
  case logic =>
    refine .bind (eval_placed hp.1) fun _ _ => ?_
    split
    · exact eval_placed hp.2.1
    · trivial
  case not => exact .bind (eval_placed hp.1) fun _ _ => .op _
  case select =>
    exact .bind (evalOption_placed hp.1.1) fun v _ => evalArms_placed hp.1.2 hp.2.1 v
  case next => exact .bind (eval_placed hp.1) fun _ _ => h.next
  case breakTo | returnWith => exact .bind (eval_placed hp.1) fun _ _ => trivial
  case rescue => exact evalRescue_placed hp.1.1.1 hp.1.2 h.globals hp.2
  case ensure => exact ⟨eval_placed hp.1, .discard (eval_placed hp.2.1)⟩
  case send => exact evalSend_placed hp.1.1 hp.1.2 hp.2 _ _ _
  case super => exact evalSuper_placed hp.1 hp.2
  case yield => exact .bind (evalItems_placed hp) fun _ _ => .op _
  case index => exact evalIndex_placed hp.1 hp.2
  case setIndex => exact evalSetIndex_placed hp.1 hp.2
  case splat => exact .bind (eval_placed hp.1) fun _ _ => .bind (.op _) fun _ _ => .op _
  case lambda => exact newBlock_placed hp true
  case define => exact evalDefine_placed hp.2 hp.1 _
  case defineOn => exact evalDefineOn_placed hp.1 hp.2.2 hp.2.1 _
  case openClass =>
    refine .bind (containerFor_placed hp.1.1) fun _ _ => ?_
    exact .bind (evalOption_placed hp.1.2) fun _ _ => openClass_placed hp.2 _ _ _
  case openModule => exact .bind (containerFor_placed hp.1) fun _ _ => openModule_placed hp.2 _ _
  case openSingleton => exact .bind (eval_placed hp.1) fun _ _ => runBody_placed hp.2 _ _
  case aliasMethod => exact evalAlias_placed hp.1 hp.2.1

end Garnet.Eval
