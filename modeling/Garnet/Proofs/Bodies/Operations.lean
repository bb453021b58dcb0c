import Garnet.Library.Modules
import Garnet.Proofs.Bodies.Body
import Garnet.Proofs.Endings
import Garnet.Proofs.Lookup.Visibility

/-!
# Moves as operations make them

The operations that change methods in the body of a class do to its tables what the moves say. One
that fails raises an exception and leaves everything as the moves before it have it.
-/

namespace Garnet

namespace Body

variable (B : Body)

/-- What a row of moves makes of the tables of the body, and whether all of them succeed. -/
def after (d : Drafts) (moves : List Move) : Drafts × Bool :=
  runMoves (Move.step B.inherited) moves d

/-- A run ends as moves do: with a value after all of them, or else with an exception. -/
inductive Ends {α : Type} : Ending α → Drafts × Bool → Prop where
  | ok {a t d} (h : B.At t d) : Ends (.ok a t) (d, true)
  | raise {exc t d} (h : B.At t d) : Ends (.error (.signal (.raise exc)) t) (d, false)

variable {B} {e : Engine} {u : Store} {d : Drafts} {ℓ : Layer} {α β : Type}

theorem after_append (ms ms' : List Move) :
    B.after d (ms ++ ms') =
      if (B.after d ms).2 = true then B.after (B.after d ms).1 ms' else B.after d ms :=
  runMoves_append ms ms' d

theorem Ends.bind {x : Act ℓ β} {f : β → Act ℓ α} {ms ms' : List Move}
    (hx : B.Ends (x.run e u) (B.after d ms))
    (hf : ∀ a t, x.run e u = .ok a t → B.At t (B.after d ms).1 →
      B.Ends ((f a).run e t) (B.after (B.after d ms).1 ms')) :
    B.Ends ((x.bind f).run e u) (B.after d (ms ++ ms')) := by
  rw [after_append, Act.run]
  generalize x.run e u = out at hx hf
  generalize B.after d ms = r at hx hf
  cases hx with
  | ok h => exact hf _ _ rfl h
  | raise h => exact .raise h

/-- Something that makes no move and does not fail comes first. -/
theorem Ends.after_ok {x : Act ℓ β} {f : β → Act ℓ α} {a : β} {t : Store} {r : Drafts × Bool}
    (hx : x.run e u = .ok a t) (hf : B.Ends ((f a).run e t) r) :
    B.Ends ((x.bind f).run e u) r := by
  rw [Act.run, hx]
  exact hf

/-- Something that makes no move and does not fail comes last. -/
theorem Ends.before_ok {x : Act ℓ β} {f : β → Act ℓ α} {r : Drafts × Bool}
    (hx : B.Ends (x.run e u) r)
    (hf : ∀ a t d, B.At t d → B.Ends ((f a).run e t) (d, true)) :
    B.Ends ((x.bind f).run e u) r := by
  rw [Act.run]
  generalize x.run e u = out at hx
  cases hx with
  | ok h => exact hf _ _ _ h
  | raise h => exact .raise h

theorem Ends.forM {f : β → Act ℓ Unit} {moves : β → List Move} (xs : List β)
    (hf : ∀ x ∈ xs, ∀ t d, B.At t d → B.Ends ((f x).run e t) (B.after d (moves x)))
    (h : B.At u d) : B.Ends ((xs.forM f).run e u) (B.after d (xs.flatMap moves)) := by
  induction xs generalizing u d with
  | nil => exact .ok h
  | cons x xs ih =>
    rw [List.flatMap_cons]
    refine .bind (hf x List.mem_cons_self u d h) fun _ t _ ht => ?_
    exact ih (fun y hy => hf y (List.mem_cons_of_mem _ hy)) ht

namespace At

variable {name : String}

/-! ## Errors -/

theorem exception (h : B.At u d) (cls : Value) (message : String) :
    B.At (u.newException cls message).2 d :=
  (h.alloc ⟨rfl, rfl, rfl⟩).alloc ⟨rfl, rfl, rfl⟩

theorem fail (h : B.At u d) (c : CoreClass) (message : String) (hc : c ≠ .systemStackError) :
    B.Ends ((.fail c message hc : Act ℓ α).run e u) (d, false) :=
  .raise (h.exception _ _)

/-! ## Changes that moves stand for -/

theorem insert (h : B.At u d) (name : String) (m : MethodDef) (v : Visibility) :
    B.At (u.modifyTable (.instances B.target) (·.insert name m v))
      { d with instances := Function.update d.instances name (some (m, v)) } := by
  refine h.modifyInstances _ ?_
  rw [← h.instances]
  funext n
  rw [MethodTable.lookup_insert, Function.update_apply]

theorem insertOwn (h : B.At u d) (name : String) (m : MethodDef) (v : Visibility) :
    B.At (u.modifyTable (.own B.target) (·.insert name m v))
      { d with own := Function.update d.own name (some (m, v)) } := by
  refine h.modifyOwn _ ?_
  rw [← h.own]
  funext n
  rw [MethodTable.lookup_insert, Function.update_apply]

theorem erase (h : B.At u d) (name : String) :
    B.At (u.modifyTable (.instances B.target) (·.erase name))
      { d with instances := Function.update d.instances name none } := by
  refine h.modifyInstances _ ?_
  rw [← h.instances]
  funext n
  rw [MethodTable.lookup_erase, Function.update_apply]

/-! ## Reading the body -/

theorem bodyScope? (h : B.At u d) :
    (Eval.bodyScope? B.target).run e u = .ok (some B.scope) u := by
  simp only [Eval.bodyScope?, Eval.view, Act.run, h.scopeId_eq, h.kind_eq, h.self_eq,
    beq_self_eq_true, Bool.and_self, if_true]

theorem defaultVisibility (h : B.At u d) : Eval.defaultVisibility.run e u = .ok .pub u := by
  simp only [Eval.defaultVisibility, Eval.view, Act.run, h.home_eq, h.visibility_eq]

theorem visibilityFor (h : B.At u d) : (Eval.visibilityFor B.target).run e u = .ok .pub u := by
  simp only [Eval.visibilityFor, Eval.self, Eval.view, bind, Act.run, h.self_eq, beq_self_eq_true,
    if_true, h.defaultVisibility]

theorem undefinedMethod (h : B.At u d) :
    B.Ends ((Eval.undefinedMethod B.target name : Op α).run e u) (d, false) :=
  .after_ok rfl (h.fail _ _ _)

/-- A move that needs an instance method of some name. -/
theorem whenFound (h : B.At u d) {c : Change} {hc : c.allowed .library = true} {m : Move}
    {g : MethodDef × Visibility → Drafts}
    (hm : m.step B.inherited d = (u.findInstanceMethod? B.target name).map g)
    (hg : ∀ x, u.findInstanceMethod? B.target name = some x → B.At (c.apply u) (g x)) :
    B.Ends ((do
        if (← Eval.view (·.findInstanceMethod? B.target name)).isSome then Eval.update c hc
        else Eval.undefinedMethod B.target name : Op Unit).run e u) (B.after d [m]) := by
  rw [after, runMoves, hm]
  refine .after_ok rfl ?_
  dsimp only
  cases hf : u.findInstanceMethod? B.target name with
  | some x => exact .ok (hg x hf)
  | none => exact h.undefinedMethod

/-! ## Operations on one name -/

theorem defineInstanceMethod (h : B.At u d) (name : String) (m : MethodDef)
    (hm : ∀ v, (Change.define (.instances B.target) name m v).allowed .library = true) :
    B.Ends ((Eval.defineInstanceMethod B.target name m hm).run e u)
      (B.after d [.install name m]) :=
  .after_ok h.visibilityFor (.ok (h.insert name m .pub))

theorem aliasIn (h : B.At u d) (new old : String) :
    B.Ends ((Eval.aliasIn B.target new old).run e u) (B.after d [.aliasAs new old]) := by
  refine .after_ok h.bodyScope? (.after_ok rfl ?_)
  have hparked := h.pending?_map old
  cases hp : Scopes.pending? u.scopes B.scope old with
  | some p =>
    rw [hp, Option.map_some] at hparked
    have hsource : (p.method.renamed new).fromSource = true := h.pending?_fromSource hp
    simp only [Option.filter_some, hp, Option.isSome_some, if_true, after, runMoves, Move.step,
      ← hparked]
    simp only [Eval.update, Act.run, Change.apply, hp]
    exact .ok (h.park new (p := ⟨_, p.visibility⟩) hsource)
  | none =>
    rw [hp, Option.map_none] at hparked
    simp only [Option.filter_some, hp, Option.isSome_none, Bool.false_eq_true, if_false]
    refine h.whenFound (by rw [Move.step, ← hparked, ← h.findInstanceMethod?]) fun x hx => ?_
    rw [Change.apply, hx]
    exact h.insert new (x.1.renamed new) x.2

theorem setVisibilityOf (h : B.At u d) (v : Visibility) (name : String) :
    B.Ends ((Eval.setVisibilityOf B.target (some B.scope) v name).run e u)
      (B.after d [.setVisibility v name]) := by
  have hparked := h.pending?_map name
  rw [after, runMoves]
  cases hp : Scopes.pending? u.scopes B.scope name with
  | some p =>
    rw [hp, Option.map_some] at hparked
    simp only [Eval.setVisibilityOf, Eval.view, Eval.update, bind, Act.run, Option.filter_some, hp,
      Option.isSome_some, if_true, Change.apply, Scopes.setPendingVisibility, Move.step, ← hparked]
    exact .ok (h.park name (p := ⟨_, v⟩) (h.pending?_fromSource hp :))
  | none =>
    rw [hp, Option.map_none] at hparked
    have hbody : (some B.scope).filter
        (fun id => (Scopes.pending? u.scopes id name).isSome) = none := by
      rw [Option.filter_some, hp]
      rfl
    simp only [Move.step, ← hparked, ← h.findInstanceMethod?]
    cases hm : u.findInstanceMethod? B.target name with
    | some m =>
      obtain ⟨f, hrun, hf⟩ := Eval.setVisibilityOf_found (e := e) (v := v) hbody h.hasTable hm
      rw [hrun]
      refine .ok (h.modifyInstances f (funext fun n => ?_))
      rw [hf, ← h.instances, Function.update_apply]
    | none =>
      rw [Eval.setVisibilityOf_missing hbody h.hasTable hm]
      exact h.undefinedMethod

theorem setVisibility_names (h : B.At u d) (v : Visibility) (first : String) (rest : List String) :
    B.Ends ((Eval.setVisibility B.target v (first :: rest)).run e u)
      (B.after d ((first :: rest).map (.setVisibility v))) := by
  rw [List.map_eq_flatMap]
  exact .after_ok h.bodyScope? (.forM _ (fun n _ t d ht => ht.setVisibilityOf v n) h)

end At

end Body

/-! ## Names as arguments -/

theorem Eval.nameOf_run {e : Engine} {u : Store} {v : Value} {name : String}
    (hv : u.payload v = .symbol name ∨ u.payload v = .text name) :
    (nameOf v).run e u = .ok name u := by
  rcases hv with hv | hv <;> simp only [nameOf, payload, view, bind, Act.run, hv] <;> rfl

/-- Symbols, with their names. -/
def Store.Names (s : Store) : List Value → List String → Prop :=
  List.Forall₂ fun v name => s.payload v = .symbol name

namespace Store.Names

variable {e : Engine} {u t : Store} {args : List Value} {names : List String}

theorem mono (h : u.Names args names) (he : Edited u t) : t.Names args names :=
  h.imp fun _ _ hv => he.symbol hv

theorem mem_iff {name : String} (h : u.Names args names) :
    (∃ v ∈ args, u.payload v = .symbol name) ↔ name ∈ names := by
  induction h with
  | nil => simp only [List.not_mem_nil, false_and, exists_const]
  | @cons v n args names hv _ ih =>
    simp only [List.mem_cons, or_and_right, exists_or, exists_eq_left, ih, hv,
      Payload.symbol.injEq, eq_comm (a := n)]

theorem mapM_nameOf (h : u.Names args names) :
    (args.mapM Eval.nameOf).run e u = .ok names u := by
  induction h with
  | nil => rfl
  | cons hv _ ih =>
    rw [Act.run_mapM_cons]
    simp only [Act.run, Eval.nameOf_run (.inl hv), ih]

theorem givenNames (h : u.Names args names) :
    (Library.Modules.givenNames args).run e u = .ok names u := by
  have hread := mapM_nameOf (e := e) h
  cases h with
  | nil => exact hread
  | @cons v name args names hv hrest =>
    cases hrest with
    | nil =>
      have harray : u.array? v = none := by rw [array?, hv]
      simp only [Library.Modules.givenNames, Eval.toList, Eval.view, bind, Act.run, harray]
      exact hread
    | cons => exact hread

end Store.Names

namespace Body

variable {B : Body} {e : Engine} {u : Store} {d : Drafts} {args : List Value} {names : List String}
  (block : Option Value)

namespace At

/-! ## New objects -/

/-- A symbol, new or known already. -/
theorem newSymbol (h : B.At u d) (name : String) :
    ∃ v t, (Eval.newSymbol name).run e u = .ok v t ∧ B.At t d ∧ Edited u t ∧
      t.payload v = .symbol name := by
  obtain ⟨v, t, hrun, ht, he, hv⟩ := Eval.newSymbol_ok (e := e) h.symbols name
  refine ⟨v, t, hrun, ?_, he, hv⟩
  rcases ht with rfl | rfl
  · exact h
  · exact h.intern name

theorem newSymbol_ends (h : B.At u d) (name : String) :
    B.Ends ((Eval.newSymbol name).run e u) (d, true) := by
  obtain ⟨v, t, hrun, ht, _⟩ := h.newSymbol (e := e) name
  rw [hrun]
  exact .ok ht

theorem newSymbols (h : B.At u d) (names : List String) :
    B.Ends ((Eval.newSymbols names).run e u) (d, true) := by
  have hsymbols {u : Store} (h : B.At u d) :
      B.Ends ((names.mapM Eval.newSymbol).run e u) (d, true) := by
    induction names generalizing u with
    | nil => exact .ok h
    | cons name names ih =>
      obtain ⟨v, t, hrun, ht, _⟩ := h.newSymbol (e := e) name
      rw [Act.run_mapM_cons]
      exact .after_ok hrun (.before_ok (ih ht) fun _ _ _ ht => .ok ht)
  exact .before_ok (hsymbols h) fun vs t d ht => .ok (ht.alloc ⟨rfl, rfl, rfl⟩)

/-! ## Operations of the library -/

theorem defineReader (h : B.At u d) (name : String) :
    B.Ends ((Library.Modules.defineReader B.target name).run e u) (B.after d [.reader name]) :=
  h.defineInstanceMethod _ _ _

theorem defineWriter (h : B.At u d) (name : String) :
    B.Ends ((Library.Modules.defineWriter B.target name).run e u) (B.after d [.writer name]) :=
  h.defineInstanceMethod _ _ _

/-- What is defined for each of some names, whose symbols are then made. -/
theorem attributes (h : B.At u d) (hn : u.Names args names) {define : String → Op Unit}
    {moves : String → List Move} {made : List String → List String}
    (hdefine : ∀ n t d, B.At t d → B.Ends ((define n).run e t) (B.after d (moves n))) :
    B.Ends ((do
        let names ← args.mapM Eval.nameOf
        names.forM define
        Eval.newSymbols (made names) : Op Value).run e u) (B.after d (names.flatMap moves)) := by
  refine .after_ok hn.mapM_nameOf (.before_ok ?_ fun _ t d ht => ht.newSymbols _)
  exact .forM names (fun n _ => hdefine n) h

theorem attrReader (h : B.At u d) (hn : u.Names args names) :
    B.Ends ((Library.Modules.attrReader B.target args block).run e u)
      (B.after d (names.map .reader)) := by
  rw [List.map_eq_flatMap]
  exact h.attributes hn fun n _ _ ht => ht.defineReader n

theorem attrWriter (h : B.At u d) (hn : u.Names args names) :
    B.Ends ((Library.Modules.attrWriter B.target args block).run e u)
      (B.after d (names.map .writer)) := by
  rw [List.map_eq_flatMap]
  exact h.attributes hn fun n _ _ ht => ht.defineWriter n

theorem attrAccessor (h : B.At u d) (hn : u.Names args names) :
    B.Ends ((Library.Modules.attrAccessor B.target args block).run e u)
      (B.after d (names.flatMap fun n => [.reader n, .writer n])) :=
  h.attributes hn fun n _ _ ht => .bind (ht.defineReader n) fun _ _ _ ht => ht.defineWriter n

theorem changeVisibility (h : B.At u d) {first : String} (hn : u.Names args (first :: names))
    (v : Visibility) :
    B.Ends ((Library.Modules.changeVisibility v B.target args block).run e u)
      (B.after d ((first :: names).map (.setVisibility v))) := by
  refine .after_ok hn.givenNames (.before_ok (h.setVisibility_names v first names) ?_)
  intro _ t d ht
  cases hn with
  | cons _ hrest =>
    cases hrest with
    | nil => exact .ok ht
    | cons => exact .ok (ht.alloc ⟨rfl, rfl, rfl⟩)

theorem moduleFunction (h : B.At u d) (hn : u.Names args names) :
    B.Ends ((Library.Modules.moduleFunction B.target args block).run e u)
      (B.after d (names.map .copy)) := by
  rw [List.map_eq_flatMap]
  refine .after_ok hn.givenNames (.before_ok ?_ fun _ t d ht => .ok ht)
  refine .forM names (fun n _ t d ht => ?_) h
  refine ht.whenFound (by rw [Move.step, ← ht.findInstanceMethod?]) fun x hx => ?_
  rw [Change.apply, hx]
  exact ht.insertOwn n x.1 .pub

theorem aliasMethod (h : B.At u d) {new old : String} (hn : u.Names args [new, old]) :
    B.Ends ((Library.Modules.aliasMethod B.target args block).run e u)
      (B.after d [.aliasAs new old]) := by
  cases hn with
  | cons hnew hrest =>
    cases hrest with
    | cons hold hrest =>
      cases hrest
      refine .after_ok rfl (.after_ok (Eval.nameOf_run (.inl hnew))
        (.after_ok (Eval.nameOf_run (.inl hold))
          (.before_ok (h.aliasIn new old) fun _ t d ht => ht.newSymbol_ends new)))

theorem defineMethod (h : B.At u d) {name : String} (hn : u.Names args [name]) (p : Value) :
    B.Ends ((Library.Modules.defineMethod B.target args (some p)).run e u)
      (B.after d [.install name ⟨name, .proc p, true⟩]) := by
  cases hn with
  | cons hname hrest =>
    cases hrest
    exact .after_ok rfl (.after_ok (Eval.nameOf_run (.inl hname)) (.after_ok rfl
      (.before_ok (h.defineInstanceMethod _ _ _) fun _ t d ht => ht.newSymbol_ends name)))

/-- Each name is read when its turn comes; a change of a table does not change symbols. -/
theorem removeMethod (h : B.At u d) (hn : u.Names args names) :
    B.Ends ((Library.Modules.removeMethod B.target args block).run e u)
      (B.after d (names.map .remove)) := by
  refine .before_ok ?_ fun _ t d ht => .ok ht
  induction args generalizing names u d with
  | nil =>
    cases hn
    exact .ok h
  | cons a args ih =>
    cases hn with
    | @cons _ n _ names ha hrest =>
      have htable : (u.tableOf (.instances B.target)).contains n = (d.instances n).isSome := by
        rw [MethodTable.contains, h.instances]
      simp only [List.map_cons, List.forM, Eval.view, Eval.nameOf_run (.inl ha), htable, bind,
        Act.run, after, runMoves, Move.step]
      cases hname : d.instances n with
      | none => exact .raise (h.exception _ _)
      | some x => exact ih (h.erase n) (Store.Names.mono hrest (.change (ℓ := .library) _ rfl))

end At

end Body

end Garnet
