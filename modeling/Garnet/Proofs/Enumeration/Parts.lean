import Garnet.Library.Enumerable
import Garnet.Proofs.Enumeration.Walks

/-!
# Parts of operations that are alike

How operations read their arguments, what they do with lists of elements, and how they put elements
in order.
-/

namespace Garnet

open Eval Library

/-- A number as an integer of 64 bits. -/
def Store.asWord? (s : Store) (v : Value) : Option Int :=
  match s.payload v with
  | .integer i => if Number.isWord i then some i else none
  | .float x => some x.toInt64.toInt
  | _ => none

theorem asWord?_of_run {e : Engine} {s u : Store} {v : Value} {i : Int}
    (h : (needWord v).run e s = .ok i u) : s.asWord? v = some i := by
  rw [needWord, Act.run_bind, Eval.payload, run_view, Ending.andThen_ok] at h
  rw [Store.asWord?]
  cases hp : s.payload v with
  | integer j =>
    rw [hp] at h
    dsimp only at h ⊢
    split at h
    · rename_i hj
      cases h
      exact if_pos hj
    · cases h
  | float x =>
    rw [hp] at h
    cases h
    rfl
  | _ =>
    rw [hp] at h
    obtain ⟨_, _, -, h⟩ := Act.run_bind_ok h
    cases h

/-- What names something, such as a method. -/
def Store.nameOf? (s : Store) (v : Value) : Option String :=
  match s.payload v with
  | .symbol x | .text x => some x
  | _ => none

theorem nameOf?_of_run {e : Engine} {s u : Store} {v : Value} {name : String}
    (h : (nameOf v).run e s = .ok name u) : s.nameOf? v = some name := by
  rw [nameOf, Act.run_bind, Eval.payload, run_view, Ending.andThen_ok] at h
  rw [Store.nameOf?]
  cases hp : s.payload v with
  | symbol x =>
    rw [hp] at h
    cases h
    rfl
  | text x =>
    rw [hp] at h
    cases h
    rfl
  | _ =>
    rw [hp] at h
    obtain ⟨_, _, -, h⟩ := Act.run_bind_ok h
    cases h

namespace Comparison

variable {c : Comparison} {w w' : Pairing} {s s' t t' : Store} {whole strict : Prop} {m : Nat}
  {v v' : Value}

theorem Holds.blocks (h : c.Holds w s t) : Option.Rel c.Blocks c.block c.block' := by
  have hrel := h.block
  cases hb : c.block with
  | none =>
    rw [hb] at hrel
    generalize c.block' = y at hrel
    cases hrel
    exact .none
  | some b =>
    cases hb' : c.block' with
    | none =>
      rw [hb, hb'] at hrel
      cases hrel
    | some b' => exact .some ⟨hb, hb'⟩

/-! ## Runs that only read -/

/-- A run that ends with a value has changed nothing, and has asked for nothing in any case. -/
structure Reads {α : Type} (x : Op α) : Prop where
  store {e : Engine} {s u : Store} {a : α} (h : x.run e s = .ok a u) : u = s
  log {ρ : Type} (note : Request → Store → List ρ) (e : Engine) (s : Store) : x.log note e s = []

namespace Reads

variable {α β : Type} {x : Op α} {f : α → Op β}

protected theorem pure (a : α) : Reads (Pure.pure a : Op α) :=
  ⟨fun h => (by cases h; rfl), fun _ _ _ => rfl⟩

protected theorem view (f : Store → α) : Reads (Eval.view f : Op α) :=
  ⟨fun h => (by cases h; rfl), fun _ _ _ => rfl⟩

protected theorem fail (k : CoreClass) (message : String) (hk : k ≠ .systemStackError) :
    Reads (.fail k message hk : Op α) :=
  ⟨fun h => (by cases h), fun _ _ _ => rfl⟩

protected theorem bind (hx : Reads x) (hf : ∀ a, Reads (f a)) : Reads (x >>= f) where
  store {e s u b} h := by
    obtain ⟨a, t, hrun, hrun'⟩ := Act.run_bind_ok h
    exact ((hf a).store hrun').trans (hx.store hrun)
  log note e s := by
    rw [Act.log_bind, hx.log, funext fun a => funext ((hf a).log note e), Ending.after_nil]
    rfl

theorem noConversion (v : Value) (kind : String) : Reads (Eval.noConversion v kind : Op α) :=
  .bind (.bind (.view _) fun p => by cases p <;> first | exact .pure _ | exact .view _) fun _ =>
    .fail ..

theorem needWord (v : Value) : Reads (Eval.needWord v) :=
  .bind (.view _) fun p => by
    cases p with
    | integer i =>
      dsimp only
      split
      · exact .pure i
      · exact .fail ..
    | float x => exact .pure _
    | _ => exact noConversion v _

theorem nameOf (v : Value) : Reads (Eval.nameOf v) :=
  .bind (.view _) fun p => by
    cases p <;> first | exact .pure _ | exact .bind (.view _) fun _ => .fail ..

end Reads

namespace Alike

theorem typeLabel (hv : w v v') : c.Alike Pairing.Same w (Eval.typeLabel v) (Eval.typeLabel v') :=
  (payload hv).bind fun hw hp => by
    cases hp <;> first | exact pure rfl | exact className (hw _ _ hv)

theorem needWord (hv : w v v') : c.Alike Pairing.Same w (Eval.needWord v) (Eval.needWord v') := by
  have hno {w' : Pairing} (hw : w ≤ w') : c.Alike (Pairing.Same (α := Int)) w'
      (Eval.noConversion v "Integer") (Eval.noConversion v' "Integer") :=
    (typeLabel (hw _ _ hv)).bind fun _ hlabel => by
      cases hlabel
      exact .fail ..
  refine (payload hv).bind fun hw hp => ?_
  cases hp with
  | integer =>
    dsimp only
    split
    · exact .pure rfl
    · exact .fail ..
  | float => exact .pure rfl
  | _ => exact hno hw

theorem nameOf (hv : w v v') : c.Alike Pairing.Same w (Eval.nameOf v) (Eval.nameOf v') := by
  have hno {w' : Pairing} (hw : w ≤ w') : c.Alike (Pairing.Same (α := String)) w'
      (do
        let shown ← Eval.view fun s => (s.scalarText? v).getD (s.defaultText v)
        typeError s!"{shown} is not a symbol nor a string")
      (do
        let shown ← Eval.view fun s => (s.scalarText? v').getD (s.defaultText v')
        typeError s!"{shown} is not a symbol nor a string") := by
    have hshown : c.Alike Pairing.Same w'
        (Eval.view fun s => (s.scalarText? v).getD (s.defaultText v))
        (Eval.view fun s => (s.scalarText? v').getD (s.defaultText v')) := .view fun hs => by
      rw [Pairing.Same, hs.scalarText? (hw _ _ hv), hs.defaultText (hw _ _ hv)]
    exact hshown.bind fun _ heq => by
      cases heq
      exact .fail ..
  refine (payload hv).bind fun hw hp => ?_
  cases hp <;> first | exact .pure rfl | exact hno hw

end Alike

/-! ## Arguments

None of these changes a store, so that what comes after them starts from the same stores. -/

namespace AlikeAt

variable {α β γ δ : Type} {B : Pairing → γ → δ → Prop} {args args' : List Value}

theorem bind_fail {f : α → Op γ} {g : β → Op δ} (hm : c.level ≤ m) (h : c.Holds w s t)
    (k : CoreClass) (message : String) (hk : k ≠ .systemStackError) :
    c.AlikeAt strict B m w s t (.fail k message hk >>= f) (.fail k message hk >>= g) :=
  bind (A := fun _ _ _ => False) ((Alike.fail ..).at_ hm h) fun _ hfalse => hfalse.elim

/-- Nothing comes after a run that can not end with a value. -/
theorem failed {x : Op α} {y : Op β} {f : α → Op γ} {g : β → Op δ}
    (hx : c.AlikeAt strict (fun _ _ _ => False) m w s t x y) :
    c.AlikeAt strict B m w s t (x >>= f) (y >>= g) :=
  hx.bind fun _ hfalse => hfalse.elim

section Parse

variable (hm : c.level ≤ m) (h : c.Holds w s t)

include hm h

theorem needBlock {f : Value → Op γ} {g : Value → Op δ}
    (hf : ∀ {b b'}, c.Blocks b b' → c.AlikeAt strict B m w s t (f b) (g b')) :
    c.AlikeAt strict B m w s t (Eval.needBlock c.block >>= f) (Eval.needBlock c.block' >>= g) := by
  have hb := h.blocks
  revert hb
  generalize c.block = x, c.block' = y
  intro hb
  cases hb with
  | some hb => exact hf hb
  | none => exact bind_fail hm h ..

theorem oneArg {f : Value → Op γ} {g : Value → Op δ} (hargs : List.Forall₂ w args args')
    (hf : ∀ {a a'}, w a a' → args = [a] → args' = [a'] → c.AlikeAt strict B m w s t (f a) (g a')) :
    c.AlikeAt strict B m w s t (Eval.oneArg args >>= f) (Eval.oneArg args' >>= g) := by
  have hlength := hargs.length_eq
  cases hargs with
  | nil => exact bind_fail hm h ..
  | cons ha hrest =>
    cases hrest with
    | nil => exact hf ha rfl rfl
    | cons =>
      simp only [Eval.oneArg, ← hlength]
      exact bind_fail hm h ..

theorem atMostOneArg {f : Option Value → Op γ} {g : Option Value → Op δ}
    (hargs : List.Forall₂ w args args')
    (hf : ∀ {x x'}, Option.Rel w x x' → args = x.toList → args' = x'.toList →
      c.AlikeAt strict B m w s t (f x) (g x')) :
    c.AlikeAt strict B m w s t (Eval.atMostOneArg args >>= f) (Eval.atMostOneArg args' >>= g) := by
  have hlength := hargs.length_eq
  cases hargs with
  | nil => exact hf .none rfl rfl
  | cons ha hrest =>
    cases hrest with
    | nil => exact hf (.some ha) rfl rfl
    | cons =>
      simp only [Eval.atMostOneArg, ← hlength]
      exact bind_fail hm h ..

theorem checkArity {f : Unit → Op γ} {g : Unit → Op δ} {low high : Nat}
    (hargs : List.Forall₂ w args args') (hf : c.AlikeAt strict B m w s t (f ()) (g ())) :
    c.AlikeAt strict B m w s t (Eval.checkArity args low high >>= f)
      (Eval.checkArity args' low high >>= g) := by
  simp only [Eval.checkArity, ← hargs.length_eq]
  split
  · exact hf
  · exact bind_fail hm h ..

/-- After a run that gives the same on both sides and leaves the stores as they are. -/
theorem bind_same {x : Op α} {y : Op α} {f : α → Op γ} {g : α → Op δ}
    (hxy : c.Alike Pairing.Same w x y) (hx : Reads x) (hy : Reads y)
    (hf : ∀ a, y.run (.ofFuel c.fuel) t = .ok a t → c.AlikeAt strict B m w s t (f a) (g a)) :
    c.AlikeAt strict B m w s t (x >>= f) (y >>= g) := by
  have hout : c.AlikeAt strict Pairing.Same m w s t x y := hxy.at_ hm h
  unfold AlikeAt at hout ⊢
  rw [hx.log, hy.log] at hout
  rw [Act.run_bind, Act.run_bind, Act.log_bind, Act.log_bind, hx.log, hy.log]
  generalize hleft : x.run (.ofFuel m) s = left, hright : y.run (.ofFuel c.fuel) t = right at hout
  cases hout with
  | ok hstep hab hcalls =>
    cases hab
    obtain rfl := hx.store hleft
    obtain rfl := hy.store hright
    exact hf _ hright
  | error hstep hstop hcalls => exact .error hstep hstop .nil

end Parse

/-- What comes after a run and is alike in all stores that agree. -/
theorem andThen {x : Op α} {y : Op β} {A : Pairing → α → β → Prop} {f : α → Op γ} {g : β → Op δ}
    (hx : c.AlikeAt strict A m w s t x y) (hm : c.level ≤ m)
    (hf : ∀ {w' a b}, w ≤ w' → A w' a b → c.Alike B w' (f a) (g b)) :
    c.AlikeAt strict B m w s t (x >>= f) (y >>= g) :=
  hx.bind fun hstep hab => (hf hstep.le hab).at_ hm hstep.holds

theorem discard {x : Op α} {y : Op β} {A : Pairing → α → β → Prop}
    (hx : c.AlikeAt strict A m w s t x y) :
    c.AlikeAt strict (fun _ _ _ => True) m w s t (Functor.discard x) (Functor.discard y) :=
  hx.bind fun hstep _ => AlikeAt.pure hstep.holds trivial

end AlikeAt

/-! ## Lists -/

section Lists

variable {α β γ δ : Type} {A : Pairing → α → β → Prop} {B : Pairing → γ → δ → Prop}

theorem Alike.forM {f : α → Op Unit} {g : β → Op Unit} {xs : List α} {ys : List β}
    (hA : ∀ {w w' : Pairing}, w ≤ w' → ∀ {a b}, A w a b → A w' a b)
    (hf : ∀ {w' a b}, w ≤ w' → A w' a b → c.Alike (fun _ _ _ => True) w' (f a) (g b))
    (h : List.Forall₂ (A w) xs ys) : c.Alike (fun _ _ _ => True) w (xs.forM f) (ys.forM g) := by
  induction xs generalizing w ys with
  | nil =>
    cases h
    exact .pure trivial
  | cons x xs ih =>
    cases h with
    | cons hx hxs =>
      exact (hf le_rfl hx).bind fun hw _ => ih (fun hw' => hf (hw.trans hw'))
        (hxs.imp fun _ _ hab => hA hw hab)

theorem Alike.mapM {f : α → Op γ} {g : β → Op δ} {xs : List α} {ys : List β}
    (hA : ∀ {w w' : Pairing}, w ≤ w' → ∀ {a b}, A w a b → A w' a b)
    (hB : ∀ {w w' : Pairing}, w ≤ w' → ∀ {a b}, B w a b → B w' a b)
    (hf : ∀ {w' a b}, w ≤ w' → A w' a b → c.Alike B w' (f a) (g b))
    (h : List.Forall₂ (A w) xs ys) :
    c.Alike (fun w => List.Forall₂ (B w)) w (xs.mapM f) (ys.mapM g) := by
  -- the loop keeps the values that it has, the last one first
  have hloop {w' : Pairing} (hw : w ≤ w') {xs : List α} {ys : List β} {as : List γ} {bs : List δ}
      (h : List.Forall₂ (A w') xs ys) (has : List.Forall₂ (B w') as bs) :
      c.Alike (fun w => List.Forall₂ (B w)) w' (List.mapM.loop f xs as)
        (List.mapM.loop g ys bs) := by
    induction xs generalizing w' ys as bs with
    | nil =>
      cases h
      exact .pure (List.rel_reverse has)
    | cons x xs ih =>
      cases h with
      | cons hx hxs =>
        exact (hf hw hx).bind fun hw' hy => ih (hw.trans hw') (hxs.imp fun _ _ hab => hA hw' hab)
          (.cons hy (has.imp fun _ _ hab => hB hw' hab))
  exact hloop le_rfl h .nil

end Lists

/-! ## Sorting -/

section Sorting

variable {less less' : Value → Value → Op Bool} {order order' : Value → Value → Op Ordering}
  {xs xs' ys ys' out out' : List Value}

theorem Alike.mergeBy {n : Nat} (hless : ∀ {w' a a' b b'}, w ≤ w' → w' a a' → w' b b' →
      c.Alike Pairing.Same w' (less a b) (less' a' b'))
    (hx : List.Forall₂ w xs xs') (hy : List.Forall₂ w ys ys') (hout : List.Forall₂ w out out') :
    c.Alike (fun w => List.Forall₂ w) w (Eval.mergeBy less n xs ys out)
      (Eval.mergeBy less' n xs' ys' out') := by
  have hend {w' : Pairing} {xs xs' ys ys' out out' : List Value} (hx : List.Forall₂ w' xs xs')
      (hy : List.Forall₂ w' ys ys') (hout : List.Forall₂ w' out out') :
      List.Forall₂ w' (out.reverse ++ xs ++ ys) (out'.reverse ++ xs' ++ ys') :=
    List.rel_append (List.rel_append (List.rel_reverse hout) hx) hy
  induction n generalizing w xs xs' ys ys' out out' with
  | zero => exact .pure (List.rel_reverse hout)
  | succ n ih =>
    cases hx with
    | nil => exact .pure (hend .nil hy hout)
    | cons ha hx =>
      cases hy with
      | nil => exact .pure (hend (.cons ha hx) .nil hout)
      | cons hb hy =>
        refine (hless le_rfl hb ha).bind fun {_ r _} hw hr => ?_
        cases hr
        have hless {w'' : Pairing} {a a' b b' : Value} (hw' : _ ≤ w'') (ha : w'' a a')
            (hb : w'' b b') := hless (hw.trans hw') ha hb
        cases r with
        | true =>
          exact ih hless (.cons (hw _ _ ha) (hx.imp hw)) (hy.imp hw)
            (.cons (hw _ _ hb) (hout.imp hw))
        | false =>
          exact ih hless (hx.imp hw) (.cons (hw _ _ hb) (hy.imp hw))
            (.cons (hw _ _ ha) (hout.imp hw))

theorem Alike.sortBy {n : Nat} (hless : ∀ {w' a a' b b'}, w ≤ w' → w' a a' → w' b b' →
      c.Alike Pairing.Same w' (less a b) (less' a' b')) (hx : List.Forall₂ w xs xs') :
    c.Alike (fun w => List.Forall₂ w) w (Eval.sortBy less n xs) (Eval.sortBy less' n xs') := by
  induction n generalizing w xs xs' with
  | zero => exact .pure hx
  | succ n ih =>
    simp only [Eval.sortBy, ← hx.length_eq]
    split
    · exact .pure hx
    · refine (ih hless (List.forall₂_take _ hx)).bind fun hw hleft => ?_
      refine (ih (fun hw' => hless (hw.trans hw'))
        ((List.forall₂_drop _ hx).imp hw)).bind fun hw' hright => ?_
      exact .mergeBy (fun hw'' => hless ((hw.trans hw').trans hw'')) (hleft.imp hw') hright .nil

theorem Alike.extreme {want : Ordering} {best best' : Option Value}
    (horder : ∀ {w' a a' b b'}, w ≤ w' → w' a a' → w' b b' →
      c.Alike Pairing.Same w' (order a b) (order' a' b'))
    (hx : List.Forall₂ w xs xs') (hbest : Option.Rel w best best') :
    c.Alike (fun w => Option.Rel w) w (Enumerable.extreme order want xs best)
      (Enumerable.extreme order' want xs' best') := by
  induction xs generalizing w xs' best best' with
  | nil =>
    cases hx
    exact .pure hbest
  | cons x xs ih =>
    cases hx with
    | cons hx hxs =>
      cases hbest with
      | none =>
        have hrest := ih horder hxs (.some hx)
        exact hrest
      | some hb =>
        refine (horder le_rfl hx hb).bind fun {_ r _} hw hr => ?_
        cases hr
        refine ih (fun hw' => horder (hw.trans hw')) (hxs.imp hw) (.some ?_)
        split
        · exact hw _ _ hx
        · exact hw _ _ hb

/-! ### Orders -/

section Orders

variable (hc : c.Answers) {x x' y y' : Value} {block block' : Option Value}

include hc

theorem Answers.blockOrder {b b' : Value} (hb : c.Blocks b b') (hx : w x x') (hy : w y y') :
    c.Alike Pairing.Same w (Eval.blockOrder b x y) (Eval.blockOrder b' x' y') := by
  refine (hc.call hb (.cons hx (.cons hy .nil))).bind fun hw hr => ?_
  refine (Alike.word? hr).bind fun {_ n _} hw' hn => ?_
  cases hn
  cases n with
  | some n => exact .pure rfl
  | none =>
    have hle := hw.trans hw'
    refine (Alike.className (hle _ _ hx)).bind fun hw'' hkx => ?_
    refine (Alike.className (hw'' _ _ (hle _ _ hy))).bind fun _ hky => ?_
    cases hkx
    cases hky
    exact .fail ..

variable (hb : Option.Rel c.Blocks block block') (hname : c.sends "<=>")
  (hinspect : c.sends "inspect")

include hb hname hinspect

theorem Answers.orderBy (hx : w x x') (hy : w y y') :
    c.Alike Pairing.Same w (Eval.orderBy block x y) (Eval.orderBy block' x' y') := by
  cases hb with
  | some hb => exact hc.blockOrder hb hx hy
  | none => exact hc.order hname hinspect hx hy

theorem Answers.sorted (hx : List.Forall₂ w xs xs') :
    c.Alike (fun w => List.Forall₂ w) w (Eval.sorted xs block) (Eval.sorted xs' block') := by
  rw [Eval.sorted, Eval.sorted, ← hx.length_eq]
  refine .sortBy (fun _ ha hb' => ?_) hx
  refine (hc.orderBy hb hname hinspect ha hb').bind fun _ ho => ?_
  cases ho
  exact .pure rfl

end Orders

end Sorting

/-! ## Distinct values -/

/-- What comes of an element whose key is known. -/
def distinctKey (block : Option Value) (x : Value) (xs : List Value) (seen : Table) (key : Value) :
    Op (List Value) := do
  if (← tableGet? seen key).isSome then Eval.distinct block xs seen
  else
    let seen ← tableInsert seen key .nil
    let rest ← Eval.distinct block xs seen
    pure (x :: rest)

theorem Answers.distinct (hc : c.Answers) {block block' : Option Value} {xs xs' : List Value}
    {seen seen' : Table} (hb : Option.Rel c.Blocks block block') (hx : List.Forall₂ w xs xs')
    (hseen : List.Forall₂ w.Entry seen.pairs seen'.pairs) :
    c.Alike (fun w => List.Forall₂ w) w (Eval.distinct block xs seen)
      (Eval.distinct block' xs' seen') := by
  induction xs generalizing w xs' seen seen' with
  | nil =>
    cases hx
    exact .pure .nil
  | cons x xs ih =>
    cases hx with
    | @cons _ x' _ xs' hx hxs =>
      have hkey {w' : Pairing} {key key' : Value} (hw : w ≤ w') (hkey : w' key key') :
          c.Alike (fun w => List.Forall₂ w) w' (distinctKey block x xs seen key)
            (distinctKey block' x' xs' seen' key') := by
        have hseen := hseen.imp fun _ _ he => he.mono hw
        refine (Alike.tableGet? hseen hkey).bind fun {w'' _ _} hw' hfound => ?_
        have hle := hw.trans hw'
        have hseen := hseen.imp fun _ _ he => he.mono hw'
        cases hfound with
        | some => exact ih (hxs.imp hle) hseen
        | none =>
          refine .of_holds fun hs => ?_
          refine (Alike.tableInsert hseen (hw' _ _ hkey) hs.nil).bind fun hw'' hseen => ?_
          refine (ih (hxs.imp (hle.trans hw'')) hseen).bind fun hw₃ hrest => ?_
          exact .pure (.cons ((hle.trans hw'').trans hw₃ _ _ hx) hrest)
      cases hb with
      | some hb => exact (hc.callOne hb hx).bind hkey
      | none => exact (Alike.pure (A := id) hx).bind hkey

end Comparison

end Garnet
