import Garnet.Proofs.Enumeration.Parts

/-!
# Enumerable over `each` and over an array
-/

namespace Garnet

open Eval Library

namespace Comparison

variable {c : Comparison} {w w' : Pairing} {s s' t t' : Store} {whole strict : Prop} {m : Nat}
  {v v' : Value}

/-! ## All elements -/

theorem gatherFrom_run {items : Array Value} {recv : Value} {e : Engine}
    (hitems : t.array? recv = some items) {i n : Nat} (hi : i ≤ items.size)
    (hn : items.size < i + n) :
    (walkFrom .gather recv n i { items := items.extract 0 i }).run e t = .ok { items := items } t ∧
    ∀ {ρ : Type} (note : Request → Store → List ρ),
      (walkFrom .gather recv n i { items := items.extract 0 i }).log note e t = [] := by
  induction n generalizing i with
  | zero => exact absurd hn (Nat.not_lt.mpr hi)
  | succ n ih =>
    rcases Nat.lt_or_eq_of_le hi with hlt | rfl
    · obtain ⟨hrun, hlog⟩ := walkFrom_step (v := .gather) (p := { items := items.extract 0 i })
        (n := n) (e := e) hitems (Array.getElem?_eq_getElem hlt)
      have hpush : (items.extract 0 i).push items[i] = items.extract 0 (i + 1) := by
        rw [Array.push_extract_getElem hlt, Nat.zero_min]
      have hvisit : (visitItem .gather { items := items.extract 0 i } items[i]).run e t =
          .ok ({ items := items.extract 0 (i + 1) }, false) t := by
        rw [← hpush]
        rfl
      obtain ⟨hrest, hrest'⟩ := ih (i := i + 1) hlt (by omega)
      refine ⟨?_, fun note => ?_⟩
      · rw [hrun, Act.run_bind, hvisit]
        exact hrest
      · rw [hlog, Act.log_bind, hvisit]
        exact hrest' note
    · obtain ⟨hrun, hlog⟩ := walkFrom_end (v := .gather)
        (p := { items := items.extract 0 items.size }) (n := n) (e := e) hitems
        (Array.getElem?_eq_none (Nat.le_refl _))
      rw [Array.extract_size] at hrun hlog ⊢
      exact ⟨hrun, hlog⟩

/-- What a run gives on both sides: values that stand for each other, or what was gone over. -/
def Returned (c : Comparison) (w : Pairing) (v v' : Value) : Prop :=
  w v v' ∨ v = c.source ∧ v' = c.array

/-- The elements of the array are enough for a walk that the arguments and the block determine. -/
def Enough (c : Comparison) (whole : Prop)
    (visit : Store → List Value → Option Value → Option Visit) (args : List Value) (t : Store) :
    Prop :=
  ∀ v, visit t args c.block' = some v → whole ∨ c.Decides v c.elements.toList {} t

section Methods

variable {args args' : List Value} (hc : c.Answers) (hm : c.level ≤ m) (h : c.Holds w s t)
  (hr : c.Ready whole m w s t) (hargs : List.Forall₂ w args args')

namespace AlikeAt

include hc hm h hr

omit hm in
theorem gather (hwhole : whole) :
    c.AlikeAt False (fun w xs ys => List.Forall₂ w xs.toList ys.toList) m w s t
      (Eval.gather c.source) (Eval.gather c.array) := by
  have hwalk := walk hc h hr .gather .empty (.inl hwhole)
  obtain ⟨hrun, hlog⟩ := walk_array (e := .ofFuel c.fuel) (v := .gather) (p := {}) h.array
  obtain ⟨hrun', hlog'⟩ := gatherFrom_run (e := .ofFuel c.fuel) (n := c.fuel) h.array
    (Nat.zero_le _) (by rw [Nat.zero_add]; exact hr.fuel)
  rw [Array.extract_zero] at hrun' hlog'
  have hfuel : (Engine.ofFuel c.fuel).fuel = c.fuel := rfl
  unfold AlikeAt at hwalk ⊢
  rw [hrun, hlog, hfuel, hrun', hlog'] at hwalk
  rw [Eval.gather, Eval.gather, Act.run_bind, Act.run_bind, Act.log_bind, Act.log_bind, run_view,
    run_view, Ending.andThen_ok, Ending.andThen_ok, Ending.after_ok, Ending.after_ok, h.source,
    h.array]
  simp only [Act.run_bind, Act.log_bind]
  generalize (Eval.walk .gather c.source {}).run _ _ = left,
    (Eval.walk .gather c.source {}).log _ _ _ = calls at hwalk
  cases hwalk with
  | ok hstep hp hcalls =>
    cases hcalls
    exact .ok hstep hp.items .nil

theorem keyed (hwhole : whole) : c.AlikeAt False (fun w => List.Forall₂ w) m w s t
    (Enumerable.keyed c.source c.block) (Enumerable.keyed c.array c.block') :=
  .needBlock hm h fun hb => (walk hc h hr (.keyed hb) .empty (.inl hwhole)).bind fun hstep hp =>
    .pure hstep.holds hp.items

end AlikeAt

/-! ## Objects made before a walk -/

/-- There are perhaps more objects, and nothing else has changed that a source could tell. -/
structure Enlarged (s s' : Store) : Prop extends DataStep s s' where
  kept {v : Value} (hv : v.index < s.objects.size) : s'.object v = s.object v
  nextStop : s'.nextStop = s.nextStop

namespace Enlarged

theorem refl (s : Store) : Enlarged s s := ⟨.refl s, fun _ => rfl, rfl⟩

theorem alloc {o : Object} (ho : o.payload.link? = none) : Enlarged s (s.alloc o).2 :=
  ⟨.alloc ho, Store.object_alloc_of_lt s o, rfl⟩

end Enlarged

theorem Ready.enlarged (hr : c.Ready whole m w s t) (hstep : c.Step True w s t w' s' t')
    (hs : Enlarged s s') : c.Ready whole m w' s' t' where
  fuel := hr.fuel
  fresh := hs.nextStop ▸ hr.fresh
  yields hstep' hdata hkept := hr.yields (hstep.trans hstep') (hs.toDataStep.trans hdata) fun hv =>
    (hkept (Nat.lt_of_lt_of_le hv hs.size_le)).trans (hs.kept hv)

/-- After a run that at most makes objects the source is as ready as before. -/
theorem AlikeAt.beforeWalk {α β γ δ : Type} {A : Pairing → α → β → Prop}
    {B : Pairing → γ → δ → Prop} {x : Op α} {y : Op β} {f : α → Op γ} {g : β → Op δ}
    (hm : c.level ≤ m) (h : c.Holds w s t) (hr : c.Ready whole m w s t) (hxy : c.Alike A w x y)
    (hx : ∀ {e a s'}, x.run e s = .ok a s' → Enlarged s s')
    (hf : ∀ {w' s' t' a b}, w ≤ w' → c.Holds w' s' t' → c.Ready whole m w' s' t' → A w' a b →
      c.AlikeAt strict B m w' s' t' (f a) (g b)) :
    c.AlikeAt strict B m w s t (x >>= f) (y >>= g) := by
  have hout := hxy hm h
  unfold AlikeAt at hout ⊢
  rw [Act.run_bind, Act.run_bind, Act.log_bind, Act.log_bind]
  generalize hleft : x.run (.ofFuel m) s = left, y.run (.ofFuel c.fuel) t = right at hout
  cases hout with
  | ok hstep hab hcalls =>
    exact (hf hstep.le hstep.holds (hr.enlarged hstep (hx hleft)) hab).after hstep.weaken hcalls
  | error hstep hstop hcalls =>
    simp only [Ending.andThen_error, Ending.after_error, List.append_nil]
    exact .error hstep.weaken hstop hcalls

theorem newHash_enlarged {e : Engine} {v : Value} (h : newHash.run e s = .ok v s') :
    Enlarged s s' := by
  cases h
  exact .alloc rfl

theorem newInt_enlarged {e : Engine} {i : Int} {v : Value} (h : (newInt i).run e s = .ok v s') :
    Enlarged s s' := by
  cases hi : s.config.interns i with
  | true =>
    cases (Store.newInt_run_interned hi e).symm.trans h
    exact .refl s
  | false =>
    cases (Store.newInt_run_fresh hi e).symm.trans h
    exact .alloc rfl

/-! ## The operations one by one -/

theorem rebuild_alike (hu : c.unhashed) {xs ys : Array Value}
    (hxs : List.Forall₂ w xs.toList ys.toList) :
    c.Alike id w (Enumerable.rebuild c.source xs) (Enumerable.rebuild c.array ys) := by
  have hhash : c.Alike (fun _ x y => x = none ∧ y = none) w (Eval.view (·.hash? c.source))
      (Eval.view (·.hash? c.array)) := .view fun {s t} hs => by
    refine ⟨hs.hash hu, ?_⟩
    have harray := hs.array
    rw [Store.array?] at harray
    rw [Store.hash?]
    generalize t.payload c.array = p at harray
    cases p <;> first | rfl | cases harray
  refine hhash.bind fun {_ x y} hw hnone => ?_
  obtain ⟨rfl, rfl⟩ := hnone
  exact .newArray (hxs.imp hw)

include hc hm h hr

theorem map_alike (hwhole : whole) : c.AlikeAt False id m w s t
    (Enumerable.map c.source args c.block) (Enumerable.map c.array args' c.block') := by
  have hb := h.blocks
  revert hb
  generalize c.block = x, c.block' = y
  intro hb
  cases hb with
  | some hb =>
    exact (AlikeAt.walk hc h hr (.map hb) .empty (.inl hwhole)).andThen hm fun _ hp =>
      .newArray hp.items
  | none => exact (AlikeAt.gather hc h hr hwhole).andThen hm fun _ hxs => .newArray hxs

theorem flatMap_alike (hwhole : whole) : c.AlikeAt False id m w s t
    (Enumerable.flatMap c.source args c.block) (Enumerable.flatMap c.array args' c.block') :=
  .needBlock hm h fun hb => (AlikeAt.walk hc h hr (.flatMap hb) .empty (.inl hwhole)).andThen hm
    fun _ hp => .newArray hp.items

theorem filterBy_alike (hwhole : whole) (hu : c.unhashed) {keep : Bool} :
    c.AlikeAt False id m w s t (Enumerable.filterBy keep c.source args c.block)
      (Enumerable.filterBy keep c.array args' c.block') :=
  .needBlock hm h fun hb => (AlikeAt.walk hc h hr (.filter hb) .empty (.inl hwhole)).andThen hm
    fun _ hp => rebuild_alike hu hp.items

theorem filterMap_alike (hwhole : whole) : c.AlikeAt False id m w s t
    (Enumerable.filterMap c.source args c.block) (Enumerable.filterMap c.array args' c.block') :=
  .needBlock hm h fun hb => (AlikeAt.walk hc h hr (.filterMap hb) .empty (.inl hwhole)).andThen hm
    fun _ hp => .newArray hp.items

theorem eachWithIndex_alike (hwhole : whole) : c.AlikeAt False c.Returned m w s t
    (Enumerable.eachWithIndex c.source args c.block)
    (Enumerable.eachWithIndex c.array args' c.block') :=
  .needBlock hm h fun hb =>
    (AlikeAt.walk hc h hr (.withIndex hb) .empty (.inl hwhole)).discard.andThen hm
      fun _ _ => .pure (.inr ⟨rfl, rfl⟩)

theorem eachEntry_alike (hwhole : whole) : c.AlikeAt False c.Returned m w s t
    (Enumerable.eachEntry c.source args c.block) (Enumerable.eachEntry c.array args' c.block') :=
  .needBlock hm h fun hb => (AlikeAt.walk hc h hr (.each hb) .empty (.inl hwhole)).discard.andThen
    hm fun _ _ => .pure (.inr ⟨rfl, rfl⟩)

theorem partition_alike (hwhole : whole) : c.AlikeAt False id m w s t
    (Enumerable.partition c.source args c.block) (Enumerable.partition c.array args' c.block') :=
  .needBlock hm h fun hb => (AlikeAt.walk hc h hr (.partition hb) .empty (.inl hwhole)).andThen hm
    fun _ hp => (Alike.newArray hp.items).bind fun hw hyes =>
      (Alike.newArray (hp.others.imp hw)).bind fun hw' hno =>
        .newList (.cons (hw' _ _ hyes) (.cons hno .nil))

theorem toArray_alike (hwhole : whole) : c.AlikeAt False id m w s t
    (Enumerable.toArray c.source args c.block) (Enumerable.toArray c.array args' c.block') :=
  (AlikeAt.gather hc h hr hwhole).andThen hm fun _ hxs => .newArray hxs

theorem eachWithObject_alike (hwhole : whole) (hargs : List.Forall₂ w args args') :
    c.AlikeAt False id m w s t (Enumerable.eachWithObject c.source args c.block)
      (Enumerable.eachWithObject c.array args' c.block') :=
  .oneArg hm h hargs fun hmemo _ _ => .needBlock hm h fun hb => 
    ((AlikeAt.walk hc h hr (.withObject hb hmemo) .empty (.inl hwhole)).discard.bind
      fun hstep _ => AlikeAt.pure hstep.holds (hstep.le _ _ hmemo))

omit hc hm h hr in
/-- With a block, the receiver is what slicing gives. -/
theorem chunksReturned_alike {p q : Progress} (hb : Option.Rel c.Blocks c.block c.block')
    (hp : p.Like w q) : c.Alike c.Returned w
      (match c.block with
        | some _ => pure c.source
        | none => newArray p.others)
      (match c.block' with
        | some _ => pure c.array
        | none => newArray q.others) := by
  revert hb
  generalize c.block = x, c.block' = y
  intro hb
  cases hb with
  | some => exact .pure (.inr ⟨rfl, rfl⟩)
  | none => exact (Alike.newArray hp.others).imp fun _ _ _ => .inl

theorem chunked_alike (hwhole : whole) {overlapping : Bool} (hargs : List.Forall₂ w args args') :
    c.AlikeAt False c.Returned m w s t (Enumerable.chunked overlapping c.source args c.block)
      (Enumerable.chunked overlapping c.array args' c.block') := by
  refine .oneArg hm h hargs fun hx _ _ => ?_
  refine .bind_same hm h (.needWord hx) (.needWord _) (.needWord _) fun n _ => ?_
  split
  · exact (Alike.fail ..).at_ hm h
  · refine (AlikeAt.walk hc h hr (.chunks h.blocks) .empty (.inl hwhole)).andThen hm
      fun {w' p q} _ hp => ?_
    have hempty : q.items.isEmpty = p.items.isEmpty := by
      simp only [Array.isEmpty, ← Array.length_toList, hp.items.length_eq]
    dsimp only
    rw [hempty]
    by_cases hlast : (!overlapping && !p.items.isEmpty) = true
    · rw [if_pos hlast, if_pos hlast]
      exact (hc.emitChunk h.blocks hp hp.items).bind fun _ hp =>
        chunksReturned_alike h.blocks hp
    · rw [if_neg hlast, if_neg hlast]
      exact chunksReturned_alike h.blocks hp

/-! ### Folds -/

/-- The message that `inject` sends. -/
def foldOperator? (s : Store) : List Value → Option Value → Option String
  | [name], none | [_, name], _ => s.nameOf? name
  | _, _ => none

theorem inject_alike (hwhole : whole) (hargs : List.Forall₂ w args args')
    (hsends : ∀ name, foldOperator? t args' c.block' = some name → c.sends name) :
    c.AlikeAt False id m w s t (Enumerable.inject c.source args c.block)
      (Enumerable.inject c.array args' c.block') := by
  have hfold {acc acc' : Option Value} {op : Option String} (hacc : Option.Rel w acc acc')
      (hop : ∀ name, op = some name → c.sends name) :
      c.AlikeAt False id m w s t
        (do
          let p ← walk (.fold op c.block) c.source { held := acc }
          pure (p.held.getD .nil))
        (do
          let p ← walk (.fold op c.block') c.array { held := acc' }
          pure (p.held.getD .nil)) :=
    (AlikeAt.walk hc h hr (.fold hop h.blocks) (.holding hacc) (.inl hwhole)).andThen hm fun _ hp =>
      .of_holds fun hs => .pure (hs.getD_nil hp.held)
  refine .checkArity hm h hargs ?_
  cases hargs with
  | nil => exact hfold .none fun _ hop => nomatch hop
  | cons hx hrest =>
    cases hrest with
    | nil =>
      have hb := h.blocks
      revert hfold hsends hb
      generalize c.block = x, c.block' = y
      intro hfold hsends hb
      cases hb with
      | none =>
        refine .bind_same hm h (.nameOf hx) (.nameOf _) (.nameOf _) fun name hname => ?_
        exact hfold .none fun op hop => hsends _ (hop ▸ nameOf?_of_run hname)
      | some => exact hfold (.some hx) fun _ hop => nomatch hop
    | cons hx' hrest =>
      cases hrest with
      | nil =>
        refine .bind_same hm h (.nameOf hx') (.nameOf _) (.nameOf _) fun name hname => ?_
        exact hfold (.some hx) fun op hop => hsends _ (hop ▸ nameOf?_of_run hname)
      | cons => exact hfold .none fun _ hop => nomatch hop

theorem sum_alike (hwhole : whole) (hargs : List.Forall₂ w args args') (hsends : c.sends "+") :
    c.AlikeAt False id m w s t (Enumerable.sum c.source args c.block)
      (Enumerable.sum c.array args' c.block') := by
  refine .atMostOneArg hm h hargs fun hx _ _ => ?_
  have hsum {w' : Pairing} {s' t' : Store} {acc acc' : Value} (h : c.Holds w' s' t')
      (hr : c.Ready whole m w' s' t') (hacc : w' acc acc') :
      c.AlikeAt False id m w' s' t'
        (do
          let p ← walk (.sum c.block) c.source { held := some acc }
          pure (p.held.getD .nil))
        (do
          let p ← walk (.sum c.block') c.array { held := some acc' }
          pure (p.held.getD .nil)) :=
    (AlikeAt.walk hc h hr (.sum hsends h.blocks) (.holding (.some hacc)) (.inl hwhole)).andThen hm
      fun _ hp => .of_holds fun hs => .pure (hs.getD_nil hp.held)
  cases hx with
  | some hx => exact hsum h hr hx
  | none =>
    exact .beforeWalk hm h hr (.newInt 0) newInt_enlarged fun _ h hr hacc => hsum h hr hacc

/-- What `count` asks of each element. -/
def countTest? (target block : Option Value) : Option Test :=
  match target, block with
  | some target, _ => some (.equals target)
  | none, some b => some (.block b)
  | none, none => none

theorem count_alike (hwhole : whole) (hargs : List.Forall₂ w args args') (hsends : c.sends "==") :
    c.AlikeAt False id m w s t (Enumerable.count c.source args c.block)
      (Enumerable.count c.array args' c.block') := by
  refine .atMostOneArg hm h hargs fun {x x'} hx _ _ => ?_
  have htest : Option.Rel (Test.Like c w) (countTest? x c.block) (countTest? x' c.block') := by
    cases hx with
    | some hx => exact .some (.equals hsends hx)
    | none =>
      have hb := h.blocks
      revert hb
      generalize c.block = y, c.block' = y'
      intro hb
      cases hb with
      | some hb => exact .some (.block hb)
      | none => exact .none
  exact (AlikeAt.walk hc h hr (.count htest) .empty (.inl hwhole)).andThen hm fun {_ p q} _ hp => by
    rw [hp.count]
    exact .newNat p.count

/-! ### Orders -/

section Orders

variable (hname : c.sends "<=>") (hinspect : c.sends "inspect")

include hname hinspect

theorem sort_alike (hwhole : whole) : c.AlikeAt False id m w s t
    (Enumerable.sort c.source args c.block) (Enumerable.sort c.array args' c.block') :=
  (AlikeAt.gather hc h hr hwhole).andThen hm fun _ hxs =>
    (hc.sorted h.blocks hname hinspect hxs).bind fun _ hout => .newList hout

theorem minMax_alike (hwhole : whole) (hargs : List.Forall₂ w args args') {want : Ordering} :
    c.AlikeAt False id m w s t (Enumerable.minMax want c.source args c.block)
      (Enumerable.minMax want c.array args' c.block') := by
  refine .atMostOneArg hm h hargs fun hx _ _ => ?_
  refine (AlikeAt.gather hc h hr hwhole).andThen hm fun hw hxs => ?_
  cases hx with
  | none =>
    refine (Alike.extreme (fun _ ha hb => hc.orderBy h.blocks hname hinspect ha hb) hxs .none).bind
      fun _ hbest => .of_holds fun hs => .pure (hs.getD_nil hbest)
  | some hx =>
    refine (Alike.needWord (hw _ _ hx)).bind fun {_ n _} hw' hn => ?_
    cases hn
    refine (hc.sorted h.blocks hname hinspect (hxs.imp hw')).bind fun _ hout => ?_
    refine .newList (List.forall₂_take _ ?_)
    split
    · exact List.rel_reverse hout
    · exact hout

theorem minmax_alike (hwhole : whole) : c.AlikeAt False id m w s t
    (Enumerable.minmax c.source args c.block) (Enumerable.minmax c.array args' c.block') := by
  have hextreme {w' : Pairing} {xs ys : List Value} {want : Ordering}
      (hxs : List.Forall₂ w' xs ys) :
      c.Alike (fun w => Option.Rel w) w' (Enumerable.extreme (orderBy c.block) want xs none)
        (Enumerable.extreme (orderBy c.block') want ys none) :=
    Alike.extreme (fun _ ha hb => hc.orderBy h.blocks hname hinspect ha hb) hxs .none
  refine (AlikeAt.gather hc h hr hwhole).andThen hm fun _ hxs => ?_
  refine (hextreme hxs).bind fun hw hlow => (hextreme (hxs.imp hw)).bind fun hw' hhigh => ?_
  refine .of_holds fun hs => .newList ?_
  exact .cons (hs.getD_nil (Option.rel_mono hw' hlow)) (.cons (hs.getD_nil hhigh) .nil)

omit hm h hr in
theorem orderKeys_alike {x x' y y' : Value} (hx : w x x') (hy : w y y') :
    c.Alike Pairing.Same w (Enumerable.orderKeys x y) (Enumerable.orderKeys x' y') := by
  have hkeys : c.Alike (fun w p q => w p.1 q.1 ∧ w p.2 q.2) w
      (Eval.view fun s => (Enumerable.pairKey s x, Enumerable.pairKey s y))
      (Eval.view fun s => (Enumerable.pairKey s x', Enumerable.pairKey s y')) :=
    .view fun hs => ⟨hs.pairPart 0 hx, hs.pairPart 0 hy⟩
  exact hkeys.bind fun _ hk => hc.order hname hinspect hk.1 hk.2

theorem sortByKey_alike (hwhole : whole) : c.AlikeAt False id m w s t
    (Enumerable.sortByKey c.source args c.block) (Enumerable.sortByKey c.array args' c.block') := by
  refine (AlikeAt.keyed hc hm h hr hwhole).andThen hm fun {w' ps qs} _ hp => ?_
  rw [← hp.length_eq]
  have hless {w'' : Pairing} {a a' b b' : Value} (ha : w'' a a') (hb : w'' b b') :
      c.Alike Pairing.Same w'' (do pure ((← Enumerable.orderKeys a b) == .lt))
        (do pure ((← Enumerable.orderKeys a' b') == .lt)) :=
    (orderKeys_alike hc hname hinspect ha hb).bind fun _ ho => by
      cases ho
      exact .pure rfl
  refine (Alike.sortBy (fun _ ha hb => hless ha hb) hp).bind fun {w'' out out'} _ hout => ?_
  have hvalues : c.Alike (fun w => List.Forall₂ w) w''
      (Eval.view fun s => out.map (Enumerable.pairValue s))
      (Eval.view fun s => out'.map (Enumerable.pairValue s)) := .view fun hs => by
    rw [List.forall₂_map_left_iff, List.forall₂_map_right_iff]
    exact hout.imp fun _ _ hv => hs.pairPart 1 hv
  exact hvalues.bind fun _ hvs => .newList hvs

theorem extremeBy_alike (hwhole : whole) {want : Ordering} : c.AlikeAt False id m w s t
    (Enumerable.extremeBy want c.source args c.block)
    (Enumerable.extremeBy want c.array args' c.block') := by
  refine (AlikeAt.keyed hc hm h hr hwhole).andThen hm fun _ hp => ?_
  refine (Alike.extreme (fun _ ha hb => orderKeys_alike hc hname hinspect ha hb) hp .none).bind
    fun _ hbest => ?_
  cases hbest with
  | some hbest => exact .view fun hs => hs.pairPart 1 hbest
  | none => exact .of_holds fun hs => .pure hs.nil

end Orders

/-! ### Groups -/

omit hc hm h hr in
theorem Alike.addToGroup {groups groups' key key' item item' : Value} (hgroups : w groups groups')
    (hkey : w key key') (hitem : w item item') : c.Alike Pairing.Same w
      (Enumerable.addToGroup groups key item) (Enumerable.addToGroup groups' key' item') := by
  refine (Alike.lookupEntry hgroups hkey).bind fun hw hseen => ?_
  cases hseen with
  | some hlist => exact .pushItem hlist (hw _ _ hitem)
  | none =>
    refine (Alike.newList (.cons (hw _ _ hitem) .nil)).bind fun hw' hlist => ?_
    have hle := hw.trans hw'
    exact .insertEntry (hle _ _ hgroups) (hle _ _ hkey) hlist

omit hc hm h hr in
theorem Alike.addPair {groups groups' p q : Value} (hgroups : w groups groups') (hp : w p q) :
    c.Alike Pairing.Same w
      (do
        let (key, item) ← Eval.view fun s => (Enumerable.pairKey s p, Enumerable.pairValue s p)
        Enumerable.addToGroup groups key item)
      (do
        let (key, item) ← Eval.view fun s => (Enumerable.pairKey s q, Enumerable.pairValue s q)
        Enumerable.addToGroup groups' key item) := by
  have hparts : c.Alike (fun w x y => w x.1 y.1 ∧ w x.2 y.2) w
      (Eval.view fun s => (Enumerable.pairKey s p, Enumerable.pairValue s p))
      (Eval.view fun s => (Enumerable.pairKey s q, Enumerable.pairValue s q)) :=
    .view fun hs => ⟨hs.pairPart 0 hp, hs.pairPart 1 hp⟩
  exact hparts.bind fun hw hkv => Alike.addToGroup (hw _ _ hgroups) hkv.1 hkv.2

theorem groupBy_alike (hwhole : whole) : c.AlikeAt False id m w s t
    (Enumerable.groupBy c.source args c.block) (Enumerable.groupBy c.array args' c.block') := by
  refine (AlikeAt.keyed hc hm h hr hwhole).andThen hm fun _ hp => ?_
  refine Alike.newHash.bind fun {w' groups groups'} hw hgroups => ?_
  exact (Alike.forM (A := fun w => w) (fun hw _ _ hab => hw _ _ hab)
    (fun hw' hp => (Alike.addPair (hw' _ _ hgroups) hp).imp fun _ _ _ _ => trivial)
    (hp.imp hw)).bind fun hw' _ => .pure (hw' _ _ hgroups)

theorem tally_alike (hwhole : whole) : c.AlikeAt False id m w s t
    (Enumerable.tally c.source args c.block) (Enumerable.tally c.array args' c.block') :=
  .beforeWalk hm h hr .newHash newHash_enlarged fun _ h hr hcounts =>
    (AlikeAt.walk hc h hr (.tally hcounts) .empty (.inl hwhole)).discard.bind fun hstep _ =>
      .pure hstep.holds (hstep.le _ _ hcounts)

theorem toHash_alike (hwhole : whole) : c.AlikeAt False id m w s t
    (Enumerable.toHash c.source args c.block) (Enumerable.toHash c.array args' c.block') :=
  .beforeWalk hm h hr .newHash newHash_enlarged fun _ h hr hout =>
    (AlikeAt.walk hc h hr (.toHash h.blocks hout) .empty (.inl hwhole)).discard.bind fun hstep _ =>
      .pure hstep.holds (hstep.le _ _ hout)

theorem uniq_alike (hwhole : whole) : c.AlikeAt False id m w s t
    (Enumerable.uniq c.source args c.block) (Enumerable.uniq c.array args' c.block') :=
  (AlikeAt.gather hc h hr hwhole).andThen hm fun _ hxs =>
    (hc.distinct h.blocks hxs .nil).bind fun _ hout => .newList hout

/-! ### Rows -/

/-- What an argument yields is gathered in the same way on both sides, unless it is an array, which
is only read. -/
def Gathers (c : Comparison) (w : Pairing) (a a' : Value) : Prop :=
  ∀ ⦃w' m s t⦄, w ≤ w' → c.level ≤ m → c.Holds w' s t → s.array? a = none →
    c.AlikeAt True (fun w xs ys => List.Forall₂ w xs.toList ys.toList) m w' s t (Eval.gather a)
      (Eval.gather a')

omit hc hm h hr in
theorem Gathers.mono {a a' : Value} (ha : c.Gathers w a a') (hw : w ≤ w') : c.Gathers w' a a' :=
  fun _ _ _ _ hw' => ha (hw.trans hw')

omit hc hm h hr in
theorem Gathers.alike {a a' : Value} (hgather : c.Gathers w a a') (ha : w a a') :
    c.Alike (fun w xs ys => List.Forall₂ w xs.toList ys.toList) w (Eval.gather a)
      (Eval.gather a') := by
  intro m s t hm hs
  cases harray : s.array? a with
  | none => exact hgather le_rfl hm hs harray
  | some xs =>
    have hrel := hs.array? ha
    rw [harray] at hrel
    have hread {ys : Array Value} (hys : t.array? a' = some ys)
        (hxs : List.Forall₂ w xs.toList ys.toList) : c.AlikeAt True
          (fun w xs ys => List.Forall₂ w xs.toList ys.toList) m w s t (Eval.gather a)
          (Eval.gather a') := by
      refine .read (fun e => run_view ..) (fun e => run_view ..) (fun _ _ => rfl)
        (fun _ _ => rfl) ?_
      rw [harray, hys]
      exact .pure hs hxs
    generalize hys : t.array? a' = y at hrel
    cases hrel with
    | some hxs => exact hread hys hxs

theorem zip_alike (hwhole : whole) (hargs : List.Forall₂ w args args')
    (hgather : ∀ a ∈ args, ∀ a', w a a' → c.Gathers w a a') : c.AlikeAt False id m w s t
    (Enumerable.zip c.source args c.block) (Enumerable.zip c.array args' c.block') := by
  refine (AlikeAt.gather hc h hr hwhole).andThen hm fun {w₁ _ _} hw hxs => ?_
  have hothers : c.Alike
      (fun w => List.Forall₂ fun (xs ys : Array Value) => List.Forall₂ w xs.toList ys.toList) w₁
      (args.mapM Eval.gather) (args'.mapM Eval.gather) :=
    Alike.mapM (A := fun w a a' => w a a' ∧ c.Gathers w a a')
      (B := fun w (xs ys : Array Value) => List.Forall₂ w xs.toList ys.toList)
      (fun hw _ _ ha => ⟨hw _ _ ha.1, ha.2.mono hw⟩) (fun hw _ _ hxs => hxs.imp hw)
      (fun _ ha => ha.2.alike ha.1)
      (((List.forall₂_and_left _ _).mpr ⟨hgather, hargs⟩).imp fun _ _ ha =>
        ⟨hw _ _ ha.2, (ha.1 _ ha.2).mono hw⟩)
  refine hothers.bind fun {w' os os'} hw' hothers => ?_
  have hrow {w'' : Pairing} {x y : Value × Nat} (hw'' : w' ≤ w'') (hxy : w'' x.1 y.1 ∧ y.2 = x.2) :
      c.Alike (fun w => w) w'' (newList (x.1 :: os.map fun o => o[x.2]?.getD .nil))
        (newList (y.1 :: os'.map fun o => o[y.2]?.getD .nil)) := by
    refine .of_holds fun hs => .newList (.cons hxy.1 ?_)
    rw [List.forall₂_map_left_iff, List.forall₂_map_right_iff, hxy.2]
    exact hothers.imp fun xs ys ho =>
      hs.getD_nil (@Array.getElem?_toList _ xs x.2 ▸ @Array.getElem?_toList _ ys x.2 ▸
        Option.rel_getElem? (ho.imp hw'') x.2)
  refine (Alike.mapM (A := fun w (x y : Value × Nat) => w x.1 y.1 ∧ y.2 = x.2) (B := fun w => w)
    (fun hw _ _ hxy => ⟨hw _ _ hxy.1, hxy.2⟩) (fun hw _ _ hx => hw _ _ hx) hrow
    (List.forall₂_zipIdx (hxs.imp hw') 0)).bind fun _ hrows => .newList hrows

/-! ### Searches -/

/-- The walk of `find`. -/
def findVisit (_ : Store) (_ : List Value) (block : Option Value) : Option Visit := block.map .find

theorem find_alike (hend : c.Enough whole findVisit args' t) : c.AlikeAt False id m w s t
    (Enumerable.find c.source args c.block) (Enumerable.find c.array args' c.block') :=
  .needBlock hm h fun hb => (AlikeAt.walk hc h hr (.find hb) .empty
    (hend _ (by rw [findVisit, hb.2, Option.map_some]))).andThen hm fun _ hp =>
      .of_holds fun hs => .pure (hs.getD_nil hp.held)

def findIndexVisit (_ : Store) (args : List Value) (block : Option Value) : Option Visit :=
  match args with
  | [] => block.map fun b => .findIndex (.block b)
  | target :: _ => some (.findIndex (.equals target))

theorem findIndex_alike (hargs : List.Forall₂ w args args') (hsends : c.sends "==")
    (hend : c.Enough whole findIndexVisit args' t) : c.AlikeAt False id m w s t
    (Enumerable.findIndex c.source args c.block) (Enumerable.findIndex c.array args' c.block') := by
  have hfound {w' : Pairing} {p q : Progress} (hp : p.Like w' q) : c.Alike id w'
      (if p.hit then newNat p.count else pure .nil)
      (if q.hit then newNat q.count else pure .nil) := by
    rw [hp.hit, hp.count]
    split
    · exact .newNat _
    · exact .of_holds fun hs => .pure hs.nil
  refine .atMostOneArg hm h hargs fun hx _ hargs' => ?_
  cases hx with
  | none =>
    have hb := h.blocks
    revert hb
    generalize c.block = x, hy : c.block' = y
    intro hb
    cases hb with
    | none => exact .failed (.bind_fail hm h ..)
    | some hb =>
      exact (AlikeAt.walk hc h hr (.findIndex (.block hb)) .empty (hend _ (by
        rw [hargs', hb.2]
        rfl))).andThen hm fun _ hp => hfound hp
  | some hx =>
    exact (AlikeAt.walk hc h hr (.findIndex (.equals hsends hx)) .empty (hend _ (by
      rw [hargs']
      rfl))).andThen hm fun _ hp => hfound hp

def includesVisit (_ : Store) (args : List Value) (_ : Option Value) : Option Visit :=
  args.head?.map fun target => .includes (.equals target)

theorem includes_alike (hargs : List.Forall₂ w args args') (hsends : c.sends "==")
    (hend : c.Enough whole includesVisit args' t) : c.AlikeAt False id m w s t
    (Enumerable.includes c.source args c.block) (Enumerable.includes c.array args' c.block') :=
  .oneArg hm h hargs fun hx _ hargs' =>
    (AlikeAt.walk hc h hr (.includes (.equals hsends hx)) .empty
      (hend _ (by rw [includesVisit, hargs']; rfl))).andThen hm fun _ hp => by
        rw [hp.hit]
        exact .newBool _

/-- Nothing is walked for what is no positive number. -/
def firstVisit (t : Store) (args : List Value) (_ : Option Value) : Option Visit :=
  match args with
  | [] => some .first
  | n :: _ => (t.asWord? n).bind fun n => if 0 < n then some (.take n.toNat) else none

theorem first_alike (hargs : List.Forall₂ w args args')
    (hend : c.Enough whole firstVisit args' t) : c.AlikeAt False id m w s t
    (Enumerable.first c.source args c.block) (Enumerable.first c.array args' c.block') := by
  refine .atMostOneArg hm h hargs fun hx _ hargs' => ?_
  cases hx with
  | none =>
    exact (AlikeAt.walk hc h hr .first .empty (hend _ (by rw [hargs']; rfl))).andThen hm fun _ hp =>
      .of_holds fun hs => .pure (hs.getD_nil hp.held)
  | some hx =>
    refine .bind_same hm h (.needWord hx) (.needWord _) (.needWord _) fun n hn => ?_
    split
    · exact (Alike.fail ..).at_ hm h
    split
    · exact (Alike.newList .nil).at_ hm h
    · rename_i hneg hzero
      have hpos : 0 < n := by
        rw [beq_iff_eq] at hzero
        omega
      refine (AlikeAt.walk hc h hr .take .empty (hend _ ?_)).andThen hm
        fun _ hp => .newArray hp.items
      simp only [hargs', firstVisit, Option.toList_some, asWord?_of_run hn, Option.bind_some,
        if_pos hpos]

theorem take_alike (hargs : List.Forall₂ w args args')
    (hend : c.Enough whole firstVisit args' t) : c.AlikeAt False id m w s t
    (Enumerable.take c.source args c.block) (Enumerable.take c.array args' c.block') := by
  have hlength := hargs.length_eq
  have hfirst := first_alike hc hm h hr hargs hend
  cases hargs with
  | nil => exact .failed (.bind_fail hm h ..)
  | cons ha hrest =>
    cases hrest with
    | nil => exact hfirst
    | cons =>
      simp only [Enumerable.take, Eval.oneArg, ← hlength]
      exact .failed (.bind_fail hm h ..)

def untilVisit (stopOn : Bool) (_ : Store) (args : List Value) (block : Option Value) :
    Option Visit :=
  some (.until args.head? block stopOn)

theorem testUntil_alike {stopOn : Bool} (hargs : List.Forall₂ w args args') (hsends : c.sends "===")
    (hend : c.Enough whole (untilVisit stopOn) args' t) : c.AlikeAt False Pairing.Same m w s t
    (Enumerable.testUntil stopOn c.source args c.block)
    (Enumerable.testUntil stopOn c.array args' c.block') := by
  refine .atMostOneArg hm h hargs fun {x x'} hx _ hargs' => ?_
  have hpattern : Option.Rel (fun v v' => c.sends "===" ∧ w v v') x x' := by
    cases hx with
    | some hx => exact .some ⟨hsends, hx⟩
    | none => exact .none
  refine (AlikeAt.walk hc h hr (.until hpattern h.blocks) .empty (hend _ ?_)).andThen hm
    fun _ hp => .pure hp.hit
  rw [untilVisit, hargs', Option.head?_toList]

theorem any_alike (hargs : List.Forall₂ w args args') (hsends : c.sends "===")
    (hend : c.Enough whole (untilVisit true) args' t) : c.AlikeAt False id m w s t
    (Enumerable.any c.source args c.block) (Enumerable.any c.array args' c.block') :=
  (testUntil_alike hc hm h hr hargs hsends hend).andThen hm fun _ hx => by
    cases hx
    exact .newBool _

theorem all_alike (hargs : List.Forall₂ w args args') (hsends : c.sends "===")
    (hend : c.Enough whole (untilVisit false) args' t) : c.AlikeAt False id m w s t
    (Enumerable.all c.source args c.block) (Enumerable.all c.array args' c.block') :=
  (testUntil_alike hc hm h hr hargs hsends hend).andThen hm fun _ hx => by
    cases hx
    exact .newBool _

theorem none_alike (hargs : List.Forall₂ w args args') (hsends : c.sends "===")
    (hend : c.Enough whole (untilVisit true) args' t) : c.AlikeAt False id m w s t
    (Enumerable.none c.source args c.block) (Enumerable.none c.array args' c.block') :=
  (testUntil_alike hc hm h hr hargs hsends hend).andThen hm fun _ hx => by
    cases hx
    exact .newBool _

end Methods

end Comparison

end Garnet
