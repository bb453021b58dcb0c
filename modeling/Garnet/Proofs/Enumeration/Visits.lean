import Garnet.Library.Iteration
import Garnet.Proofs.Enumeration.Comparison

/-!
# Visits that are alike

A visit of two elements that stand for each other makes the same of what has been found before.
-/

namespace Garnet

open Eval

theorem Pairing.push {w : Pairing} {xs ys : Array Value} {v v' : Value}
    (h : List.Forall₂ w xs.toList ys.toList) (hv : w v v') :
    List.Forall₂ w (xs.push v).toList (ys.push v').toList := by
  rw [Array.toList_push, Array.toList_push]
  exact List.rel_append h (.cons hv .nil)

structure Progress.Like (w : Pairing) (p q : Progress) : Prop where
  items : List.Forall₂ w p.items.toList q.items.toList
  others : List.Forall₂ w p.others.toList q.others.toList
  held : Option.Rel w p.held q.held
  count : q.count = p.count
  hit : q.hit = p.hit

namespace Progress.Like

variable {w w' : Pairing} {p q : Progress} {v v' : Value}

theorem mono (hw : w ≤ w') (h : p.Like w q) : p.Like w' q :=
  ⟨h.items.imp hw, h.others.imp hw, Option.rel_mono hw h.held, h.count, h.hit⟩

theorem empty : Progress.Like w {} {} :=
  ⟨.nil, .nil, .none, rfl, rfl⟩

theorem holding {v v' : Option Value} (h : Option.Rel w v v') :
    Progress.Like w { held := v } { held := v' } :=
  ⟨.nil, .nil, h, rfl, rfl⟩

theorem gathered (h : p.Like w q) (hv : w v v') :
    Progress.Like w { p with items := p.items.push v } { q with items := q.items.push v' } :=
  { h with items := Pairing.push h.items hv }

theorem setApart (h : p.Like w q) (hv : w v v') :
    Progress.Like w { p with others := p.others.push v } { q with others := q.others.push v' } :=
  { h with others := Pairing.push h.others hv }

theorem held_some (h : p.Like w q) (hv : w v v') :
    Progress.Like w { p with held := some v } { q with held := some v' } :=
  { h with held := .some hv }

theorem counted (h : p.Like w q) :
    Progress.Like w { p with count := p.count + 1 } { q with count := q.count + 1 } :=
  { h with count := congrArg (· + 1) h.count }

theorem found (h : p.Like w q) : Progress.Like w { p with hit := true } { q with hit := true } :=
  { h with hit := rfl }

theorem size_push (h : p.Like w q) (v v' : Value) :
    (q.items.push v').size = (p.items.push v).size := by
  rw [Array.size_push, Array.size_push, ← Array.length_toList, ← Array.length_toList,
    h.items.length_eq]

end Progress.Like

namespace Comparison

variable {c : Comparison}

/-- The blocks of the two runs. -/
def Blocks (c : Comparison) (b b' : Value) : Prop := c.block = some b ∧ c.block' = some b'

end Comparison

inductive Test.Like (c : Comparison) (w : Pairing) : Test → Test → Prop
  | equals {v v' : Value} (hname : c.sends "==") (hv : w v v') : Like c w (.equals v) (.equals v')
  | block {b b' : Value} (hb : c.Blocks b b') : Like c w (.block b) (.block b')

/-- Visits that do the same with an element, each with the block of its run. -/
inductive Visit.Like (c : Comparison) (w : Pairing) : Visit → Visit → Prop
  | gather : Like c w .gather .gather
  | map {b b' : Value} (hb : c.Blocks b b') : Like c w (.map b) (.map b')
  | flatMap {b b' : Value} (hb : c.Blocks b b') : Like c w (.flatMap b) (.flatMap b')
  | filter {b b' : Value} {keep : Bool} (hb : c.Blocks b b') :
    Like c w (.filter b keep) (.filter b' keep)
  | filterMap {b b' : Value} (hb : c.Blocks b b') : Like c w (.filterMap b) (.filterMap b')
  | find {b b' : Value} (hb : c.Blocks b b') : Like c w (.find b) (.find b')
  | findIndex {t t' : Test} (ht : t.Like c w t') : Like c w (.findIndex t) (.findIndex t')
  | withIndex {b b' : Value} (hb : c.Blocks b b') : Like c w (.withIndex b) (.withIndex b')
  | withObject {b b' memo memo' : Value} (hb : c.Blocks b b') (hmemo : w memo memo') :
    Like c w (.withObject b memo) (.withObject b' memo')
  | chunks {b b' : Option Value} {size : Nat} {overlapping : Bool} (hb : Option.Rel c.Blocks b b') :
    Like c w (.chunks b size overlapping) (.chunks b' size overlapping)
  | fold {op : Option String} {b b' : Option Value} (hop : ∀ name, op = some name → c.sends name)
    (hb : Option.Rel c.Blocks b b') : Like c w (.fold op b) (.fold op b')
  | sum {b b' : Option Value} (hname : c.sends "+") (hb : Option.Rel c.Blocks b b') :
    Like c w (.sum b) (.sum b')
  | count {t t' : Option Test} (ht : Option.Rel (Test.Like c w) t t') :
    Like c w (.count t) (.count t')
  | includes {t t' : Test} (ht : t.Like c w t') : Like c w (.includes t) (.includes t')
  | first : Like c w .first .first
  | take {n : Nat} : Like c w (.take n) (.take n)
  | keyed {b b' : Value} (hb : c.Blocks b b') : Like c w (.keyed b) (.keyed b')
  | until {pattern pattern' b b' : Option Value} {stopOn : Bool}
    (hpattern : Option.Rel (fun v v' => c.sends "===" ∧ w v v') pattern pattern')
    (hb : Option.Rel c.Blocks b b') : Like c w (.until pattern b stopOn) (.until pattern' b' stopOn)
  | partition {b b' : Value} (hb : c.Blocks b b') : Like c w (.partition b) (.partition b')
  | tally {counts counts' : Value} (hcounts : w counts counts') :
    Like c w (.tally counts) (.tally counts')
  | toHash {b b' : Option Value} {into into' : Value} (hb : Option.Rel c.Blocks b b')
    (hinto : w into into') : Like c w (.toHash b into) (.toHash b' into')
  | each {b b' : Value} (hb : c.Blocks b b') : Like c w (.each b) (.each b')

theorem Test.Like.mono {c : Comparison} {w w' : Pairing} {t t' : Test} (hw : w ≤ w')
    (h : t.Like c w t') : t.Like c w' t' := by
  cases h with
  | equals hname hv => exact .equals hname (hw _ _ hv)
  | block hb => exact .block hb

theorem Visit.Like.mono {c : Comparison} {w w' : Pairing} {v v' : Visit} (hw : w ≤ w')
    (h : v.Like c w v') : v.Like c w' v' := by
  cases h with
  | findIndex ht => exact .findIndex (ht.mono hw)
  | includes ht => exact .includes (ht.mono hw)
  | withObject hb hmemo => exact .withObject hb (hw _ _ hmemo)
  | count ht =>
    cases ht with
    | some ht => exact .count (.some (ht.mono hw))
    | none => exact .count .none
  | «until» hpattern hb =>
    cases hpattern with
    | some hv => exact .until (.some ⟨hv.1, hw _ _ hv.2⟩) hb
    | none => exact .until .none hb
  | tally hcounts => exact .tally (hw _ _ hcounts)
  | toHash hb hinto => exact .toHash hb (hw _ _ hinto)
  | fold hop hb => exact .fold hop hb
  | _ => constructor <;> assumption

/-- What is kept when a visit does not end normally. -/
theorem Visit.Like.entering {c : Comparison} {w : Pairing} {v v' : Value} {k k' : Visit}
    {p q : Progress} (hk : k.Like c w k') (hp : p.Like w q) (hv : w v v') :
    (k.entering p v).Like w (k'.entering q v') := by
  cases hk with
  | withIndex => exact hp.counted
  | fold => exact { hp with held := .none }
  | @chunks _ _ size overlapping =>
    have hitems := Pairing.push hp.items hv
    simp only [Visit.entering, hp.size_push v v']
    split
    · exact hp.gathered hv
    · refine { hp with items := ?_ }
      cases overlapping with
      | true =>
        simp only [if_true, Array.toList_extract, List.extract_eq_take_drop]
        exact List.forall₂_take _ (List.forall₂_drop 1 hitems)
      | false => exact .nil
  | _ => exact hp

namespace Comparison

variable {c : Comparison} {w : Pairing} {v v' : Value}

/-- What a visit has found, and whether the walk is over. -/
def Visited (w : Pairing) (r r' : Progress × Bool) : Prop := r.1.Like w r'.1 ∧ r'.2 = r.2

/-- What is no pair is no entry of a hash. -/
theorem Alike.wrongElement {α β : Type} {A : Pairing → α → β → Prop} (hv : w v v') :
    c.Alike A w
      (do
        let kind ← Eval.className v
        typeError s!"wrong element type {kind} (expected array)")
      (do
        let kind ← Eval.className v'
        typeError s!"wrong element type {kind} (expected array)") :=
  (Alike.className hv).bind fun _ hkind => by
    cases hkind
    exact .fail ..

theorem Alike.needBlock {b b' : Option Value} (hb : Option.Rel c.Blocks b b') :
    c.Alike (fun _ => c.Blocks) w (Eval.needBlock b) (Eval.needBlock b') := by
  cases hb with
  | some hb => exact .pure hb
  | none => exact .fail ..

namespace Answers

variable (hc : c.Answers)

include hc

theorem call {b b' : Value} {args args' : List Value} (hb : c.Blocks b b')
    (h : List.Forall₂ w args args') :
    c.Alike id w (Eval.callBlock b args) (Eval.callBlock b' args') :=
  hc.callBlock hb.1 hb.2 h

theorem callOne {b b' : Value} (hb : c.Blocks b b') (hv : w v v') :
    c.Alike id w (Eval.callBlock b [v]) (Eval.callBlock b' [v']) :=
  hc.call hb (.cons hv .nil)

theorem holds {t t' : Test} (ht : t.Like c w t') (hv : w v v') :
    c.Alike Pairing.Same w (Eval.Test.holds t v) (Eval.Test.holds t' v') := by
  cases ht with
  | equals hname ht => exact hc.equals hname hv ht
  | block hb => exact (hc.callOne hb hv).bind fun _ hx => .truthy hx

theorem emitChunk {b b' : Option Value} {p q : Progress} {xs ys : Array Value}
    (hb : Option.Rel c.Blocks b b') (hp : p.Like w q) (hxs : List.Forall₂ w xs.toList ys.toList) :
    c.Alike Progress.Like w (Eval.emitChunk b p xs) (Eval.emitChunk b' q ys) := by
  refine (Alike.newArray hxs).bind fun hw hg => ?_
  cases hb with
  | some hb => exact (hc.callOne hb hg).discard.bind fun hw' _ => .pure (hp.mono (hw.trans hw'))
  | none => exact .pure ((hp.mono hw).setApart hg)

section Visits

variable {p q : Progress} (hp : p.Like w q) (hv : w v v')

include hp hv

theorem visitChunks {b b' : Option Value} {size : Nat} {overlapping : Bool}
    (hb : Option.Rel c.Blocks b b') : c.Alike Visited w
      (Eval.visitItem (.chunks b size overlapping) p v)
      (Eval.visitItem (.chunks b' size overlapping) q v') := by
  simp only [Eval.visitItem, hp.size_push v v']
  split
  · exact .pure ⟨hp.gathered hv, rfl⟩
  · have hitems := Pairing.push hp.items hv
    exact (hc.emitChunk hb (Visit.Like.entering (.chunks hb) hp hv) hitems).bind fun _ hp =>
      .pure ⟨hp, rfl⟩

theorem visitFold {op : Option String} {b b' : Option Value}
    (hop : ∀ name, op = some name → c.sends name) (hb : Option.Rel c.Blocks b b') :
    c.Alike Visited w (Eval.visitItem (.fold op b) p v) (Eval.visitItem (.fold op b') q v') := by
  have hheld := hp.held
  simp only [Eval.visitItem]
  generalize p.held = x, q.held = y at hheld
  cases hheld with
  | none => exact .pure ⟨hp.held_some hv, rfl⟩
  | some hacc =>
    cases op with
    | some name =>
      exact (hc.send (hop name rfl) hacc (.cons hv .nil)).bind fun hw hx =>
        .pure ⟨(hp.mono hw).held_some hx, rfl⟩
    | none =>
      refine (Alike.needBlock hb).bind fun hw hb => ?_
      exact (hc.call hb (.cons (hw _ _ hacc) (.cons (hw _ _ hv) .nil))).bind fun hw' hx =>
        .pure ⟨(hp.mono (hw.trans hw')).held_some hx, rfl⟩

theorem visitSum {b b' : Option Value} (hname : c.sends "+") (hb : Option.Rel c.Blocks b b') :
    c.Alike Visited w (Eval.visitItem (.sum b) p v) (Eval.visitItem (.sum b') q v') := by
  have hadd {w' : Pairing} {x x' : Value} (hw : w ≤ w') (hx : w' x x') :
      c.Alike Visited w'
        (do
          let acc ← Eval.send (p.held.getD .nil) "+" [x] none
          pure ({ p with held := some acc }, false))
        (do
          let acc ← Eval.send (q.held.getD .nil) "+" [x'] none
          pure ({ q with held := some acc }, false)) := by
    refine .of_holds fun hs => ?_
    have hp := hp.mono hw
    exact (hc.send hname (hs.getD_nil hp.held) (.cons hx .nil)).bind fun hw' hy =>
      .pure ⟨(hp.mono hw').held_some hy, rfl⟩
  cases hb with
  | some hb => exact (hc.callOne hb hv).bind hadd
  | none => exact (Alike.pure (A := id) hv).bind hadd

theorem visitCount {t t' : Option Test} (ht : Option.Rel (Test.Like c w) t t') :
    c.Alike Visited w (Eval.visitItem (.count t) p v) (Eval.visitItem (.count t') q v') := by
  cases ht with
  | some ht =>
    refine (hc.holds ht hv).bind fun {_ x _} hw hx => ?_
    cases hx
    cases x with
    | true => exact .pure ⟨(hp.mono hw).counted, rfl⟩
    | false => exact .pure ⟨hp.mono hw, rfl⟩
  | none => exact .pure ⟨hp.counted, rfl⟩

theorem visitUntil {pattern pattern' b b' : Option Value} {stopOn : Bool}
    (hpattern : Option.Rel (fun v v' => c.sends "===" ∧ w v v') pattern pattern')
    (hb : Option.Rel c.Blocks b b') : c.Alike Visited w
      (Eval.visitItem (.until pattern b stopOn) p v)
      (Eval.visitItem (.until pattern' b' stopOn) q v') := by
  have hstop {w' : Pairing} {x x' : Bool} (hw : w ≤ w') (hx : w'.Same x x') :
      c.Alike Visited w'
        (pure (if x == stopOn then ({ p with hit := true }, true) else (p, false)) :
          Op (Progress × Bool))
        (pure (if x' == stopOn then ({ q with hit := true }, true) else (q, false))) := by
    cases hx
    split
    · exact .pure ⟨(hp.mono hw).found, rfl⟩
    · exact .pure ⟨hp.mono hw, rfl⟩
  cases hpattern with
  | some hx => exact (hc.caseEquals hx.1 hx.2 hv).bind hstop
  | none =>
    cases hb with
    | some hb =>
      exact (hc.callOne hb hv).bind fun hw hx =>
        (Alike.truthy hx).bind fun hw' => hstop (hw.trans hw')
    | none => exact (Alike.truthy hv).bind hstop

omit hc in
theorem visitTally {counts counts' : Value} (hcounts : w counts counts') :
    c.Alike Visited w (Eval.visitItem (.tally counts) p v) (Eval.visitItem (.tally counts') q v') := by
  refine (Alike.lookupEntry hcounts hv).bind fun hw hseen => ?_
  have hcount : c.Alike Pairing.Same _ _ _ := Alike.wordOrZero hseen
  refine hcount.bind fun {_ n _} hw' hn => ?_
  cases hn
  refine (Alike.newInt (n + 1)).bind fun hw'' hi => ?_
  have hle := (hw.trans hw').trans hw''
  exact (Alike.insertEntry (hle _ _ hcounts) (hle _ _ hv) hi).bind fun hw₃ _ =>
    .pure ⟨hp.mono (hle.trans hw₃), rfl⟩

/-- An array of two elements is entered; anything else is refused. -/
theorem visitToHash {b b' : Option Value} {into into' : Value} (hb : Option.Rel c.Blocks b b')
    (hinto : w into into') : c.Alike Visited w
      (Eval.visitItem (.toHash b into) p v) (Eval.visitItem (.toHash b' into') q v') := by
  cases hb
  case' some hb => refine (hc.callOne hb hv).bind fun hw hpair => ?_
  case' none => refine (Alike.pure (A := id) hv).bind fun hw hpair => ?_
  all_goals
    refine (Alike.array? hpair).bind fun hw' hxs => ?_
    have hle := hw.trans hw'
    cases hxs with
    | none => exact .wrongElement (hw' _ _ hpair)
    | @some xs ys hxs =>
      simp only [Option.map_some]
      generalize xs.toList = xs, ys.toList = ys at hxs
      cases hxs with
      | nil => exact .wrongElement (hw' _ _ hpair)
      | cons hkey hxs =>
        cases hxs with
        | nil => exact .wrongElement (hw' _ _ hpair)
        | cons hvalue hxs =>
          cases hxs with
          | nil =>
            exact (Alike.insertEntry (hle _ _ hinto) hkey hvalue).bind fun hw₂ _ =>
              .pure ⟨hp.mono (hle.trans hw₂), rfl⟩
          | cons => exact .wrongElement (hw' _ _ hpair)

/-- One visit of an element. -/
theorem visitItem {k k' : Visit} (hk : k.Like c w k') :
    c.Alike Visited w (Eval.visitItem k p v) (Eval.visitItem k' q v') := by
  cases hk with
  | gather => exact .pure ⟨hp.gathered hv, rfl⟩
  | map hb => exact (hc.callOne hb hv).bind fun hw hx => .pure ⟨(hp.mono hw).gathered hx, rfl⟩
  | flatMap hb =>
    refine (hc.callOne hb hv).bind fun hw hx => (Alike.array? hx).bind fun hw' hxs => ?_
    have hp := hp.mono (hw.trans hw')
    cases hxs with
    | some hxs =>
      refine .pure ⟨{ hp with items := ?_ }, rfl⟩
      rw [Array.toList_append, Array.toList_append]
      exact List.rel_append hp.items hxs
    | none => exact .pure ⟨hp.gathered (hw' _ _ hx), rfl⟩
  | @filter _ _ keep hb =>
    refine (hc.callOne hb hv).bind fun hw hx => .of_holds fun hs => ?_
    rw [hs.truthy hx]
    split
    · exact .pure ⟨(hp.mono hw).gathered (hw _ _ hv), rfl⟩
    · exact .pure ⟨hp.mono hw, rfl⟩
  | filterMap hb =>
    refine (hc.callOne hb hv).bind fun hw hx => .of_holds fun hs => ?_
    rw [hs.truthy hx]
    split
    · exact .pure ⟨(hp.mono hw).gathered hx, rfl⟩
    · exact .pure ⟨hp.mono hw, rfl⟩
  | find hb =>
    refine (hc.callOne hb hv).bind fun hw hx => .of_holds fun hs => ?_
    rw [hs.truthy hx]
    split
    · exact .pure ⟨(hp.mono hw).held_some (hw _ _ hv), rfl⟩
    · exact .pure ⟨hp.mono hw, rfl⟩
  | findIndex ht =>
    refine (hc.holds ht hv).bind fun {_ x _} hw hx => ?_
    cases hx
    cases x with
    | true => exact .pure ⟨(hp.mono hw).found, rfl⟩
    | false => exact .pure ⟨(hp.mono hw).counted, rfl⟩
  | withIndex hb =>
    simp only [Eval.visitItem, hp.count]
    refine (Alike.newNat p.count).bind fun hw hi => ?_
    refine (hc.call hb (.cons (hw _ _ hv) (.cons hi .nil))).discard.bind fun hw' _ => ?_
    exact .pure ⟨{ hp.mono (hw.trans hw') with count := rfl }, rfl⟩
  | withObject hb hmemo =>
    exact (hc.call hb (.cons hv (.cons hmemo .nil))).discard.bind fun hw _ =>
      .pure ⟨hp.mono hw, rfl⟩
  | chunks hb => exact hc.visitChunks hp hv hb
  | fold hop hb => exact hc.visitFold hp hv hop hb
  | sum hname hb => exact hc.visitSum hp hv hname hb
  | count ht => exact hc.visitCount hp hv ht
  | includes ht =>
    refine (hc.holds ht hv).bind fun {_ x _} hw hx => ?_
    cases hx
    cases x with
    | true => exact .pure ⟨(hp.mono hw).found, rfl⟩
    | false => exact .pure ⟨hp.mono hw, rfl⟩
  | first => exact .pure ⟨hp.held_some hv, rfl⟩
  | take =>
    simp only [Eval.visitItem, hp.size_push v v']
    exact .pure ⟨hp.gathered hv, rfl⟩
  | keyed hb =>
    refine (hc.callOne hb hv).bind fun hw hkey => ?_
    exact (Alike.newList (.cons hkey (.cons (hw _ _ hv) .nil))).bind fun hw' hpair =>
      .pure ⟨(hp.mono (hw.trans hw')).gathered hpair, rfl⟩
  | «until» hpattern hb => exact hc.visitUntil hp hv hpattern hb
  | partition hb =>
    refine (hc.callOne hb hv).bind fun hw hx => .of_holds fun hs => ?_
    rw [hs.truthy hx]
    split
    · exact .pure ⟨(hp.mono hw).gathered (hw _ _ hv), rfl⟩
    · exact .pure ⟨(hp.mono hw).setApart (hw _ _ hv), rfl⟩
  | tally hcounts => exact visitTally hp hv hcounts
  | toHash hb hinto => exact hc.visitToHash hp hv hb hinto
  | each hb => exact (hc.callOne hb hv).discard.bind fun hw _ => .pure ⟨hp.mono hw, rfl⟩

end Visits

end Answers

end Comparison

end Garnet
