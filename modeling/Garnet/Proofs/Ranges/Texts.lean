import Garnet.Proofs.Ranges.Walks
import Garnet.Proofs.Texts.Order
import Garnet.Session.Engine

/-!
# Walks over texts

A walk from one text to another makes a text and visits it, then the next one, until it has come to
the last one or to a longer one. Whether it comes to either is a matter of the two texts alone.
-/

namespace Garnet.Library.Ranges

open Eval

variable {σ : Type} {e : Engine} {s : Store}

/-- What a walk visits that comes to its end after `n` steps: the last text only if it is not left
out. -/
def stepsTo (first last : List Char) (exclusive : Bool) (n : Nat) : List (List Char) :=
  List.iterate Text.succ first n ++
    if Text.succ^[n] first = last ∧ exclusive = false then [last] else []

section Walk

variable {visit : σ → Value → Op (σ × Bool)} {first last : List Char} {exclusive : Bool} {n : Nat}

/-- One round of a walk. -/
def textRound (visit : σ → Value → Op (σ × Bool)) (last : List Char) (exclusive : Bool)
    (p : List Char × σ) : Op ((List Char × σ) ⊕ σ) := do
  if p.1.length > last.length || (p.1 == last && exclusive) then pure (.inr p.2)
  else
    let q ← visit p.2 (← newChars p.1)
    pure (if q.2 && !(p.1 == last) then .inl (Text.succ p.1, q.1) else .inr q.1)

/-- A walk that comes to its end after `n` steps. -/
theorem walkTexts_run
    (hgoes : ∀ k < n, Text.succ^[k] first ≠ last ∧ (Text.succ^[k] first).length ≤ last.length)
    (hends : Text.succ^[n] first = last ∨ last.length < (Text.succ^[n] first).length)
    (hfuel : n < e.fuel) (st : σ) (s : Store) :
    (walkTexts visit last exclusive first st).run e s =
      (visitMade newChars visit (stepsTo first last exclusive n) st).run e s := by
  -- the same with a fuel of its own, which goes down by one for each text
  have hloop (m : Nat) (hm : n < m) (st : σ) (s : Store) :
      (repeatFor (textRound visit last exclusive) m (first, st)).run e s =
        (visitMade newChars visit (stepsTo first last exclusive n) st).run e s := by
    clear hfuel
    induction m generalizing first n st s with
    | zero => exact absurd hm (Nat.not_lt_zero _)
    | succ m ih =>
      cases n with
      | zero =>
        rw [Function.iterate_zero_apply] at hends
        by_cases hlast : first = last
        · subst hlast
          have hshort : ¬first.length < first.length := Nat.lt_irrefl _
          cases exclusive with
          | true =>
            have hnone : stepsTo first first true 0 = [] := by simp [stepsTo]
            simp only [hnone, repeatFor, textRound, beq_self_eq_true, Bool.and_self, Bool.or_true,
              if_true, bind, Act.run]
            rfl
          | false =>
            have hone : stepsTo first first false 0 = [first] := by simp [stepsTo]
            simp only [hone, repeatFor, textRound, visitMade, gt_iff_lt, hshort, beq_self_eq_true,
              decide_false, Bool.and_false, Bool.or_self, Bool.false_eq_true, if_false,
              Bool.not_true, bind, Act.run]
            cases (newChars first).run e s with
            | error stop t => rfl
            | ok v t =>
              dsimp only
              cases (visit st v).run e t with
              | error stop u => rfl
              | ok q u =>
                obtain ⟨st, more⟩ := q
                cases more <;> rfl
        · have hlong : last.length < first.length := hends.resolve_left hlast
          have hnone : stepsTo first last exclusive 0 = [] := by simp [stepsTo, hlast]
          simp only [hnone, repeatFor, textRound, gt_iff_lt, hlong, decide_true, Bool.true_or, if_true,
            visitMade, bind, Act.run]
          rfl
      | succ n =>
        obtain ⟨hne, hlength⟩ := hgoes 0 (Nat.succ_pos n)
        rw [Function.iterate_zero_apply] at hne hlength
        have hshort : ¬last.length < first.length := Nat.not_lt_of_le hlength
        have hbeq : (first == last) = false := beq_false_of_ne hne
        have hsteps : stepsTo first last exclusive (n + 1) =
            first :: stepsTo (Text.succ first) last exclusive n := rfl
        simp only [hsteps, repeatFor, textRound, visitMade, gt_iff_lt, hshort, hbeq, decide_false,
          Bool.false_and, Bool.or_self, Bool.false_eq_true, if_false, Bool.not_false, Bool.and_true,
          bind, Act.run]
        cases (newChars first).run e s with
        | error stop t => rfl
        | ok v t =>
          dsimp only
          cases (visit st v).run e t with
          | error stop u => rfl
          | ok q u =>
            obtain ⟨st, more⟩ := q
            cases more with
            | false => rfl
            | true => exact ih (fun k hk => hgoes (k + 1) (by omega)) hends (by omega) st u
  exact hloop e.fuel hfuel st s

/-- A walk that never comes to its end goes on as long as its visits do. -/
theorem walkTexts_exhausted
    (hgoes : ∀ k, Text.succ^[k] first ≠ last ∧ (Text.succ^[k] first).length ≤ last.length)
    (hvisit : ∀ st v t, ∃ st' t', (visit st v).run e t = .ok (st', true) t') (st : σ) (s : Store) :
    ∃ t, (walkTexts visit last exclusive first st).run e s = .error .exhausted t := by
  have hloop (m : Nat) (st : σ) (s : Store) :
      ∃ t, (repeatFor (textRound visit last exclusive) m (first, st)).run e s =
        .error .exhausted t := by
    induction m generalizing first st s with
    | zero => exact ⟨s, rfl⟩
    | succ m ih =>
      obtain ⟨hne, hlength⟩ := hgoes 0
      rw [Function.iterate_zero_apply] at hne hlength
      have hshort : ¬last.length < first.length := Nat.not_lt_of_le hlength
      have hbeq : (first == last) = false := beq_false_of_ne hne
      obtain ⟨v, t, hnew⟩ : ∃ v t, (newChars first).run e s = .ok v t := ⟨_, _, rfl⟩
      obtain ⟨st', u, hgo⟩ := hvisit st v t
      obtain ⟨w, hw⟩ := ih (fun k => hgoes (k + 1)) st' u
      refine ⟨w, ?_⟩
      simp only [repeatFor, textRound, gt_iff_lt, hshort, hbeq, decide_false, Bool.false_and,
        Bool.or_self, Bool.false_eq_true, if_false, Bool.not_false, Bool.and_true, bind, Act.run, hnew,
        hgo, if_true]
      exact hw
  exact hloop e.fuel st s

end Walk

/-! ## Ranges of texts -/

/-- A range from one text to another. -/
structure OfTexts (s : Store) (recv : Value) (r : Ends) (a b : String) : Prop where
  range : s.range? recv = some (r.first, r.last, r.exclusive)
  first : s.payload r.first = .text a
  last : s.payload r.last = .text b
  nil : s.payload .nil = .nil

namespace OfTexts

variable {recv : Value} {r : Ends} {a b : String} {n : Nat} (hr : OfTexts s recv r a b)

include hr

theorem last_ne_nil : r.last.isNil = false := by
  refine beq_false_of_ne fun heq => ?_
  have := hr.last
  rw [heq, hr.nil] at this
  cases this

theorem walkRange_run (visit : σ → Value → Op (σ × Bool)) (st : σ) :
    (walkRange visit r st).run e s =
      (walkTexts visit b.toList r.exclusive a.toList st).run e s := by
  have hword : s.word? r.first = none := by rw [Store.word?, hr.first]
  have hfirst : s.text? r.first = some a := by rw [Store.text?, hr.first]
  have hlast : s.text? r.last = some b := by rw [Store.text?, hr.last]
  simp only [walkRange, intBounds?, Act.run_bind, run_view, Act.run_pure, Ending.andThen_ok, hword,
    hfirst, hlast]

/-- The array of the texts up to the end. -/
theorem toA_run (hgoes : ∀ k < n, Text.succ^[k] a.toList ≠ b.toList ∧
      (Text.succ^[k] a.toList).length ≤ b.toList.length)
    (hends : Text.succ^[n] a.toList = b.toList ∨
      b.toList.length < (Text.succ^[n] a.toList).length)
    (hfuel : n < e.fuel) (args : List Value) (block : Option Value) :
    (toA recv args block).run e s =
      (do newList (← (stepsTo a.toList b.toList r.exclusive n).mapM newChars)).run e s := by
  have hrange : (endsOf recv).run e s = .ok r s := by
    simp only [endsOf, Act.run_bind, run_view, Ending.andThen_ok, hr.range]
    rfl
  simp only [toA, elements, takeElements, Act.run_bind, hrange, Ending.andThen_ok, hr.last_ne_nil,
    Bool.false_eq_true, if_false, hr.walkRange_run, walkTexts_run hgoes hends hfuel]
  rw [visitMade_push fun _ _ _ => rfl, Ending.andThen_assoc]
  simp only [Ending.andThen_ok, Array.empty_append]
  rfl

end OfTexts

/-- A walk from one text to another, the last one included or not. It ends after some number of steps
if counting up the first text ever comes to the last one or to a longer one, and that is the case for
all texts but those that are stuck: the empty text before any other, and texts without letters and
digits whose last character is behind all of them and does not lead to that of the last text, be it
that the last text is another one or that there is a gap. From there a walk goes on for ever, as long
as its visits do and whatever the fuel. -/
theorem walkRange_ends {recv : Value} {r : Ends} {a b : String} (hr : OfTexts s recv r a b) :
    (Text.Ends a.toList b.toList ↔ ¬Text.Stuck a.toList b.toList) ∧
    (¬Text.Stuck a.toList b.toList →
      ∃ n, ∀ {σ : Type} (visit : σ → Value → Op (σ × Bool)) (e : Engine) (st : σ), n < e.fuel →
        (walkRange visit r st).run e s =
          (visitMade newChars visit (stepsTo a.toList b.toList r.exclusive n) st).run e s) ∧
    (Text.Stuck a.toList b.toList →
      ∀ {σ : Type} (visit : σ → Value → Op (σ × Bool)) (e : Engine),
        (∀ st v t, ∃ st' t', (visit st v).run e t = .ok (st', true) t') →
          ∀ st, ∃ t, (walkRange visit r st).run e s = .error .exhausted t) := by
  refine ⟨Text.ends_iff, fun h => ?_, fun h σ visit e hvisit st => ?_⟩
  · obtain ⟨n, hgoes, hends⟩ := (Text.ends_iff.mpr h).least
    refine ⟨n, fun visit e st hfuel => ?_⟩
    rw [hr.walkRange_run]
    exact walkTexts_run hgoes hends hfuel st s
  · rw [hr.walkRange_run]
    refine walkTexts_exhausted (fun k => ?_) hvisit st s
    have hstuck := h.iterate k
    exact ⟨hstuck.ne, hstuck.1⟩

/-- Two ranges of texts, with nil in its place: one over the gap, and one of letters. -/
def textRanges : Store where
  config := {}
  objects :=
    let plain (p : Payload) : Object := { cls := CoreClass.object.value, payload := p }
    Array.replicate 33 default ++ #[plain .nil, plain (.range ⟨35⟩ ⟨36⟩ false),
      plain (.text "\uD7FF"), plain (.text "\uE000"), plain (.range ⟨38⟩ ⟨39⟩ false),
      plain (.text "x"), plain (.text "ab")]
  scopes := #[]
  frames := []
  scopeStack := []

theorem ofTexts_gap :
    OfTexts textRanges ⟨34⟩ ⟨⟨35⟩, ⟨36⟩, false⟩ "\uD7FF" "\uE000" := by
  constructor <;> rfl

theorem ofTexts_letters : OfTexts textRanges ⟨37⟩ ⟨⟨38⟩, ⟨39⟩, false⟩ "x" "ab" := by
  constructor <;> rfl

/-- The walk over the gap goes on, that over letters comes to its end. -/
theorem walkRange_ends_gap :
    (∃ t, (walkRange (fun n _ => pure (n + 1, true)) ⟨⟨35⟩, ⟨36⟩, false⟩ 0).run (.ofFuel 1000)
      textRanges = .error .exhausted t) ∧
    Text.Ends "x".toList "ab".toList := by
  have hstuck : Text.Stuck "\uD7FF".toList "\uE000".toList := by
    refine ⟨by decide, by decide, .inr ⟨[], '\uD7FF', by decide, by decide, ?_⟩⟩
    rintro ⟨d, hd, -, hgap⟩
    obtain rfl : '\uE000' = d := by simpa using hd
    exact absurd (hgap (by decide)) (by decide)
  have hgoes : ¬Text.Stuck "x".toList "ab".toList := fun h => absurd h.2.1 (by decide)
  exact ⟨(walkRange_ends ofTexts_gap).2.2 hstuck _ _ (fun n v t => ⟨n + 1, t, rfl⟩) 0,
    (walkRange_ends ofTexts_letters).1.mpr hgoes⟩

/-! ## Letters and digits -/

/-- A text of letters and digits that are not all the last ones of their kinds has the numeral after
it as its next text, of the same kinds in the same places; where all are the last ones, the next text
is the first numeral that is one longer. In the order by length and then by the alphabet, a range from
a lower-case text to one that is not before it has as its elements all lower-case texts from the one
to the other, in their order. -/
theorem succ_counts :
    (∀ (cs : List Char) (hne : cs ≠ []), (∀ c ∈ cs, c.isAlphanum) →
      (¬(∀ c ∈ cs, c ∈ ['9', 'z', 'Z']) →
        (Text.succ cs).length = cs.length ∧ (Text.succ cs).map Text.kind? = cs.map Text.kind? ∧
          Text.value (Text.succ cs) = Text.value cs + 1) ∧
      ((∀ c ∈ cs, c ∈ ['9', 'z', 'Z']) →
        Text.succ cs = Text.lead (cs.head hne) :: cs.map Text.first)) ∧
    ∀ {s : Store} {e : Engine} {recv : Value} {r : Ends} {a b : String}, OfTexts s recv r a b →
      r.exclusive = false → Text.Lower a.toList → Text.Lower b.toList →
      (a.toList = [] → b.toList = []) → ¬Text.Before b.toList a.toList →
      (Text.between a.toList b.toList).length ≤ e.fuel →
        (∀ args block, (toA recv args block).run e s =
          (do newList (← (Text.between a.toList b.toList).mapM newChars)).run e s) ∧
        (Text.between a.toList b.toList).Pairwise Text.Before ∧
        ∀ cs, cs ∈ Text.between a.toList b.toList ↔
          Text.Lower cs ∧ ¬Text.Before cs a.toList ∧ ¬Text.Before b.toList cs := by
  refine ⟨fun cs hne hcs => ⟨fun h => ?_, fun h => ?_⟩, ?_⟩
  · push Not at h
    obtain ⟨c, hc, hlast⟩ := h
    exact Text.succ_next ⟨c, hc, fun h => hlast ((Text.mem_last_iff (hcs c hc)).mpr h)⟩
  · obtain ⟨c, cs, rfl⟩ := List.exists_cons_of_ne_nil hne
    exact Text.succ_lead hcs fun d hd => (Text.mem_last_iff (hcs d hd)).mp (h d hd)
  · intro s e recv r a b hr hinclusive ha hb hempty hle hfuel
    obtain ⟨n, hgoes, hends, hbetween⟩ := Text.exists_steps hempty ha hb hle
    have hsteps : stepsTo a.toList b.toList r.exclusive n = Text.between a.toList b.toList := by
      rw [stepsTo, hbetween, if_pos ⟨hends, hinclusive⟩]
    have hn : n < e.fuel := by
      rw [hbetween, List.length_append, List.length_iterate, List.length_singleton] at hfuel
      omega
    refine ⟨fun args block => ?_, Text.between_sorted hempty ha, fun cs => Text.mem_between hempty ha hb⟩
    rw [hr.toA_run hgoes (.inl hends) hn, hsteps]

theorem succ_counts_letters :
    Text.succ ['a', '9', 'z'] = ['b', '0', 'a'] ∧ Text.succ ['Z', '9', 'z'] = ['A', 'A', '0', 'a'] ∧
    (toA ⟨37⟩ [] none).run (.ofFuel 5) textRanges =
      (do newList (← [['x'], ['y'], ['z'], ['a', 'a'], ['a', 'b']].mapM newChars)).run (.ofFuel 5)
        textRanges := by
  obtain ⟨hsucc, hrange⟩ := succ_counts
  have hx : Text.Lower "x".toList := List.all_eq_true.mp (by decide)
  have hab : Text.Lower "ab".toList := List.all_eq_true.mp (by decide)
  have hle : ¬Text.Before "ab".toList "x".toList := by
    rw [← Text.index_lt_iff hab hx]
    decide
  have halnum : ∀ c ∈ ['Z', '9', 'z'], c.isAlphanum := List.all_eq_true.mp (by decide)
  refine ⟨?_, (hsucc ['Z', '9', 'z'] (by simp) halnum).2 (by simp), ?_⟩
  · rfl
  · exact (hrange ofTexts_letters rfl hx hab (by decide) hle (by decide)).1 [] none

end Garnet.Library.Ranges
