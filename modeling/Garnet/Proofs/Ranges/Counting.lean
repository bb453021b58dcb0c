import Garnet.Proofs.Ranges.Membership

/-!
# Counting

Four loops count in 64 bits: that of `times`, `upto` and `downto`, which goes up or down by one, that
of `each`, and that of `step`. Each looks whether the last number has been passed before it visits
one, and whether the next one has 64 bits before it goes on to it. Between ends of 64 bits they come
to the numbers of a list, and to its end.
-/

namespace Garnet

/-! ## Down and up -/

section Progression

variable {low high step : Int} {n : Nat}

theorem progression_append_one :
    progression low step (n + 1) = progression low step n ++ [low + n * step] := by
  induction n generalizing low with
  | zero => simp [progression]
  | succ n ih =>
    rw [progression, ih, progression, List.cons_append]
    congr 3
    push_cast
    ring

/-- To count down is to count up backwards. -/
theorem progression_neg :
    progression low (-step) n = (progression (low - (n - 1) * step) step n).reverse := by
  induction n generalizing low with
  | zero => rfl
  | succ n ih =>
    rw [progression, ih, progression_append_one, List.reverse_append, List.reverse_singleton,
      List.singleton_append]
    congr 3 <;> push_cast <;> ring

theorem reverse_interval :
    (interval low high).reverse = progression high (-1) (high - low + 1).toNat := by
  rw [progression_neg, interval, spaced, steps, Int.ediv_one]
  rcases Int.lt_or_le high low with h | h
  · rw [show (high - low + 1).toNat = 0 by omega]
    rfl
  · rw [show high - (((high - low + 1).toNat : Int) - 1) * 1 = low by omega]

end Progression

namespace Library

open Eval Ranges

variable {e : Engine} {s : Store} {block : Option Value}

/-! ## Visits that keep or hand over -/

namespace Ranges

/-- With a block an operation calls it with one integer after another and gives its receiver; without
one it makes an array of them. -/
def Counts (f : Option Value → Op Value) (recv : Value) (is : List Int) (e : Engine) (s : Store) :
    Prop :=
  (∀ b, (f (some b)).run e s =
    (do
      yieldInts b is
      pure recv : Op Value).run e s) ∧
  (f none).run e s = (do newList (← makeInts is) : Op Value).run e s

/-- An operation that visits integers and then gives its receiver or what it has kept. -/
theorem Counts.of_visits {f : Option Value → Op Value} {recv : Value} {is : List Int}
    (h : ∀ block, (f block).run e s = (do
      let out ← visitInts (fun out v => do pure (← Integers.emit block out v, true)) is #[]
      match block with
      | some _ => pure recv
      | none => newArray out : Op Value).run e s) :
    Counts f recv is e s := by
  refine ⟨fun b => ?_, ?_⟩
  · have hvisits : (visitMade newInt (fun out v => do
          pure (← Integers.emit (some b) out v, true)) is #[]).run e s =
        (do
          yieldMade newInt b is
          pure #[]).run e s :=
      visitMade_yield
        (fun v t => by simp only [Integers.emit, Act.run_bind, Ending.andThen_assoc]; rfl) is s
    rw [h, Act.run_bind, visitInts_eq, hvisits, Act.run_bind, Act.run_bind, Ending.andThen_assoc]
    rfl
  · have hvisits : (visitMade newInt (fun out v => do
          pure (← Integers.emit none out v, true)) is #[]).run e s =
        ((is.mapM newInt).run e s).andThen fun vs => .ok (#[] ++ vs.toArray) :=
      visitMade_push (fun _ _ _ => rfl) is #[] s
    rw [h, Act.run_bind, visitInts_eq, hvisits, Ending.andThen_assoc, Act.run_bind]
    simp only [Ending.andThen_ok, Array.empty_append]
    rfl

theorem Counts.congr {f g : Option Value → Op Value} {recv : Value} {is : List Int}
    (hg : Counts g recv is e s) (h : ∀ block, (f block).run e s = (g block).run e s) :
    Counts f recv is e s :=
  ⟨fun b => (h (some b)).trans (hg.1 b), (h none).trans hg.2⟩

end Ranges

/-! ## Counting by one -/

namespace Integers

/-- Whether a number on the way to the last one is visited. -/
def reaches (last step i : Int) : Bool := (0 < step && i ≤ last) || (step < 0 && last ≤ i)

/-- The loop visits the numbers up to the first one that has passed the last one; on the way they
must have 64 bits. -/
theorem countThrough_run {first last step : Int} {n : Nat}
    (hreaches : ∀ k : Nat, k < n → reaches last step (first + k * step))
    (hpast : reaches last step (first + n * step) = false)
    (hwords : ∀ k : Nat, k < n → Number.isWord (first + k * step)) (hfuel : n < e.fuel) (s : Store) :
    (countThrough block first last step).run e s =
      (visitInts (fun out v => do pure (← emit block out v, true)) (progression first step n)
        #[]).run e s := by
  have hloop (m : Nat) (first : Int) (n : Nat)
      (hreaches : ∀ k : Nat, k < n → reaches last step (first + k * step))
      (hpast : reaches last step (first + n * step) = false)
      (hwords : ∀ k : Nat, k < n → Number.isWord (first + k * step)) (hm : n < m)
      (out : Array Value) (s : Store) :
      (repeatFor (fun p : Int × Array Value => do
        if reaches last step p.1 then
          let out ← emit block p.2 (← newInt p.1)
          pure (if Number.isWord (p.1 + step) then .inl (p.1 + step, out) else .inr out)
        else pure (.inr p.2)) m (first, out)).run e s =
      (visitInts (fun out v => do pure (← emit block out v, true)) (progression first step n)
        out).run e s := by
    induction m generalizing first n out s with
    | zero => exact absurd hm (Nat.not_lt_zero _)
    | succ m ih =>
      cases n with
      | zero =>
        have hpast : reaches last step first = false := by simpa using hpast
        simp only [repeatFor, hpast, progression, visitInts]
        rfl
      | succ n =>
        have hfirst : reaches last step first = true := by simpa using hreaches 0 (by omega)
        have hshift (k : Nat) : first + step + k * step = first + (k + 1 : Nat) * step := by
          push_cast
          ring
        simp only [repeatFor, hfirst, progression, visitInts, if_true, bind, Act.run]
        cases (newInt first).run e s with
        | error stop t => rfl
        | ok v t =>
          dsimp only
          cases (emit block out v).run e t with
          | error stop u => rfl
          | ok out u =>
            by_cases hnext : Number.isWord (first + step)
            · simp only [pure, Act.run, hnext, if_true]
              refine ih (first + step) n (fun k hk => ?_) ?_ (fun k hk => ?_) (by omega) out u
              · rw [hshift]
                exact hreaches _ (by omega)
              · rw [hshift]
                exact hpast
              · rw [hshift]
                exact hwords _ (by omega)
            · -- the next number has been passed by then
              have hn : n = 0 := by
                by_contra hn
                exact hnext (by simpa using hwords 1 (by omega))
              simp only [pure, Act.run, hnext, Bool.false_eq_true, if_false, if_true, hn,
                progression, visitInts]
  exact hloop e.fuel first n hreaches hpast hwords hfuel #[] s

variable {recv x y v : Value} {a b k : Int}

theorem count_counts {first last step : Int} {n : Nat}
    (hreaches : ∀ k : Nat, k < n → reaches last step (first + k * step))
    (hpast : reaches last step (first + n * step) = false)
    (hwords : ∀ k : Nat, k < n → Number.isWord (first + k * step)) (hfuel : n < e.fuel) :
    Counts (count recv first last step) recv (progression first step n) e s := by
  refine .of_visits fun block => ?_
  rw [count, Act.run_bind, countThrough_run hreaches hpast hwords hfuel]
  exact (Act.run_bind ..).symm

theorem count_up (ha : Number.isWord a) (hb : Number.isWord b)
    (hfuel : (interval a b).length < e.fuel) :
    Counts (count recv a b 1) recv (interval a b) e s := by
  rw [length_interval] at hfuel
  rw [interval, spaced, steps, Int.ediv_one]
  refine count_counts (fun k hk => ?_) ?_ (fun k hk => Number.isWord_of_between ha hb ?_ ?_) hfuel
  · simp only [reaches, Bool.or_eq_true, Bool.and_eq_true, decide_eq_true_eq]
    omega
  · simp only [reaches, Bool.or_eq_false_iff, Bool.and_eq_false_iff, decide_eq_false_iff_not]
    omega
  · omega
  · omega

theorem count_down (ha : Number.isWord a) (hb : Number.isWord b)
    (hfuel : (interval a b).length < e.fuel) :
    Counts (count recv b a (-1)) recv (interval a b).reverse e s := by
  rw [length_interval] at hfuel
  rw [reverse_interval]
  refine count_counts (fun k hk => ?_) ?_ (fun k hk => Number.isWord_of_between ha hb ?_ ?_) hfuel
  · simp only [reaches, Bool.or_eq_true, Bool.and_eq_true, decide_eq_true_eq]
    omega
  · simp only [reaches, Bool.or_eq_false_iff, Bool.and_eq_false_iff, decide_eq_false_iff_not]
    omega
  · omega
  · omega

theorem upto_counts (hx : s.payload x = .integer a) (hy : s.payload y = .integer b)
    (ha : Number.isWord a) (hb : Number.isWord b) (hfuel : (interval a b).length < e.fuel) :
    Counts (upto x [y]) x (interval a b) e s := by
  refine (count_up ha hb hfuel).congr fun block => ?_
  simp only [upto, oneArg, Act.run_bind, Act.run_pure, Ending.andThen_ok, needWord_run hx ha,
    needWord_run hy hb]

theorem downto_counts (hx : s.payload x = .integer a) (hy : s.payload y = .integer b)
    (ha : Number.isWord a) (hb : Number.isWord b) (hfuel : (interval a b).length < e.fuel) :
    Counts (downto y [x]) y (interval a b).reverse e s := by
  refine (count_down ha hb hfuel).congr fun block => ?_
  simp only [downto, oneArg, Act.run_bind, Act.run_pure, Ending.andThen_ok, needWord_run hx ha,
    needWord_run hy hb]

theorem times_counts (hx : s.payload x = .integer k) (hk : Number.isWord k) (args : List Value)
    (hfuel : (interval 0 (k - 1)).length < e.fuel) :
    Counts (times x args) x (interval 0 (k - 1)) e s := by
  have hleast : Number.minWord < 0 := by decide
  -- when there is no integer below the last one, there is nothing to count
  have hinterval : interval 0 (max (k - 1) Number.minWord) = interval 0 (k - 1) := by
    rw [interval, spaced, steps, interval, spaced, steps, Int.ediv_one, Int.ediv_one]
    congr 1
    omega
  have hlast : Number.isWord (max (k - 1) Number.minWord) := by
    simp only [Number.isWord, Bool.and_eq_true, decide_eq_true_eq] at *
    omega
  rw [← hinterval] at hfuel ⊢
  refine (count_up (by decide) hlast hfuel).congr fun block => ?_
  simp only [times, Act.run_bind, Ending.andThen_ok, needWord_run hx hk]

theorem times_refused (hx : s.payload x = .integer k) (hk : Number.isWord k = false)
    (args : List Value) (block : Option Value) :
    (times x args block).run e s =
      (argumentError "integer out of range" : Op Value).run e s := by
  simp only [times, needWord, payload, Act.run_bind, run_view, Ending.andThen_ok, hx, hk]
  rfl

end Integers

/-! ## Counting through a range -/

namespace Ranges.OfInts

variable {recv v : Value} {r : Ends} {low k : Int} {l : Limit}

theorem each_counts (hr : OfInts s recv r low l) (hlow : Number.isWord low) (hl : l.isWord)
    (hfuel : (interval low (l.last r.exclusive)).length < e.fuel) (args : List Value) :
    Counts (each recv args) recv (interval low (l.last r.exclusive)) e s :=
  ⟨hr.each_run hlow hl hfuel args, hr.toA_run hlow hl hfuel args none⟩

theorem step_counts (hr : OfInts s recv r low l) (hlow : Number.isWord low) (hl : l.isWord)
    (hv : s.payload v = .integer k) (hword : Number.isWord k) (hk : 0 < k)
    (hfuel : (spaced low (l.last r.exclusive) k).length < e.fuel) :
    Counts (step recv [v]) recv (spaced low (l.last r.exclusive) k) e s := by
  have hfirst : s.word? r.first = some low := by
    rw [Store.word?, hr.first]
    exact if_pos hlow
  have hstride : s.word? v = some k := by
    rw [Store.word?, hv]
    exact if_pos hword
  have hpos : ¬k ≤ 0 := by omega
  refine .of_visits fun block => ?_
  simp only [step, oneArg, Act.run_bind, Act.run_pure, run_view, Ending.andThen_ok,
    endsOf_run hr.range, hfirst, hstride, hpos, if_false, hr.intBounds_run hlow hl, Option.bind_some]
  exact congrArg (Ending.andThen · _) (walkInts_run _ hk (Limit.last_le hl _) hfuel _ s)

/-- A stride of more than 64 bits is taken for the double next to it. -/
theorem step_long {w : Value} (hr : OfInts s recv r low l) (hv : s.payload v = .integer k)
    (hword : Number.isWord k = false) (hw : s.payload w = .float (Decimal.ofInt k))
    (block : Option Value) :
    (step recv [v] block).run e s = (step recv [w] block).run e s := by
  have hlong : s.word? v = none := by
    rw [Store.word?, hv]
    exact if_neg (by rw [hword]; decide)
  have hdouble : s.word? w = none := by rw [Store.word?, hw]
  have hnumber : s.number? v = s.number? w := by rw [Store.number?, Store.number?, hv, hw]
  simp only [step, oneArg, Act.run_bind, Act.run_pure, run_view, Ending.andThen_ok,
    endsOf_run hr.range, hlong, hdouble]
  cases s.word? r.first <;>
    simp only [Act.run_bind, run_view, Ending.andThen_ok, hnumber]

end Ranges.OfInts

/-! ## Between any two integers of 64 bits -/

namespace Ranges

/-- Between any two integers of 64 bits, `upto`, `each` and `step` with one visit every integer from
the one to the other, once each and in increasing order, and `downto` visits them the other way
round; `times` visits the integers from zero to the one before its receiver; and `step` visits those
that are a multiple of its argument away from the first one, as far as the last one. There are no
visits where there are no such integers. All of them end after the last visit: as many rounds as
there are integers, and one more, are enough.

The receiver of `times` and the stride of `step` are integers of 64 bits too. A longer receiver is
refused, and a longer stride walks in doubles, as the double next to it does. -/
theorem counting {recv x y z : Value} {r : Ends} {a b n : Int} (hx : s.payload x = .integer a)
    (hy : s.payload y = .integer b) (hz : s.payload z = .integer n)
    (hr : OfInts s recv r a (.int b)) (hinclusive : r.exclusive = false) (ha : Number.isWord a)
    (hb : Number.isWord b) :
    ((interval a b).Pairwise (· < ·) ∧ ∀ i, i ∈ interval a b ↔ a ≤ i ∧ i ≤ b) ∧
    ((interval a b).length < e.fuel →
      Counts (Integers.upto x [y]) x (interval a b) e s ∧
      Counts (Integers.downto y [x]) y (interval a b).reverse e s ∧
      (∀ args, Counts (each recv args) recv (interval a b) e s) ∧
      (n = 1 → Counts (step recv [z]) recv (interval a b) e s)) ∧
    (Number.isWord n → ∀ args, (interval 0 (n - 1)).length < e.fuel →
      Counts (Integers.times z args) z (interval 0 (n - 1)) e s) ∧
    (Number.isWord n → 0 < n →
      (spaced a b n).Pairwise (· < ·) ∧ (∀ i, i ∈ spaced a b n ↔ i ≤ b ∧ ∃ j : Nat, i = a + j * n) ∧
      ((spaced a b n).length < e.fuel → Counts (step recv [z]) recv (spaced a b n) e s)) ∧
    (Number.isWord n = false → ∀ block,
      (∀ args, (Integers.times z args block).run e s =
        (argumentError "integer out of range" : Op Value).run e s) ∧
      ∀ w, s.payload w = .float (Decimal.ofInt n) →
        (step recv [z] block).run e s = (step recv [w] block).run e s) := by
  have hlast : (Limit.int b).last r.exclusive = b := by
    rw [hinclusive]
    rfl
  have heach := hr.each_counts (e := e) ha hb
  have hstep := hr.step_counts (e := e) ha hb hz
  rw [hlast] at heach hstep
  refine ⟨⟨progression_increasing (by decide), fun i => mem_interval⟩, fun hfuel => ?_,
    fun hn args => Integers.times_counts hz hn args, fun hn hpos => ?_, fun hlong block => ?_⟩
  · refine ⟨Integers.upto_counts hx hy ha hb hfuel, Integers.downto_counts hx hy ha hb hfuel,
      heach hfuel, ?_⟩
    rintro rfl
    exact hstep (by decide) (by decide) hfuel
  · exact ⟨progression_increasing hpos, fun i => mem_spaced hpos, hstep hn hpos⟩
  · exact ⟨fun args => Integers.times_refused hz hlong args block,
      fun w hw => hr.step_long hz hlong hw block⟩

/-- The range of the last three integers of 64 bits, with the number 2 and nil in its place, and with
2 ^ 63 and the double that is as large. -/
def lastWords : Store where
  config := {}
  objects :=
    let plain (p : Payload) : Object := { cls := CoreClass.object.value, payload := p }
    Array.replicate 33 default ++ #[plain .nil, plain (.range ⟨35⟩ ⟨36⟩ false),
      plain (.integer 0x7ffffffffffffffd), plain (.integer Number.maxWord), plain (.integer 2),
      plain (.integer (2 ^ 63)), plain (.float (Decimal.ofInt (2 ^ 63)))]
  scopes := #[]
  frames := []
  scopeStack := []

theorem counting_lastWords :
    Counts (Integers.upto ⟨35⟩ [⟨36⟩]) ⟨35⟩
      [0x7ffffffffffffffd, 0x7ffffffffffffffe, 0x7fffffffffffffff] (.ofFuel 4) lastWords ∧
    Counts (Integers.downto ⟨36⟩ [⟨35⟩]) ⟨36⟩
      [0x7fffffffffffffff, 0x7ffffffffffffffe, 0x7ffffffffffffffd] (.ofFuel 4) lastWords ∧
    Counts (step ⟨34⟩ [⟨37⟩]) ⟨34⟩ [0x7ffffffffffffffd, 0x7fffffffffffffff] (.ofFuel 4) lastWords ∧
    Counts (Integers.times ⟨37⟩ []) ⟨37⟩ [0, 1] (.ofFuel 4) lastWords ∧
    (step ⟨34⟩ [⟨38⟩] none).run (.ofFuel 4) lastWords =
      (step ⟨34⟩ [⟨39⟩] none).run (.ofFuel 4) lastWords := by
  have hr : OfInts lastWords ⟨34⟩ ⟨⟨35⟩, ⟨36⟩, false⟩ 0x7ffffffffffffffd (.int Number.maxWord) := by
    constructor <;> rfl
  obtain ⟨-, hall, htimes, hspaced, -⟩ := counting (e := .ofFuel 4) (x := ⟨35⟩) (y := ⟨36⟩)
    (z := ⟨37⟩) rfl rfl rfl hr rfl rfl rfl
  obtain ⟨-, -, -, -, hlong⟩ := counting (e := .ofFuel 4) (x := ⟨35⟩) (y := ⟨36⟩) (z := ⟨38⟩)
    rfl rfl rfl hr rfl rfl rfl
  obtain ⟨hupto, hdownto, -, -⟩ := hall (by decide)
  exact ⟨hupto, hdownto, (hspaced rfl (by decide)).2.2 (by decide), htimes rfl [] (by decide),
    (hlong rfl none).2 ⟨39⟩ rfl⟩

/-- The integers below 2 ^ 63 are not visited by its `times`, the first one of them included. -/
theorem counting_beyondWords :
    lastWords.payload ⟨38⟩ = .integer (2 ^ 63) ∧ 0 ∈ interval 0 (2 ^ 63 - 1) ∧
      ∀ e block, ¬∃ v t, (Integers.times ⟨38⟩ [] block).run e lastWords = .ok v t := by
  refine ⟨rfl, mem_interval.mpr (by decide), fun e block => ?_⟩
  rw [Integers.times_refused (k := 2 ^ 63) rfl rfl]
  rintro ⟨v, t, ⟨⟩⟩

end Ranges

end Library

end Garnet
