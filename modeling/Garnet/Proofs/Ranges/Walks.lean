import Garnet.Library.Ranges
import Garnet.Proofs.Endings
import Mathlib.Tactic.Positivity
import Mathlib.Tactic.Ring

/-!
# Walks over integers

A walk makes an integer and visits it, then the next one, until the visit says stop or the last
integer has been passed. It is the same as one visit after another for each integer of a list that is
known beforehand.
-/

namespace Garnet

/-! ## Integers at equal distances -/

/-- Integers `step` apart. -/
def progression (low step : Int) : Nat → List Int
  | 0 => []
  | n + 1 => low :: progression (low + step) step n

section Progression

variable {low high step i : Int} {n : Nat}

@[simp] theorem length_progression : (progression low step n).length = n := by
  induction n generalizing low with
  | zero => rfl
  | succ n ih => rw [progression, List.length_cons, ih]

theorem mem_progression : i ∈ progression low step n ↔ ∃ k : Nat, k < n ∧ i = low + k * step := by
  induction n generalizing low with
  | zero => simp [progression]
  | succ n ih =>
    rw [progression, List.mem_cons, ih]
    constructor
    · rintro (rfl | ⟨k, hk, rfl⟩)
      · exact ⟨0, by omega, by simp⟩
      · exact ⟨k + 1, by omega, by push_cast; ring⟩
    · rintro ⟨_ | k, hk, rfl⟩
      · exact .inl (by simp)
      · exact .inr ⟨k, by omega, by push_cast; ring⟩

theorem progression_increasing (hstep : 0 < step) : (progression low step n).Pairwise (· < ·) := by
  induction n generalizing low with
  | zero => exact .nil
  | succ n ih =>
    refine .cons (fun i hi => ?_) ih
    obtain ⟨k, -, rfl⟩ := mem_progression.mp hi
    have : 0 ≤ (k : Int) * step := by positivity
    omega

/-- How many integers `step` apart there are from one to another. -/
def steps (low high step : Int) : Nat := ((high - low) / step + 1).toNat

theorem steps_eq_zero (hstep : 0 < step) (h : high < low) : steps low high step = 0 := by
  have : (high - low) / step < 0 := Int.ediv_neg_of_neg_of_pos (by omega) hstep
  rw [steps]
  omega

theorem steps_eq_succ (hstep : 0 < step) (h : low ≤ high) :
    steps low high step = steps (low + step) high step + 1 := by
  have hdiv : (high - (low + step)) / step = (high - low) / step - 1 := by
    rw [show high - (low + step) = high - low + -1 * step by ring, Int.add_mul_ediv_right _ _ hstep.ne']
    ring
  have : 0 ≤ (high - low) / step := Int.ediv_nonneg (by omega) hstep.le
  rw [steps, steps, hdiv]
  omega

/-- The integers of a range that are `step` apart. -/
def spaced (low high step : Int) : List Int := progression low step (steps low high step)

theorem mem_spaced (hstep : 0 < step) :
    i ∈ spaced low high step ↔ i ≤ high ∧ ∃ k : Nat, i = low + k * step := by
  have hcount (k : Nat) : k < steps low high step ↔ low + k * step ≤ high := by
    have hle : (k : Int) ≤ (high - low) / step ↔ k * step ≤ high - low := Int.le_ediv_iff_mul_le hstep
    rw [steps]
    omega
  rw [spaced, mem_progression]
  constructor
  · rintro ⟨k, hk, rfl⟩
    exact ⟨(hcount k).mp hk, k, rfl⟩
  · rintro ⟨hhigh, k, rfl⟩
    exact ⟨k, (hcount k).mpr hhigh, rfl⟩

/-- The integers from one to another. -/
def interval (low high : Int) : List Int := spaced low high 1

theorem mem_interval : i ∈ interval low high ↔ low ≤ i ∧ i ≤ high := by
  rw [interval, mem_spaced (by decide)]
  constructor
  · rintro ⟨hhigh, k, rfl⟩
    omega
  · rintro ⟨hlow, hhigh⟩
    exact ⟨hhigh, (i - low).toNat, by omega⟩

theorem length_interval : (interval low high).length = (high - low + 1).toNat := by
  rw [interval, spaced, length_progression, steps, Int.ediv_one]

end Progression

/-! ## Visits -/

namespace Library.Ranges

open Eval

variable {σ : Type} {e : Engine}

/-- Visits integers one after another until a visit says stop. -/
def visitInts (visit : σ → Value → Op (σ × Bool)) : List Int → σ → Op σ
  | [], st => pure st
  | i :: is, st => do
    let (st, more) ← visit st (← newInt i)
    if more then visitInts visit is st else pure st

/-- A walk visits the integers `step` apart that it does not go beyond. -/
theorem walkInts_run (visit : σ → Value → Op (σ × Bool)) {high step low : Int} (hstep : 0 < step)
    (hhigh : high ≤ Number.maxWord) (hfuel : (spaced low high step).length < e.fuel) (st : σ)
    (s : Store) :
    (walkInts visit (some high) step low st).run e s =
      (visitInts visit (spaced low high step) st).run e s := by
  -- the same with a fuel of its own, which goes down by one for each integer
  have hloop (n : Nat) (low : Int) (hn : (spaced low high step).length < n) (st : σ) (s : Store) :
      (repeatFor (fun p => do
        if (some high).all (p.1 ≤ ·) then
          let q ← visit p.2 (← newInt p.1)
          pure (if q.2 && p.1 + step ≤ Number.maxWord then .inl (p.1 + step, q.1) else .inr q.1)
        else pure (.inr p.2)) n (low, st)).run e s =
        (visitInts visit (spaced low high step) st).run e s := by
    induction n generalizing low st s with
    | zero => exact absurd hn (Nat.not_lt_zero _)
    | succ n ih =>
      by_cases h : low ≤ high
      · have hspaced : spaced low high step = low :: spaced (low + step) high step := by
          rw [spaced, steps_eq_succ hstep h, progression, ← spaced]
        rw [hspaced, List.length_cons] at hn
        simp only [hspaced, repeatFor, visitInts, Option.all_some, decide_eq_true h, if_true, bind,
          Act.run]
        cases (newInt low).run e s with
        | error stop t => rfl
        | ok v t =>
          dsimp only
          cases (visit st v).run e t with
          | error stop t => rfl
          | ok p u =>
            obtain ⟨st, more⟩ := p
            cases more with
            | false => rfl
            | true =>
              by_cases hnext : low + step ≤ Number.maxWord
              · simp only [pure, Act.run, Bool.true_and, decide_eq_true hnext, if_true]
                exact ih (low + step) (by omega) st u
              · -- the word after the last one is beyond the end as well
                have hnone : spaced (low + step) high step = [] := by
                  rw [spaced, steps_eq_zero hstep (by omega), progression]
                simp only [pure, Act.run, Bool.true_and, decide_eq_false hnext, if_true, hnone,
                  visitInts]
                rfl
      · have hnone : spaced low high step = [] := by
          rw [spaced, steps_eq_zero hstep (by omega), progression]
        simp only [hnone, repeatFor, visitInts, Option.all_some, decide_eq_false h, bind, pure,
          Act.run]
        rfl
  exact hloop e.fuel low hfuel st s

/-- Calls a block with one integer after another. -/
def yieldInts (b : Value) (is : List Int) : Op Unit :=
  is.forM fun i => do discard (callBlock b [← newInt i])

theorem visitInts_yield (b : Value) (is : List Int) (s : Store) :
    (visitInts (fun () v => do
      discard (callBlock b [v])
      pure ((), true)) is ()).run e s = (yieldInts b is).run e s := by
  induction is generalizing s with
  | nil => rfl
  | cons i is ih =>
    rw [yieldInts, Act.run_forM_cons]
    simp only [visitInts, bind, Act.run]
    cases (newInt i).run e s with
    | error stop t => rfl
    | ok v t =>
      dsimp only
      cases (discard (callBlock b [v]) : Op Unit).run e t with
      | error stop u => rfl
      | ok _ u => exact ih u

/-- Makes the integers of a list. -/
def makeInts (is : List Int) : Op (List Value) := is.mapM newInt

theorem makeInts_cons (i : Int) (is : List Int) (s : Store) :
    (makeInts (i :: is)).run e s =
      ((newInt i).run e s).andThen fun v t =>
        ((makeInts is).run e t).andThen fun vs => .ok (v :: vs) := by
  rw [makeInts, Act.run_mapM_cons]
  simp only [Act.run]
  cases (newInt i).run e s with
  | error stop t => rfl
  | ok v t =>
    dsimp only [Ending.andThen_ok]
    rw [← makeInts]
    cases (makeInts is).run e t <;> rfl

/-! ## Values of any kind -/

section Made

variable {α : Type} {make : α → Op Value} {visit : σ → Value → Op (σ × Bool)} {b : Value}

/-- Makes values one after another and visits them, until a visit says stop. -/
def visitMade (make : α → Op Value) (visit : σ → Value → Op (σ × Bool)) : List α → σ → Op σ
  | [], st => pure st
  | x :: xs, st => do
    let (st, more) ← visit st (← make x)
    if more then visitMade make visit xs st else pure st

theorem visitInts_eq (is : List Int) (st : σ) : visitInts visit is st = visitMade newInt visit is st := by
  induction is generalizing st with
  | nil => rfl
  | cons i is ih => simp only [visitInts, visitMade, ih]

/-- Calls a block with one value after another. -/
def yieldMade (make : α → Op Value) (b : Value) (xs : List α) : Op Unit :=
  xs.forM fun x => do discard (callBlock b [← make x])

/-- Visits that hand a value to a block and go on. -/
theorem visitMade_yield {st : σ} (hvisit : ∀ v t, (visit st v).run e t =
      ((discard (callBlock b [v]) : Op Unit).run e t).andThen fun _ => .ok (st, true))
    (xs : List α) (s : Store) :
    (visitMade make visit xs st).run e s =
      (do
        yieldMade make b xs
        pure st).run e s := by
  induction xs generalizing s with
  | nil => rfl
  | cons x xs ih =>
    rw [Act.run_bind, yieldMade, Act.run_forM_cons, visitMade, Act.run_bind, Act.run_bind]
    cases (make x).run e s with
    | error stop t => rfl
    | ok v t =>
      simp only [Ending.andThen_ok, Act.run_bind, hvisit]
      cases (discard (callBlock b [v]) : Op Unit).run e t with
      | error stop u => rfl
      | ok _ u => exact (ih u).trans (Act.run_bind ..)

/-- Visits that keep a value and go on. -/
theorem visitMade_push {visit : Array Value → Value → Op (Array Value × Bool)}
    (hvisit : ∀ out v t, (visit out v).run e t = .ok (out.push v, true) t) (xs : List α)
    (out : Array Value) (s : Store) :
    (visitMade make visit xs out).run e s =
      ((xs.mapM make).run e s).andThen fun vs => .ok (out ++ vs.toArray) := by
  induction xs generalizing out s with
  | nil => exact congrArg (Ending.ok · s) Array.append_empty.symm
  | cons x xs ih =>
    have hmap := Act.run_mapM_cons (e := e) (u := s) make x xs
    simp only [Act.run] at hmap
    rw [hmap, visitMade, Act.run_bind]
    cases (make x).run e s with
    | error stop t => rfl
    | ok v t =>
      simp only [Ending.andThen_ok, Act.run_bind, hvisit]
      refine (ih (out.push v) t).trans ?_
      cases (xs.mapM make).run e t <;> simp

end Made

/-- The integers that fit under a limit of the elements, when some are there already. -/
def within (limit : Option Nat) (taken : Nat) (is : List Int) : List Int :=
  match limit with
  | none => is
  | some n => is.take (n - taken)

theorem visitInts_take (limit : Option Nat) (is : List Int) (out : Array Value)
    (hout : limit.all (out.size < ·)) (s : Store) :
    (visitInts (fun out v =>
      let out := out.push v
      pure (out, limit.all (out.size < ·))) is out).run e s =
      ((makeInts (within limit out.size is)).run e s).andThen fun vs => .ok (out ++ vs.toArray) := by
  induction is generalizing out s with
  | nil =>
    have hnone : within limit out.size [] = [] := by cases limit <;> simp [within]
    rw [hnone]
    exact congrArg (Ending.ok · s) Array.append_empty.symm
  | cons i is ih =>
    have hcons : within limit out.size (i :: is) = i :: within limit (out.size + 1) is := by
      cases limit with
      | none => rfl
      | some n =>
        have : out.size < n := by simpa using hout
        rw [within, within, show n - out.size = n - (out.size + 1) + 1 by omega, List.take_succ_cons]
    rw [hcons, makeInts_cons]
    simp only [visitInts, bind, pure, Act.run]
    cases (newInt i).run e s with
    | error stop t => rfl
    | ok v t =>
      have happend (vs : List Value) : out ++ (v :: vs).toArray = out.push v ++ vs.toArray := by
        simp
      simp only [Ending.andThen_ok, Ending.andThen_assoc, happend]
      by_cases hmore : limit.all ((out.push v).size < ·)
      · rw [if_pos hmore, ← Array.size_push v]
        exact ih (out.push v) hmore t
      · have hnone : within limit (out.size + 1) is = [] := by
          cases limit with
          | none => exact absurd rfl hmore
          | some n =>
            have : ¬out.size + 1 < n := by simpa using hmore
            rw [within, show n - (out.size + 1) = 0 by omega, List.take_zero]
        rw [if_neg hmore, hnone]
        exact congrArg (Ending.ok · t) Array.append_empty.symm

end Library.Ranges

end Garnet
