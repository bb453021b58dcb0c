import Garnet.Proofs.Arrays.Sets
import Garnet.Proofs.Equality.Keys
import Garnet.Proofs.Hashes.Sieves

/-!
# Visits of an array

An operation that goes through an array visits one element after another, in the store that the visit
before has left. When nothing on the way changes the array, that is to visit the list of its elements.
The array, and which keys are equal, are not disturbed by objects that are made on the way.
-/

namespace Garnet

open Eval

/-! ## Keys that stay as they are -/

namespace Store

variable {s t : Store} {a b : Value} {n : Nat}

/-- What the arrays hold is there. -/
def Whole (s : Store) : Prop :=
  ∀ v xs, s.array? v = some xs → ∀ w ∈ xs, w.index < s.objects.size

/-- Two values that hold what they held are compared as before, when the elements are. -/
theorem HoldSame.of_payload {r r' : Value → Value → Prop} (ha : t.payload a = s.payload a)
    (hb : t.payload b = s.payload b)
    (hitems : ∀ xs ys, s.payload a = .array xs → s.payload b = .array ys →
      List.Forall₂ r xs.toList ys.toList → List.Forall₂ r' xs.toList ys.toList)
    (h : s.HoldSame r a b) : t.HoldSame r' a b := by
  cases h with
  | itself h => exact .itself h
  | integers hx hy => exact .integers (ha.trans hx) (hb.trans hy)
  | floats hx hy h => exact .floats (ha.trans hx) (hb.trans hy) h
  | texts hx hy => exact .texts (ha.trans hx) (hb.trans hy)
  | symbols hx hy => exact .symbols (ha.trans hx) (hb.trans hy)
  | arrays hx hy h => exact .arrays (ha.trans hx) (hb.trans hy) (hitems _ _ hx hy h)

namespace Keeps

theorem keyEqlWithin (h : s.Keeps t) (hs : s.Whole) (ha : a.index < s.objects.size)
    (hb : b.index < s.objects.size) : t.keyEqlWithin n a b = s.keyEqlWithin n a b := by
  induction n generalizing a b with
  | zero => rfl
  | succ n ih =>
    have hitems (xs ys : Array Value) (hxs : s.payload a = .array xs)
        (hys : s.payload b = .array ys) :
        List.Forall₂ (fun x y => t.keyEqlWithin n x y = true) xs.toList ys.toList ↔
          List.Forall₂ (fun x y => s.keyEqlWithin n x y = true) xs.toList ys.toList := by
      rw [List.forall₂_iff_zip, List.forall₂_iff_zip]
      refine and_congr_right fun _ => forall₃_congr fun x y hmem => ?_
      obtain ⟨hx, hy⟩ := List.of_mem_zip hmem
      rw [ih (hs a xs (array?_eq_some.mpr hxs) x (Array.mem_toList_iff.mp hx))
        (hs b ys (array?_eq_some.mpr hys) y (Array.mem_toList_iff.mp hy))]
    have hta := h.payload ha
    have htb := h.payload hb
    rw [Bool.eq_iff_iff, keyEqlWithin_succ, keyEqlWithin_succ]
    constructor
    · refine .of_payload hta.symm htb.symm fun xs ys hxs hys => ?_
      exact (hitems xs ys (hta.symm.trans hxs) (htb.symm.trans hys)).mp
    · exact .of_payload hta htb fun xs ys hxs hys => (hitems xs ys hxs hys).mpr

/-- Whether keys are equal depends on what there is, and not on what is made later. -/
theorem keyEql (h : s.Keeps t) (hs : s.Whole) (ha : a.index < s.objects.size)
    (hb : b.index < s.objects.size) : t.keyEql a b = s.keyEql a b := by
  rw [Bool.eq_iff_iff, keyEql_iff_exists, keyEql_iff_exists]
  exact exists_congr fun n => by rw [h.keyEqlWithin hs ha hb]

end Keeps

end Store

/-! ## The visits -/

namespace Eval

/-- Visits the values of a list one after another. -/
def visitAll (v : Visit) : List Value → Progress → Op Progress
  | [], p => pure p
  | x :: xs, p => do visitAll v xs (← visitItem v p x).1

variable {e : Engine} {I : Progress → Store → Prop} {recv : Value} {xs : List Value} {v : Visit}
  {p : Progress} {s : Store}

/-- The rounds from a position on visit the elements that are left. -/
theorem repeatFor_arrayRound {i m : Nat} (harray : ∀ p s, I p s → s.array? recv = some xs.toArray)
    (hvisit : ∀ x ∈ xs, ∀ p s out t, I p s → (visitItem v p x).run e s = .ok out t →
      out.2 = false ∧ I out.1 t)
    (hs : I p s) (hi : i ≤ xs.length) (hm : xs.length < i + m) :
    (repeatFor (arrayRound v recv) m (i, p)).run e s = (visitAll v (xs.drop i) p).run e s := by
  induction m generalizing i p s with
  | zero => omega
  | succ m ih =>
    rcases Nat.lt_or_ge i xs.length with hlt | hge
    · have hitem : xs.toArray[i]? = some xs[i] := by
        rw [List.getElem?_toArray, List.getElem?_eq_getElem hlt]
      rw [List.drop_eq_getElem_cons hlt, visitAll, repeatFor, Act.run_bind]
      simp only [Act.run, arrayRound, Act.run_bind, run_view, Ending.andThen_ok, harray p s hs,
        Option.bind_some, hitem]
      cases hrun : (visitItem v p xs[i]).run e s with
      | error => rfl
      | ok out t =>
        obtain ⟨hgoes, ht⟩ := hvisit _ (List.getElem_mem hlt) p s out t hs hrun
        simp only [Ending.andThen_ok, hgoes, Bool.false_eq_true, if_false, Act.run_pure]
        exact ih ht hlt (by omega)
    · have hend : xs.toArray[i]? = none := by simpa using hge
      rw [List.drop_of_length_le hge, visitAll]
      simp only [repeatFor, Act.run, arrayRound, Act.run_bind, run_view, Ending.andThen_ok,
        harray p s hs, Option.bind_some, hend, Act.run_pure]

/-- To walk over an array that stays as it is, is to visit its elements. -/
theorem walk_array_run (harray : ∀ p s, I p s → s.array? recv = some xs.toArray)
    (hvisit : ∀ x ∈ xs, ∀ p s out t, I p s → (visitItem v p x).run e s = .ok out t →
      out.2 = false ∧ I out.1 t)
    (hs : I p s) (hfuel : xs.length < e.fuel) :
    (walk v recv p).run e s = (visitAll v xs p).run e s := by
  have hrounds := repeatFor_arrayRound harray hvisit hs (Nat.zero_le _)
    (hfuel.trans_eq (Nat.zero_add _).symm)
  rw [walk, Act.run_bind, run_view, Ending.andThen_ok, harray p s hs]
  exact hrounds

/-- When every visit goes on, and what holds of the elements before it holds with its own one, the walk
ends with what holds of all elements. -/
theorem walk_array_ends {J : List Value → Progress → Store → Prop}
    (harray : ∀ pre p s, J pre p s → s.array? recv = some xs.toArray)
    (hstep : ∀ pre x p s, pre ++ [x] <+: xs → J pre p s →
      ∃ q t, (visitItem v p x).run e s = .ok (q, false) t ∧ J (pre ++ [x]) q t)
    (hs : J [] p s) (hfuel : xs.length < e.fuel) :
    ∃ q t, (walk v recv p).run e s = .ok q t ∧ J xs q t := by
  have hrounds {pre post : List Value} {p : Progress} {s : Store} (hxs : pre ++ post = xs)
      (hs : J pre p s) (m : Nat) (hm : post.length < m) :
      ∃ q t, (repeatFor (arrayRound v recv) m (pre.length, p)).run e s = .ok q t ∧ J xs q t := by
    induction post generalizing pre p s m with
    | nil =>
      obtain ⟨m, rfl⟩ := Nat.exists_eq_add_of_lt hm
      rw [List.append_nil] at hxs
      have hend : xs.toArray[pre.length]? = none := by
        rw [List.getElem?_toArray, hxs, List.getElem?_eq_none (Nat.le_refl _)]
      refine ⟨p, s, ?_, hxs ▸ hs⟩
      simp only [repeatFor, Act.run, arrayRound, Act.run_bind, run_view, Ending.andThen_ok,
        harray pre p s hs, Option.bind_some, hend, Act.run_pure]
    | cons x post ih =>
      obtain ⟨m, rfl⟩ := Nat.exists_eq_add_of_lt hm
      have hnext : (pre ++ [x]) ++ post = xs := by
        rw [List.append_assoc, List.singleton_append, hxs]
      have hitem : xs.toArray[pre.length]? = some x := by
        rw [List.getElem?_toArray, ← hxs, List.getElem?_append_right (Nat.le_refl _), Nat.sub_self,
          List.getElem?_cons_zero]
      obtain ⟨q, t, hvisit, ht⟩ := hstep pre x p s ⟨post, hnext⟩ hs
      obtain ⟨r, u, hrun, hu⟩ := ih hnext ht ((x :: post).length + m) (by simp; omega)
      refine ⟨r, u, ?_, hu⟩
      rw [List.length_append, List.length_singleton] at hrun
      simp only [repeatFor, Act.run, arrayRound, Act.run_bind, run_view, Ending.andThen_ok,
        harray pre p s hs, Option.bind_some, hitem, hvisit, Bool.false_eq_true, if_false,
        Act.run_pure, hrun]
  obtain ⟨q, t, hrun, ht⟩ := hrounds (List.nil_append xs) hs e.fuel hfuel
  refine ⟨q, t, ?_, ht⟩
  rw [walk, Act.run_bind, run_view, Ending.andThen_ok, harray [] p s hs]
  exact hrun

/-- Wherever `I` holds the array has the elements of the list, and to make more arrays of what there is
does not change that. -/
structure Steady (I : Store → Prop) (recv : Value) (xs : List Value) : Prop where
  array : ∀ s, I s → s.array? recv = some xs.toArray
  whole : ∀ s, I s → s.Whole
  withArray : ∀ s ys, I s → (∀ y ∈ ys, y.index < s.objects.size) → I (s.withArray ys)

theorem Steady.index_lt {I : Store → Prop} {x : Value} (h : Steady I recv xs) (hs : I s)
    (hx : x ∈ xs) : x.index < s.objects.size :=
  h.whole s hs recv _ (h.array s hs) x (List.mem_toArray.mpr hx)

/-- What the block has answered for an element, from a store with `I`. -/
def Answered (e : Engine) (I : Store → Prop) (b x k : Value) : Prop :=
  ∃ s t, I s ∧ (callBlock b [x]).run e s = .ok k t

/-- From every store with `I` the block answers each of the elements, in a store with `I`, and leaves
the arrays as they are. -/
def AnswersEach (e : Engine) (I : Store → Prop) (b : Value) (xs : List Value) : Prop :=
  ∀ x ∈ xs, ∀ s, I s → ∃ k t, (callBlock b [x]).run e s = .ok k t ∧ I t ∧
    k.index < t.objects.size ∧ s.KeepsArrays t

end Eval

end Garnet
