import Garnet.Library.Iteration
import Garnet.Proofs.Endings
import Mathlib.Data.List.Perm.Basic
import Mathlib.Order.Compare

/-!
# Sorting as a tree of comparisons

A list is sorted stably when nothing stands behind what it exceeds, and the members that compare
equal to one of them are in the order that they came in. The order need not tell the members apart,
and it is one on the members only: what it says of other values does not matter.

Which elements a sort compares next depends on the answers so far and on nothing else. It is a tree,
and the comparison, which may change the store or stop, only chooses a way through it. So what a
sort can come to is read off the tree, and a stop is a stop of the comparison that the way has
led to.
-/

namespace Garnet

/-! ## Sorted rearrangements -/

section Rearrangements

variable {α : Type}

/-- On the members of a list, `ord` is a preorder in which any two of them are related. -/
structure TotalPreorder (ord : α → α → Ordering) (xs : List α) : Prop where
  swap : ∀ x ∈ xs, ∀ y ∈ xs, ord y x = (ord x y).swap
  trans : ∀ x ∈ xs, ∀ y ∈ xs, ∀ z ∈ xs, ord x y ≠ .gt → ord y z ≠ .gt → ord x z ≠ .gt

/-- `ys` are the members of `xs` in the order of `ord`, with those that compare equal to one of them
in the order in which they are in `xs`. -/
structure SortedStably (ord : α → α → Ordering) (xs ys : List α) : Prop where
  perm : ys.Perm xs
  sorted : ys.Pairwise (ord · · ≠ .gt)
  stable : ∀ x ∈ xs, ys.filter (ord x · == .eq) = xs.filter (ord x · == .eq)

/-- Among the members that no other one precedes, `m` is the first. -/
structure FirstLeast (ord : α → α → Ordering) (xs : List α) (m : α) : Prop where
  least : ∀ x ∈ xs, ord m x ≠ .gt
  first : (xs.filter (ord m · == .eq)).head? = some m

variable {ord : α → α → Ordering} {xs ys : List α} {x y z m : α}

namespace TotalPreorder

theorem mono (h : TotalPreorder ord xs) (hsub : ys ⊆ xs) : TotalPreorder ord ys where
  swap x hx y hy := h.swap x (hsub hx) y (hsub hy)
  trans x hx y hy z hz := h.trans x (hsub hx) y (hsub hy) z (hsub hz)

theorem self_eq (h : TotalPreorder ord xs) (hx : x ∈ xs) : ord x x = .eq := by
  have := h.swap x hx x hx
  cases hord : ord x x <;> simp [hord] at this ⊢

theorem gt_iff (h : TotalPreorder ord xs) (hx : x ∈ xs) (hy : y ∈ xs) :
    ord x y = .gt ↔ ord y x = .lt := by
  rw [h.swap x hx y hy]
  cases ord x y <;> decide

/-- What precedes `y` strictly precedes all that `y` does not exceed. -/
theorem lt_of_lt_of_le (h : TotalPreorder ord xs) (hx : x ∈ xs) (hy : y ∈ xs) (hz : z ∈ xs)
    (hxy : ord x y = .lt) (hyz : ord y z ≠ .gt) : ord x z = .lt := by
  rw [← h.gt_iff hz hx]
  by_contra hzx
  exact h.trans y hy z hz x hx hyz hzx ((h.gt_iff hy hx).mpr hxy)

theorem lt_of_le_of_lt (h : TotalPreorder ord xs) (hx : x ∈ xs) (hy : y ∈ xs) (hz : z ∈ xs)
    (hxy : ord x y ≠ .gt) (hyz : ord y z = .lt) : ord x z = .lt := by
  rw [← h.gt_iff hz hx]
  by_contra hzx
  exact h.trans z hz x hx y hy hzx hxy ((h.gt_iff hz hy).mpr hyz)

/-- Members that compare equal compare alike with every other one. -/
theorem eq_left (h : TotalPreorder ord xs) (hx : x ∈ xs) (hy : y ∈ xs) (hz : z ∈ xs)
    (hxy : ord x y = .eq) : ord x z = ord y z := by
  have hyx : ord y x ≠ .gt := by rw [h.swap x hx y hy, hxy]; decide
  have hxy' : ord x y ≠ .gt := by rw [hxy]; decide
  cases hord : ord y z with
  | lt => exact h.lt_of_le_of_lt hx hy hz hxy' hord
  | gt =>
    rw [h.gt_iff hx hz]
    exact h.lt_of_lt_of_le hz hy hx ((h.gt_iff hy hz).mp hord) hyx
  | eq =>
    have hyz : ord y z ≠ .gt := by rw [hord]; decide
    have hzy : ord z y ≠ .gt := by rw [h.swap y hy z hz, hord]; decide
    have hxz := h.trans x hx y hy z hz hxy' hyz
    have hzx := h.trans z hz y hy x hx hzy hyx
    rw [h.swap x hx z hz] at hzx
    revert hxz hzx
    cases ord x z <;> decide

end TotalPreorder

namespace FirstLeast

theorem mem (h : FirstLeast ord xs m) : m ∈ xs :=
  List.mem_of_mem_filter (List.mem_of_mem_head? h.first)

theorem unique (h : FirstLeast ord xs m) (hord : TotalPreorder ord xs) {n : α}
    (hn : FirstLeast ord xs n) : m = n := by
  have heq : ord m n = .eq := by
    have hmn := h.least n hn.mem
    have hnm := hn.least m h.mem
    rw [hord.swap m h.mem n hn.mem] at hnm
    revert hmn hnm
    cases ord m n <;> decide
  have hsame : xs.filter (ord m · == .eq) = xs.filter (ord n · == .eq) :=
    List.filter_congr fun z hz => by rw [hord.eq_left h.mem hn.mem hz heq]
  rw [← Option.some_inj, ← h.first, ← hn.first, hsame]

theorem singleton (hord : TotalPreorder ord [x]) : FirstLeast ord [x] x := by
  have heq := hord.self_eq (List.mem_singleton_self x)
  exact ⟨by simp [heq], by simp [heq]⟩

/-- One more member takes the place of the first least one when it precedes it strictly. -/
theorem concat (hord : TotalPreorder ord (xs ++ [x])) (h : FirstLeast ord xs m) :
    FirstLeast ord (xs ++ [x]) (if ord x m == .lt then x else m) := by
  have hx : x ∈ xs ++ [x] := List.mem_append_right _ (List.mem_singleton_self x)
  have hold : ∀ y ∈ xs, y ∈ xs ++ [x] := fun y => List.mem_append_left _
  have hm := hold m h.mem
  split
  · rename_i hlt
    have hless : ∀ y ∈ xs, ord x y = .lt := fun y hy =>
      hord.lt_of_lt_of_le hx hm (hold y hy) (by simpa using hlt) (h.least y hy)
    have hnone : xs.filter (ord x · == .eq) = [] := by
      simp only [List.filter_eq_nil_iff]
      intro y hy
      simp [hless y hy]
    refine ⟨fun y hy => ?_, ?_⟩
    · obtain hy | hy := List.mem_append.mp hy
      · rw [hless y hy]
        decide
      · rw [List.mem_singleton.mp hy, hord.self_eq hx]
        decide
    · rw [List.filter_append, hnone, List.nil_append, List.filter_singleton]
      simp [hord.self_eq hx]
  · rename_i hge
    refine ⟨fun y hy => ?_, ?_⟩
    · obtain hy | hy := List.mem_append.mp hy
      · exact h.least y hy
      · rw [List.mem_singleton.mp hy, ne_eq, hord.gt_iff hm hx]
        simpa using hge
    · rw [List.filter_append, List.head?_append, h.first, Option.some_or]

end FirstLeast

namespace SortedStably

theorem refl_of_length_le_one (h : xs.length ≤ 1) : SortedStably ord xs xs := by
  refine ⟨.refl _, ?_, fun _ _ => rfl⟩
  match xs, h with
  | [], _ => exact .nil
  | [x], _ => exact List.pairwise_singleton _ x

/-- What a stably sorted list begins with is the first least member. -/
theorem firstLeast_head (hord : TotalPreorder ord xs) (h : SortedStably ord xs (m :: ys)) :
    FirstLeast ord xs m := by
  have hm : m ∈ xs := h.perm.subset List.mem_cons_self
  refine ⟨fun x hx => ?_, ?_⟩
  · obtain rfl | hx := List.mem_cons.mp (h.perm.symm.subset hx)
    · rw [hord.self_eq hm]
      decide
    · exact (List.pairwise_cons.mp h.sorted).1 x hx
  · rw [← h.stable m hm, List.filter_cons_of_pos (by simp [hord.self_eq hm]), List.head?_cons]

/-- Also what compares equal to a value beside the list keeps its order. -/
theorem filter_eq {zs : List α} (h : SortedStably ord xs ys) (hord : TotalPreorder ord zs)
    (hsub : xs ⊆ zs) (hx : x ∈ zs) :
    ys.filter (ord x · == .eq) = xs.filter (ord x · == .eq) := by
  by_cases hex : ∃ c ∈ xs, ord x c = .eq
  · obtain ⟨c, hc, hxc⟩ := hex
    have hsame : ∀ z ∈ xs, ord x z = ord c z :=
      fun z hz => hord.eq_left hx (hsub hc) (hsub hz) hxc
    have hys := List.filter_congr fun z (hz : z ∈ ys) =>
      congrArg (· == Ordering.eq) (hsame z (h.perm.subset hz))
    have hxs := List.filter_congr fun z hz => congrArg (· == Ordering.eq) (hsame z hz)
    rw [hys, hxs, h.stable c hc]
  · -- nothing compares equal to `x`, on either side
    have hnone : ∀ zs : List α, zs ⊆ xs → zs.filter (ord x · == .eq) = [] := fun zs hzs => by
      simp only [List.filter_eq_nil_iff, beq_iff_eq]
      exact fun c hc heq => hex ⟨c, hzs hc, heq⟩
    rw [hnone ys h.perm.subset, hnone xs (List.Subset.refl xs)]

/-- A merge of two sorted lists begins with the first of the left one when the first of the right
one does not precede it strictly. -/
theorem cons_left {a b : α} {as bs ms : List α} (hord : TotalPreorder ord (a :: as ++ b :: bs))
    (hge : ord b a ≠ .lt) (has : (a :: as).Pairwise (ord · · ≠ .gt))
    (hbs : (b :: bs).Pairwise (ord · · ≠ .gt)) (h : SortedStably ord (as ++ b :: bs) ms) :
    SortedStably ord (a :: as ++ b :: bs) (a :: ms) := by
  have ha : a ∈ a :: as ++ b :: bs := List.mem_cons_self
  have hb : b ∈ a :: as ++ b :: bs := by simp
  have hab : ord a b ≠ .gt := by rwa [ne_eq, hord.gt_iff ha hb]
  have hright : ∀ c ∈ b :: bs, ord a c ≠ .gt := fun c hc => by
    obtain rfl | hc' := List.mem_cons.mp hc
    · exact hab
    · exact hord.trans a ha b hb c (List.mem_append_right _ hc) hab
        ((List.pairwise_cons.mp hbs).1 c hc')
  refine ⟨h.perm.cons a, List.pairwise_cons.mpr ⟨fun c hc => ?_, h.sorted⟩, fun x hx => ?_⟩
  · obtain hc | hc := List.mem_append.mp (h.perm.subset hc)
    · exact (List.pairwise_cons.mp has).1 c hc
    · exact hright c hc
  · rw [List.cons_append, List.filter_cons, List.filter_cons,
      h.filter_eq hord (List.subset_cons_self _ _) hx]

/-- It begins with the first of the right list when that one precedes the first of the left one
strictly. -/
theorem cons_right {a b : α} {as bs ms : List α} (hord : TotalPreorder ord (a :: as ++ b :: bs))
    (hlt : ord b a = .lt) (has : (a :: as).Pairwise (ord · · ≠ .gt))
    (hbs : (b :: bs).Pairwise (ord · · ≠ .gt)) (h : SortedStably ord (a :: as ++ bs) ms) :
    SortedStably ord (a :: as ++ b :: bs) (b :: ms) := by
  have hb : b ∈ a :: as ++ b :: bs := by simp
  have hleft : ∀ c ∈ a :: as, ord b c = .lt := fun c hc => by
    obtain rfl | hc' := List.mem_cons.mp hc
    · exact hlt
    · exact hord.lt_of_lt_of_le hb List.mem_cons_self (List.mem_append_left _ hc) hlt
        ((List.pairwise_cons.mp has).1 c hc')
  have hsub : a :: as ++ bs ⊆ a :: as ++ b :: bs :=
    ((List.sublist_cons_self b bs).append_left (a :: as)).subset
  refine ⟨(h.perm.cons b).trans List.perm_middle.symm,
    List.pairwise_cons.mpr ⟨fun c hc => ?_, h.sorted⟩, fun x hx => ?_⟩
  · obtain hc | hc := List.mem_append.mp (h.perm.subset hc)
    · rw [hleft c hc]
      decide
    · exact (List.pairwise_cons.mp hbs).1 c hc
  · rw [List.filter_cons, h.filter_eq hord hsub hx, List.filter_append, List.filter_append,
      List.filter_cons (x := b)]
    split
    · -- nothing on the left compares equal to `b`, so that `b` passes nothing of its class
      rename_i hxb
      have hnone : (a :: as).filter (ord x · == .eq) = [] := by
        simp only [List.filter_eq_nil_iff]
        intro c hc
        rw [hord.eq_left hx hb (List.mem_append_left _ hc) (by simpa using hxb), hleft c hc]
        decide
      rw [hnone, List.nil_append, List.nil_append]
    · rfl

/-- A merge of two stably sorted halves is the whole stably sorted. -/
theorem append {xs' ys' zs : List α} (hord : TotalPreorder ord (xs ++ ys))
    (hxs : SortedStably ord xs xs') (hys : SortedStably ord ys ys')
    (h : SortedStably ord (xs' ++ ys') zs) : SortedStably ord (xs ++ ys) zs := by
  have hperm := hxs.perm.append hys.perm
  refine ⟨h.perm.trans hperm, h.sorted, fun x hx => ?_⟩
  rw [h.filter_eq hord hperm.subset hx, List.filter_append, List.filter_append,
    hxs.filter_eq hord (List.subset_append_left _ _) hx,
    hys.filter_eq hord (List.subset_append_right _ _) hx]

end SortedStably

end Rearrangements

/-! ## Ways of sorting -/

open Eval

/-- A way of sorting: the result, or two elements and how it goes on with each answer. -/
inductive Sorting where
  | done (ys : List Value)
  | compare (x y : Value) (next : Ordering → Sorting)

variable {cmp : Value → Value → Op Ordering} {e : Engine}

/-- Whether a comparison puts its first element strictly before the second. -/
def Eval.lessBy (cmp : Value → Value → Op Ordering) (x y : Value) : Op Bool := do
  pure ((← cmp x y) == .lt)

/-- The sort by a comparison that tells three orders apart. -/
def Eval.sortedWith (cmp : Value → Value → Op Ordering) (xs : List Value) : Op (List Value) :=
  sortBy (lessBy cmp) xs.length xs

namespace Sorting

def bind : Sorting → (List Value → Sorting) → Sorting
  | done ys, f => f ys
  | compare x y next, f => compare x y fun o => (next o).bind f

/-- Goes through a tree with the answers of `cmp`. -/
def run (cmp : Value → Value → Op Ordering) (e : Engine) : Sorting → Run (List Value)
  | done ys, s => .ok ys s
  | compare x y next, s => ((cmp x y).run e s).andThen fun o => (next o).run cmp e

/-- The way through a tree leads to the comparison of `x` with `y` in the store `u`. -/
inductive Meets (cmp : Value → Value → Op Ordering) (e : Engine) :
    Sorting → Store → Value → Value → Store → Prop
  | here {x y : Value} {next : Ordering → Sorting} {s : Store} :
    Meets cmp e (compare x y next) s x y s
  | later {x y x' y' : Value} {next : Ordering → Sorting} {o : Ordering} {s t u : Store}
      (answer : (cmp x y).run e s = .ok o t) (rest : Meets cmp e (next o) t x' y' u) :
    Meets cmp e (compare x y next) s x' y' u

/-- Every way through a tree along answers that `A` allows compares members of `S` only, and ends
with a list that satisfies `P`. -/
def Ends (S : List Value) (A : Value → Value → Ordering → Prop) (P : List Value → Prop) :
    Sorting → Prop
  | done ys => P ys
  | compare x y next => x ∈ S ∧ y ∈ S ∧ ∀ o, A x y o → (next o).Ends S A P

/-- Merges two lists behind `out`, which is in reverse. -/
def merge : List Value → List Value → List Value → Sorting
  | a :: as, b :: bs, out => compare b a fun o =>
    if o == .lt then merge (a :: as) bs (b :: out) else merge as (b :: bs) (a :: out)
  | as, bs, out => done (out.reverse ++ as ++ bs)
termination_by as bs => as.length + bs.length

/-- The merge sort of a list. -/
def ofList (xs : List Value) : Sorting :=
  if xs.length ≤ 1 then done xs
  else (ofList (xs.take (xs.length / 2))).bind fun left =>
    (ofList (xs.drop (xs.length / 2))).bind fun right => merge left right []
termination_by xs.length
decreasing_by
  all_goals
    simp only [List.length_take, List.length_drop]
    omega

variable {S xs ys : List Value} {A : Value → Value → Ordering → Prop} {P Q : List Value → Prop}
  {T : Sorting} {s t : Store} {stop : Stop}

theorem run_bind (T : Sorting) (f : List Value → Sorting) (s : Store) :
    (T.bind f).run cmp e s = (T.run cmp e s).andThen fun ys => (f ys).run cmp e := by
  induction T generalizing s with
  | done ys => rfl
  | compare x y next ih =>
    simp only [bind, run, Ending.andThen_assoc]
    exact congrArg _ (funext fun o => funext fun t => ih o t)

/-- A sort stops with a signal exactly when a comparison that it makes does. -/
theorem run_error_iff :
    T.run cmp e s = .error stop t ↔
      ∃ x y u, T.Meets cmp e s x y u ∧ (cmp x y).run e u = .error stop t := by
  constructor
  · intro h
    induction T generalizing s with
    | done ys => cases h
    | compare x y next ih =>
      cases hcmp : (cmp x y).run e s with
      | error stop' t' =>
        simp only [run, hcmp, Ending.andThen_error] at h
        cases h
        exact ⟨x, y, s, .here, hcmp⟩
      | ok o t' =>
        simp only [run, hcmp, Ending.andThen_ok] at h
        obtain ⟨x', y', u, hmeets, hstop⟩ := ih o h
        exact ⟨x', y', u, .later hcmp hmeets, hstop⟩
  · rintro ⟨x, y, u, hmeets, hstop⟩
    induction hmeets with
    | here => simp only [run, hstop, Ending.andThen_error]
    | later answer rest ih => simp only [run, answer, Ending.andThen_ok, ih hstop]

namespace Ends

theorem bind {f : List Value → Sorting} (h : T.Ends S A P)
    (hf : ∀ ys, P ys → (f ys).Ends S A Q) : (T.bind f).Ends S A Q := by
  induction T with
  | done ys => exact hf ys h
  | compare x y next ih => exact ⟨h.1, h.2.1, fun o ho => ih o (h.2.2 o ho)⟩

theorem mono (h : T.Ends S A P) {S' : List Value} (hS : S ⊆ S') (hP : ∀ ys, P ys → Q ys) :
    T.Ends S' A Q := by
  induction T with
  | done ys => exact hP ys h
  | compare x y next ih => exact ⟨hS h.1, hS h.2.1, fun o ho => ih o (h.2.2 o ho)⟩

/-- What is so at the end of every way is so when a run has ended. -/
theorem of_run (h : T.Ends S (fun _ _ _ => True) P) (hrun : T.run cmp e s = .ok ys t) :
    P ys := by
  induction T generalizing s with
  | done ys => cases hrun; exact h
  | compare x y next ih =>
    cases hcmp : (cmp x y).run e s with
    | error => simp only [run, hcmp, Ending.andThen_error] at hrun; cases hrun
    | ok o u =>
      simp only [run, hcmp, Ending.andThen_ok] at hrun
      exact ih o (h.2.2 o trivial) hrun

/-- A run whose comparisons all give an answer that `A` allows does end. -/
theorem run_ok {I : Store → Prop} (h : T.Ends S A P)
    (hcmp : ∀ x ∈ S, ∀ y ∈ S, ∀ s, I s → ∃ o t, (cmp x y).run e s = .ok o t ∧ A x y o ∧ I t)
    (hs : I s) : ∃ ys t, T.run cmp e s = .ok ys t ∧ P ys ∧ I t := by
  induction T generalizing s with
  | done ys => exact ⟨ys, s, rfl, h, hs⟩
  | compare x y next ih =>
    obtain ⟨hx, hy, hnext⟩ := h
    obtain ⟨o, u, hrun, ho, hu⟩ := hcmp x hx y hy s hs
    obtain ⟨ys, t, hrest, hys, ht⟩ := ih o (hnext o ho) hu
    refine ⟨ys, t, ?_, hys, ht⟩
    simp only [run, hrun, Ending.andThen_ok, hrest]

end Ends

/-! ## What the merge sort comes to -/

/-- `ms` is a merge of two lists in which answers that `A` allows have decided what comes next. -/
inductive Merged (A : Value → Value → Ordering → Prop) :
    List Value → List Value → List Value → Prop
  | left {a b : Value} {as bs ms : List Value} {o : Ordering} (answer : A b a o) (ge : o ≠ .lt)
      (rest : Merged A as (b :: bs) ms) : Merged A (a :: as) (b :: bs) (a :: ms)
  | right {a b : Value} {as bs ms : List Value} {o : Ordering} (answer : A b a o) (lt : o = .lt)
      (rest : Merged A (a :: as) bs ms) : Merged A (a :: as) (b :: bs) (b :: ms)
  | nil_left (bs : List Value) : Merged A [] bs bs
  | nil_right (as : List Value) : Merged A as [] as

namespace Merged

variable {as bs ms : List Value} {ord : Value → Value → Ordering}

theorem perm (h : Merged A as bs ms) : ms.Perm (as ++ bs) := by
  induction h with
  | left _ _ _ ih => exact ih.cons _
  | right _ _ _ ih => exact (ih.cons _).trans List.perm_middle.symm
  | nil_left bs => exact .refl _
  | nil_right as => rw [List.append_nil]

/-- A merge of sorted lists is sorted stably when the answers are those of an order. -/
theorem sortedStably (h : Merged A as bs ms) (hA : ∀ x y o, A x y o → o = ord x y)
    (hord : TotalPreorder ord (as ++ bs)) (has : as.Pairwise (ord · · ≠ .gt))
    (hbs : bs.Pairwise (ord · · ≠ .gt)) : SortedStably ord (as ++ bs) ms := by
  induction h with
  | left answer ge _ ih =>
    have hrest := ih (hord.mono (List.subset_cons_self _ _)) has.of_cons hbs
    exact hrest.cons_left hord (hA _ _ _ answer ▸ ge) has hbs
  | right answer lt _ ih =>
    have hrest := ih (hord.mono ((List.sublist_cons_self _ _).append_left _).subset) has hbs.of_cons
    exact hrest.cons_right hord (hA _ _ _ answer ▸ lt) has hbs
  | nil_left bs => exact ⟨.refl _, hbs, fun _ _ => rfl⟩
  | nil_right as =>
    rw [List.append_nil]
    exact ⟨.refl _, has, fun _ _ => rfl⟩

end Merged

theorem merge_ends (as bs out : List Value) (has : as ⊆ S) (hbs : bs ⊆ S) :
    (merge as bs out).Ends S A fun zs => ∃ ms, zs = out.reverse ++ ms ∧ Merged A as bs ms := by
  fun_induction merge as bs out with
  | case1 a as b bs out ih_right ih_left =>
    refine ⟨hbs List.mem_cons_self, has List.mem_cons_self, fun o ho => ?_⟩
    dsimp only
    split
    · rename_i hlt
      refine (ih_right has (List.subset_of_cons_subset hbs)).mono (List.Subset.refl S) ?_
      rintro _ ⟨ms, rfl, hms⟩
      exact ⟨b :: ms, by simp, .right ho (by simpa using hlt) hms⟩
    · rename_i hge
      refine (ih_left (List.subset_of_cons_subset has) hbs).mono (List.Subset.refl S) ?_
      rintro _ ⟨ms, rfl, hms⟩
      exact ⟨a :: ms, by simp, .left ho (by simpa using hge) hms⟩
  | case2 as bs out hnot =>
    refine ⟨as ++ bs, by rw [List.append_assoc], ?_⟩
    obtain _ | ⟨a, as⟩ := as
    · exact .nil_left bs
    obtain _ | ⟨b, bs⟩ := bs
    · rw [List.append_nil]
      exact .nil_right _
    · exact (hnot a as b bs rfl rfl).elim

/-- A rearrangement that is a stably sorted one if the answers are those of an order. -/
def Rearranged (A : Value → Value → Ordering → Prop) (xs ys : List Value) : Prop :=
  ys.Perm xs ∧ ∀ ord, (∀ x y o, A x y o → o = ord x y) → TotalPreorder ord xs →
    SortedStably ord xs ys

theorem ofList_ends (xs : List Value) : (ofList xs).Ends xs A (Rearranged A xs) := by
  fun_induction ofList xs with
  | case1 xs hone => exact ⟨.refl _, fun _ _ _ => .refl_of_length_le_one hone⟩
  | case2 xs _ ih_left ih_right =>
    refine (ih_left.mono (List.take_subset _ _) fun _ => id).bind fun left hleft =>
      (ih_right.mono (List.drop_subset _ _) fun _ => id).bind fun right hright => ?_
    have hls := List.Subset.trans hleft.1.subset (List.take_subset _ xs)
    have hrs := List.Subset.trans hright.1.subset (List.drop_subset _ xs)
    refine (merge_ends left right [] hls hrs).mono (List.Subset.refl xs) ?_
    rintro _ ⟨ms, rfl, hms⟩
    have hhalves := List.take_append_drop (xs.length / 2) xs
    refine ⟨?_, fun ord hA hord => ?_⟩
    · exact hms.perm.trans (hhalves ▸ hleft.1.append hright.1)
    · have hl := hleft.2 ord hA (hord.mono (List.take_subset _ _))
      have hr := hright.2 ord hA (hord.mono (List.drop_subset _ _))
      have hm := hms.sortedStably hA
        (hord.mono (List.append_subset.mpr ⟨hls, hrs⟩)) hl.sorted hr.sorted
      rw [← hhalves] at hord
      exact hhalves ▸ hl.append hord hr hm

/-! ## The sort is that tree -/

theorem merge_run (n : Nat) (as bs out : List Value) (hn : as.length + bs.length < n)
    (s : Store) :
    (mergeBy (lessBy cmp) n as bs out).run e s = (merge as bs out).run cmp e s := by
  fun_induction merge as bs out generalizing n s with
  | case1 a as b bs out ih_right ih_left =>
    obtain ⟨n, rfl⟩ := Nat.exists_eq_succ_of_ne_zero (Nat.ne_zero_of_lt hn)
    simp only [List.length_cons] at hn
    simp only [mergeBy, lessBy, run, Act.run_bind, Ending.andThen_assoc, Act.run_pure,
      Ending.andThen_ok]
    refine congrArg _ (funext fun o => funext fun t => ?_)
    split
    · exact ih_right n (by simp only [List.length_cons]; omega) t
    · exact ih_left n (by simp only [List.length_cons]; omega) t
  | case2 as bs out hnot =>
    obtain ⟨n, rfl⟩ := Nat.exists_eq_succ_of_ne_zero (Nat.ne_zero_of_lt hn)
    rw [mergeBy]
    · rfl
    · exact Nat.succ_ne_zero n
    · exact fun k a as b bs _ => hnot a as b bs

theorem sortedWith_run (xs : List Value) (s : Store) :
    (sortedWith cmp xs).run e s = (ofList xs).run cmp e s := by
  have halving (n : Nat) (hn : xs.length ≤ n) :
      (sortBy (lessBy cmp) n xs).run e s = (ofList xs).run cmp e s := by
    fun_induction ofList xs generalizing n s with
    | case1 xs hone =>
      cases n with
      | zero => rfl
      | succ n =>
        rw [sortBy, if_pos hone]
        rfl
    | case2 xs hone ih_left ih_right =>
      obtain ⟨n, rfl⟩ := Nat.exists_eq_succ_of_ne_zero (n := n) (by omega)
      have hleft (s : Store) := ih_left s n (by rw [List.length_take]; omega)
      have hright (s : Store) := ih_right s n (by rw [List.length_drop]; omega)
      rw [sortBy, if_neg hone]
      simp only [Act.run_bind, run_bind, hleft]
      cases hl : (ofList (xs.take (xs.length / 2))).run cmp e s with
      | error => rfl
      | ok left t =>
        simp only [Ending.andThen_ok, Act.run_bind, run_bind, hright]
        cases hr : (ofList (xs.drop (xs.length / 2))).run cmp e t with
        | error => rfl
        | ok right u =>
          -- the halves are as long as what they were made from, so the fuel is enough
          have hlen := ((ofList_ends _).of_run hl).1.length_eq
          have hlen' := ((ofList_ends _).of_run hr).1.length_eq
          rw [List.length_take] at hlen
          rw [List.length_drop] at hlen'
          exact merge_run _ left right [] (by omega) u
  exact halving xs.length (Nat.le_refl _)

end Sorting

end Garnet
