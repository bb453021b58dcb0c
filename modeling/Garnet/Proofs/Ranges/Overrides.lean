import Garnet.Proofs.Ranges.ClosedForms

/-!
# Counts and extremes of ranges

A range has operations of its own for `count`, `min` and `max`, and these look at neither their
arguments nor their block. This says in which cases that makes no difference to what the array of the
elements answers.
-/

namespace Garnet

open Eval

/-! ## Integers stay what they are -/

/-- What is fixed stays, and the settings do. -/
theorem Lasting.fixed :
    Lasting fun s t => (∀ v p, p.Fixed → s.payload v = p → t.payload v = p) ∧ t.config = s.config where
  trans h h' := ⟨fun v p hp hv => h'.1 v p hp (h.1 v p hp hv), h'.2.trans h.2⟩
  of_same h := ⟨fun v _ _ hv => (Store.payload_of_objects h.objects v).trans hv, h.config⟩
  exception _ _ _ :=
    ⟨fun _ _ hp hv => (Edited.newException _ _).payload_eq hp hv,
      (Level.of_edited (.newException _ _)).config⟩
  change c _ hc :=
    ⟨fun _ _ hp hv => (Edited.change c hc).payload_eq hp hv,
      (Level.of_edited (.change c hc)).config⟩

section Run

variable {α : Type} {x : Op α} {a : α} {n : Nat} {s t : Store} {vs : List Value} {is : List Int}

theorem payload_of_run (hrun : x.run (.ofFuel n) s = .ok a t) {v : Value} {p : Payload}
    (hp : p.Fixed) (hv : s.payload v = p) : t.payload v = p :=
  (Lasting.fixed.kept.outcome_ok (p := ⟨n, x, s⟩) hrun).1 v p hp hv

theorem Store.Ints.of_run (h : s.Ints vs is) (hrun : x.run (.ofFuel n) s = .ok a t) : t.Ints vs is :=
  h.imp fun _ i hv => payload_of_run (p := .integer i) hrun trivial hv

theorem Store.IntegersCached.of_run (hs : s.IntegersCached) (hrun : x.run (.ofFuel n) s = .ok a t) :
    t.IntegersCached := by
  intro i hi
  have hconfig : t.config = s.config :=
    (Lasting.fixed.kept.outcome_ok (p := ⟨n, x, s⟩) hrun).2
  rw [hconfig] at hi ⊢
  exact payload_of_run hrun trivial (hs i hi)

end Run

namespace Library.Ranges

variable {s t u : Store} {e : Engine} {recv l b v : Value} {r : Ends} {low i : Int} {n : Nat}
  {d d' : Datum} {x y : Op Value} {vs : List Value} {is : List Int} {want : Ordering}

/-! ## Agreement -/

/-- Both runs give values that stand for one datum. -/
def Agree (x y : Op Value) (e : Engine) (s : Store) : Prop := ∃ d, BothGive x y e s d

theorem Gives.unique (h : Gives x e s d) (h' : Gives x e s d') : d = d' := by
  obtain ⟨v, t, hrun, hv⟩ := h
  obtain ⟨w, u, hrun', hw⟩ := h'
  cases hrun.symm.trans hrun'
  exact hv.unique hw

theorem agree_iff (hx : Gives x e s d) : Agree x y e s ↔ Gives y e s d :=
  ⟨fun ⟨_, hx', hy⟩ => hx.unique hx' ▸ hy, fun hy => ⟨d, hx, hy⟩⟩

theorem gives_iff_of_run {w : Value} (hrun : x.run e s = .ok w t) : Gives x e s d ↔ t.Denotes w d := by
  constructor
  · rintro ⟨v, u, hrun', hv⟩
    cases hrun.symm.trans hrun'
    exact hv
  · exact fun hw => ⟨w, t, hrun, hw⟩

theorem gives_congr (h : x.run e s = y.run e s) : Gives x e s d ↔ Gives y e s d := by
  rw [Gives, Gives, h]

theorem gives_bind_iff {α : Type} {x : Op α} {f : α → Op Value} :
    Gives (x >>= f) e s d ↔ ∃ a t, x.run e s = .ok a t ∧ Gives (f a) e t d := by
  constructor
  · rintro ⟨v, u, hrun, hv⟩
    obtain ⟨a, t, hx, hf⟩ := Act.run_bind_ok hrun
    exact ⟨a, t, hx, v, u, hf, hv⟩
  · rintro ⟨a, t, hx, v, u, hf, hv⟩
    exact ⟨v, u, by rw [Act.run_bind, hx, Ending.andThen_ok, hf], hv⟩

theorem gives_newInt_iff (hs : s.IntegersCached) : Gives (newInt i) e s d ↔ d = .integer i := by
  have hi : Gives (newInt i) e s (.integer i) := .of_makes (newInt_makes hs i)
  exact ⟨fun h => h.unique hi, fun h => h ▸ hi⟩

/-- The store in which a call runs. -/
def called (s : Store) : Store := { s with depth := s.depth + 1 }

theorem deeper_ok {x : Run Value} {v : Value} (hdepth : s.depth < s.config.maxDepth)
    (h : x (called s) = .ok v t) : Engine.deeper x s = .ok v { t with depth := t.depth - 1 } := by
  rw [called] at h
  simp only [Engine.deeper, if_neg (Nat.not_le_of_lt hdepth), h]

theorem deeper_error {x : Run Value} {stop : Stop} (hdepth : s.depth < s.config.maxDepth)
    (h : x (called s) = .error stop t) :
    Engine.deeper x s = .error stop { t with depth := t.depth - 1 } := by
  rw [called] at h
  simp only [Engine.deeper, if_neg (Nat.not_le_of_lt hdepth), h]

/-- What a message gives is what the operation gives that answers it. -/
theorem onArray_gives_iff {name : String} {f : Native} {args : List Value} {block : Option Value}
    (htoA : (toA recv [] none).run (.ofFuel (n + 2)) s = .ok l t) (hanswers : t.AnswersWith l name f)
    (hdepth : t.depth < t.config.maxDepth) :
    Gives (onArray recv name args block) (.ofFuel (n + 2)) s d ↔
      Gives (f l args block) (.ofFuel n) (called t) d := by
  obtain ⟨_, _, hfind, hm, hf⟩ := hanswers
  have hrun : (onArray recv name args block).run (.ofFuel (n + 2)) s =
      Engine.deeper ((f l args block).run (.ofFuel n)) t := by
    rw [onArray, Act.run_bind, htoA, Ending.andThen_ok, send_run hfind hm hf]
  cases hf : (f l args block).run (.ofFuel n) (called t) with
  | ok w u =>
    rw [deeper_ok hdepth hf] at hrun
    rw [gives_iff_of_run hrun, gives_iff_of_run hf]
    exact Store.denotes_iff_of_objects (s := u) (t := { u with depth := u.depth - 1 }) rfl
  | error stop u =>
    rw [deeper_error hdepth hf] at hrun
    constructor
    · rintro ⟨v, u, hv, -⟩
      cases hrun.symm.trans hv
    · rintro ⟨v, u, hv, -⟩
      cases hf.symm.trans hv

/-! ## Counting -/

/-- The block is called with one value after another, and accepts those marked. -/
inductive Accepts (e : Engine) (b : Value) : Store → List Value → List Bool → Store → Prop
  | nil {s : Store} : Accepts e b s [] [] s
  | cons {s t u : Store} {v w : Value} {vs : List Value} {accepted : List Bool}
      (hcall : (callBlock b [v]).run e s = .ok w t) (hrest : Accepts e b t vs accepted u) :
      Accepts e b s (v :: vs) (w.truthy :: accepted) u

theorem Accepts.length_eq {accepted : List Bool} (h : Accepts e b s vs accepted u) :
    accepted.length = vs.length := by
  induction h with
  | nil => rfl
  | cons _ _ ih => exact congrArg (· + 1) ih

/-- One more if the element passes the test. -/
def countOne (test : Option Test) (n : Nat) (v : Value) : Op Nat := do
  let hit ← match test with
    | some t => Test.holds t v
    | none => pure true
  pure (if hit then n + 1 else n)

theorem countOne_block_run (k : Nat) : (countOne (some (.block b)) k v).run e s =
    ((callBlock b [v]).run e s).andThen fun w => .ok (if w.truthy then k + 1 else k) := by
  simp only [countOne, Test.holds, Act.run_bind, Ending.andThen_assoc, Act.run_pure,
    Ending.andThen_ok]

theorem foldlM_countOne_iff {k m : Nat} :
    (vs.foldlM (countOne (some (.block b))) k).run e s = .ok m u ↔
      ∃ accepted, Accepts e b s vs accepted u ∧ m = k + accepted.count true := by
  induction vs generalizing k s with
  | nil =>
    constructor
    · intro h
      cases h
      exact ⟨[], .nil, rfl⟩
    · rintro ⟨_, ⟨⟩, rfl⟩
      rfl
  | cons v vs ih =>
    rw [List.foldlM_cons, Act.run_bind, countOne_block_run, Ending.andThen_assoc]
    cases hcall : (callBlock b [v]).run e s with
    | error stop t =>
      refine iff_of_false nofun ?_
      rintro ⟨_, haccepts, -⟩
      cases haccepts with
      | cons hcall' => cases hcall.symm.trans hcall'
    | ok w t =>
      simp only [Ending.andThen_ok, ih]
      have hstep (accepted : List Bool) : (if w.truthy then k + 1 else k) + accepted.count true =
          k + (w.truthy :: accepted).count true := by
        rw [List.count_cons]
        cases w.truthy <;> simp; omega
      constructor
      · rintro ⟨accepted, hrest, rfl⟩
        exact ⟨_, .cons hcall hrest, hstep accepted⟩
      · rintro ⟨_, haccepts, rfl⟩
        cases haccepts with
        | cons hcall' hrest =>
          cases hcall.symm.trans hcall'
          exact ⟨_, hrest, (hstep _).symm⟩

theorem foldlM_countOne_equals {k : Nat} (hvs : s.Ints vs is) (hv : s.payload v = .integer i) :
    (vs.foldlM (countOne (some (.equals v))) k).run e s = .ok (k + is.count i) s := by
  induction hvs generalizing k with
  | nil => rfl
  | @cons w j vs is hw _ ih =>
    have hone : (countOne (some (.equals v)) k w).run e s =
        .ok (if j == i then k + 1 else k) s := by
      simp only [countOne, Test.holds, Act.run_bind, equals_integers_run hw hv, Ending.andThen_ok,
        Act.run_pure]
    rw [List.foldlM_cons, Act.run_bind, hone, Ending.andThen_ok, ih, List.count_cons]
    congr 1
    split <;> omega

/-! ## Extremes by a block -/

/-- The search for an extreme element goes on from the best one so far. The block orders each element
against that one, and the element takes its place if the order is the wanted one. -/
inductive Search (e : Engine) (b : Value) (want : Ordering) :
    Store → Option Value → List Value → List Ordering → Option Value → Store → Prop
  | done {s : Store} {best : Option Value} : Search e b want s best [] [] best s
  | first {s u : Store} {x : Value} {xs : List Value} {os : List Ordering} {k : Option Value}
      (hrest : Search e b want s (some x) xs os k u) : Search e b want s none (x :: xs) os k u
  | next {s t u : Store} {m x : Value} {xs : List Value} {o : Ordering} {os : List Ordering}
      {k : Option Value} (hcompare : (blockOrder b x m).run e s = .ok o t)
      (hrest : Search e b want t (some (if o == want then x else m)) xs os k u) :
      Search e b want s (some m) (x :: xs) (o :: os) k u

theorem extreme_run_iff {best k : Option Value} :
    (Enumerable.extreme (blockOrder b) want vs best).run e s = .ok k u ↔
      ∃ os, Search e b want s best vs os k u := by
  induction vs generalizing best s with
  | nil =>
    constructor
    · intro h
      cases h
      exact ⟨[], .done⟩
    · rintro ⟨_, ⟨⟩⟩
      rfl
  | cons x xs ih =>
    cases best with
    | none =>
      rw [Enumerable.extreme, ih]
      constructor
      · rintro ⟨os, h⟩
        exact ⟨os, .first h⟩
      · rintro ⟨os, h⟩
        cases h with
        | first h => exact ⟨os, h⟩
    | some m =>
      rw [Enumerable.extreme, Act.run_bind]
      cases hcompare : (blockOrder b x m).run e s with
      | error stop t =>
        refine iff_of_false (by simp [Ending.andThen]) ?_
        rintro ⟨_, h⟩
        cases h with
        | next hcompare' => cases hcompare.symm.trans hcompare'
      | ok o t =>
        rw [Ending.andThen_ok, ih]
        constructor
        · rintro ⟨os, h⟩
          exact ⟨_, .next hcompare h⟩
        · rintro ⟨_, h⟩
          cases h with
          | next hcompare' h =>
            cases hcompare.symm.trans hcompare'
            exact ⟨_, h⟩

/-- Over increasing integers the search ends with the first one when no later one was preferred, and
with the last one when that was preferred in the end. -/
theorem Search.ends {m : Value} {j : Int} {os : List Ordering} {k : Option Value}
    (h : Search (.ofFuel n) b want s (some m) vs os k u) (hm : s.payload m = .integer j)
    (hvs : s.Ints vs is) (hinc : (j :: is).Pairwise (· < ·)) :
    ∃ w i, k = some w ∧ u.payload w = .integer i ∧ i ∈ j :: is ∧
      (i = j ↔ ∀ o ∈ os, o ≠ want) ∧
      (some i = (j :: is).getLast? ↔ ∀ o ∈ os.getLast?, o = want) := by
  induction vs generalizing s m j is os with
  | nil =>
    cases hvs
    cases h
    exact ⟨m, j, rfl, hm, List.mem_cons_self, by simp, by simp⟩
  | cons x xs ih =>
    cases hvs with
    | @cons _ i₁ _ js hx hxs =>
      cases h with
      | @next _ t _ _ _ _ o os _ hcompare hrest =>
        have hlater : ∀ i ∈ i₁ :: js, j < i := (List.pairwise_cons.mp hinc).1
        have hx : t.payload x = .integer i₁ := payload_of_run (p := .integer i₁) hcompare trivial hx
        have hm : t.payload m = .integer j := payload_of_run (p := .integer j) hcompare trivial hm
        have hxs : t.Ints xs js := Store.Ints.of_run hxs hcompare
        by_cases ho : o = want
        · rw [if_pos (beq_iff_eq.mpr ho)] at hrest
          obtain ⟨w, i, hk, hw, hi, -, hlast⟩ := ih hrest hx hxs (List.pairwise_cons.mp hinc).2
          refine ⟨w, i, hk, hw, List.mem_cons_of_mem _ hi, ?_, ?_⟩
          · exact iff_of_false (hlater i hi).ne' fun h => h o List.mem_cons_self ho
          · rw [List.getLast?_cons_cons, hlast]
            cases os with
            | nil => simp [ho]
            | cons => rw [List.getLast?_cons_cons]
        · rw [if_neg (mt beq_iff_eq.mp ho)] at hrest
          have hinc' : (j :: js).Pairwise (· < ·) :=
            .cons (fun i hi => hlater i (List.mem_cons_of_mem _ hi))
              (List.pairwise_cons.mp (List.pairwise_cons.mp hinc).2).2
          obtain ⟨w, i, hk, hw, hi, hfirst, hlast⟩ := ih hrest hm hxs hinc'
          refine ⟨w, i, hk, hw, ?_, ?_, ?_⟩
          · exact List.cons_subset_cons _ (List.subset_cons_self ..) hi
          · rw [hfirst, List.forall_mem_cons, and_iff_right ho]
          · cases hxs with
            | nil =>
              cases hrest
              have hne : i ≠ i₁ := (List.mem_singleton.mp hi ▸ hlater i₁ List.mem_cons_self).ne
              simp [hne, ho]
            | cons =>
              cases hrest
              rw [List.getLast?_cons_cons, List.getLast?_cons_cons, List.getLast?_cons_cons, ← hlast,
                List.getLast?_cons_cons]

/-- The outcome of a search over all of the integers, as a datum. -/
theorem Search.denotes_iff {os : List Ordering} {k : Option Value}
    (h : Search (.ofFuel n) b want s none vs os k u) (hvs : s.Ints vs is)
    (hinc : is.Pairwise (· < ·)) (hnil : s.payload .nil = .nil) :
    (u.Denotes (k.getD .nil) (.ofInt? is.head?) ↔ ∀ o ∈ os, o ≠ want) ∧
      (u.Denotes (k.getD .nil) (.ofInt? is.getLast?) ↔ ∀ o ∈ os.getLast?, o = want) := by
  cases hvs with
  | nil =>
    cases h
    exact ⟨iff_of_true ⟨rfl, hnil⟩ nofun, iff_of_true ⟨rfl, hnil⟩ nofun⟩
  | @cons x j xs js hx hxs =>
    cases h with
    | first h =>
      obtain ⟨w, i, rfl, hw, -, hfirst, hlast⟩ := h.ends hx hxs hinc
      have hdenotes (j : Int) : u.Denotes w (.integer j) ↔ i = j := by
        rw [Store.Denotes, hw, Payload.integer.injEq]
      refine ⟨(hdenotes j).trans hfirst, ?_⟩
      rw [← hlast, List.getLast?_cons, Option.some.injEq]
      exact hdenotes _

/-! ## What the operations of arrays give -/

section Array

variable (hl : s.payload l = .array vs.toArray)

include hl

theorem count_block_gives_iff (hs : s.IntegersCached) :
    Gives (Arrays.count l [] (some b)) (.ofFuel n) s d ↔
      ∃ accepted u, Accepts (.ofFuel n) b s vs accepted u ∧
        d = .integer (accepted.count true : Nat) := by
  have hrun : (Arrays.count l [] (some b)).run (.ofFuel n) s =
      (do
        let k ← vs.foldlM (countOne (some (.block b))) 0
        newNat k).run (.ofFuel n) s := by
    simp only [Arrays.count, Arrays.testOf, atMostOneArg, Act.run_bind, Act.run_pure,
      Ending.andThen_ok, listOf_run hl]
    rfl
  rw [gives_congr hrun, gives_bind_iff]
  constructor
  · rintro ⟨m, t, hfold, hm⟩
    obtain ⟨accepted, haccepts, rfl⟩ := foldlM_countOne_iff.mp hfold
    rw [Nat.zero_add] at hm
    exact ⟨accepted, t, haccepts, (gives_newInt_iff (hs.of_run hfold)).mp hm⟩
  · rintro ⟨accepted, t, haccepts, hd⟩
    have hfold := foldlM_countOne_iff.mpr ⟨accepted, haccepts, (Nat.zero_add _).symm⟩
    exact ⟨_, t, hfold, (gives_newInt_iff (hs.of_run hfold)).mpr hd⟩

theorem count_equals_gives_iff (hs : s.IntegersCached) (hvs : s.Ints vs is)
    (hv : s.payload v = .integer i) :
    Gives (Arrays.count l [v] none) e s d ↔ d = .integer (is.count i : Nat) := by
  have hrun : (Arrays.count l [v] none).run e s = (newNat (is.count i)).run e s := by
    have hfold := foldlM_countOne_equals (e := e) (k := 0) hvs hv
    rw [Nat.zero_add] at hfold
    simp only [Arrays.count, Arrays.testOf, atMostOneArg, Act.run_bind, Act.run_pure,
      Ending.andThen_ok, listOf_run hl]
    exact congrArg (Ending.andThen · _) hfold
  rw [gives_congr hrun]
  exact gives_newInt_iff hs

theorem minMax_block_gives_iff :
    Gives (Enumerable.minMax want l [] (some b)) e s d ↔
      ∃ os k u, Search e b want s none vs os k u ∧ u.Denotes (k.getD .nil) d := by
  have hrun : (Enumerable.minMax want l [] (some b)).run e s =
      (do
        let k ← Enumerable.extreme (blockOrder b) want vs none
        pure (k.getD .nil)).run e s := by
    simp only [Enumerable.minMax, atMostOneArg, Act.run_bind, Act.run_pure, Ending.andThen_ok,
      gather_run hl]
    rfl
  rw [gives_congr hrun, gives_bind_iff]
  constructor
  · rintro ⟨k, u, hextreme, hk⟩
    obtain ⟨os, hsearch⟩ := extreme_run_iff.mp hextreme
    exact ⟨os, k, u, hsearch, (gives_iff_of_run (Act.run_pure _)).mp hk⟩
  · rintro ⟨os, k, u, hsearch, hk⟩
    exact ⟨k, u, extreme_run_iff.mpr ⟨os, hsearch⟩, (gives_iff_of_run (Act.run_pure _)).mpr hk⟩

end Array

theorem list_of_gives_newArray {xs : Array Value} (h : Gives (newArray xs) e s d) :
    ∃ ds, d = .list ds := by
  obtain ⟨w, t, hrun, hd⟩ := h
  obtain ⟨w', t', hnew, -, -, hw⟩ := newArray_makes (e := e) (s := s) xs
  cases hnew.symm.trans hrun
  have hnone : (t.payload w).scalar? = none := by rw [Store.payload, hw]; rfl
  obtain ⟨_, ds, -, hds, -⟩ := hd.array_of_scalar? hnone
  exact ⟨ds, hds⟩

/-- With an argument an array is made. -/
theorem minMax_arg_gives {block : Option Value}
    (h : Gives (Enumerable.minMax want l [v] block) e s d) : ∃ ds, d = .list ds := by
  obtain ⟨_, _, harg, h⟩ := gives_bind_iff.mp h
  cases harg
  obtain ⟨items, t, -, h⟩ := gives_bind_iff.mp h
  obtain ⟨k, u, -, h⟩ := gives_bind_iff.mp h
  obtain ⟨out, w, -, h⟩ := gives_bind_iff.mp h
  exact list_of_gives_newArray h

/-! ## Where a range agrees with its elements -/

theorem min?_eq_head? (h : is.Pairwise (· < ·)) : is.min? = is.head? := by
  cases is with
  | nil => rfl
  | cons i is =>
    rw [List.head?_cons, List.min?_eq_some_iff]
    refine ⟨List.mem_cons_self, fun j hj => ?_⟩
    rcases List.mem_cons.mp hj with rfl | hj
    · exact le_rfl
    · exact ((List.pairwise_cons.mp h).1 j hj).le

theorem max?_eq_getLast? (h : is.Pairwise (· < ·)) : is.max? = is.getLast? := by
  rcases List.eq_nil_or_concat is with rfl | ⟨is, i, rfl⟩
  · rfl
  · rw [List.concat_eq_append] at h ⊢
    rw [List.getLast?_concat, List.max?_eq_some_iff]
    refine ⟨by simp, fun j hj => ?_⟩
    rcases List.mem_append.mp hj with hj | hj
    · exact ((List.pairwise_append.mp h).2.2 j hj i (List.mem_singleton_self i)).le
    · exact (List.mem_singleton.mp hj).le

/-- Each integer occurs once among increasing ones, so that it is all of them or not as many. -/
theorem count_eq_length_iff (h : is.Pairwise (· < ·)) {k : Int} (hk : 1 < k) :
    (is.count i : Int) = min (is.length : Int) k ↔ ∀ j ∈ is, j = i := by
  have hle : is.count i ≤ 1 := List.nodup_iff_count_le_one.mp (h.imp ne_of_lt) i
  have hall : is.count i = is.length ↔ ∀ j ∈ is, j = i := by
    rw [List.count_eq_length]
    exact forall₂_congr fun _ _ => eq_comm
  have hlength : is.count i ≤ is.length := List.count_le_length
  rw [← hall]
  omega

/-- `count`, `min` and `max` of a range of integers of 64 bits leave their arguments and their block
unread. So a count of an integer agrees with the array of the elements if and only if that integer is
all there is; `min` and `max` of so many elements never agree; a count with a block agrees if and only
if the block accepts as many elements as the range says it has; `min` with a block agrees if and only
if the block never prefers an element to the first one, and `max` if and only if it prefers the last
one in the end. In particular the block must not stop. -/
theorem overrides_agree_iff {high : Int} (hr : OfInts s recv r low (.int high))
    (hlow : Number.isWord low) (hhigh : Number.isWord high)
    -- one less than the end is an integer of 64 bits as well
    (_hexclusive : r.exclusive = true → Number.minWord < high)
    (hs : Unreplaced s) (hdepth : s.depth < s.config.maxDepth)
    (his : is = interval low (if r.exclusive then high - 1 else high)) (hfuel : is.length < n + 2) :
    (∀ v i, s.payload v = .integer i →
      (Agree (size recv [v] none) (onArray recv "count" [v] none) (.ofFuel (n + 2)) s ↔
        ∀ j ∈ is, j = i)) ∧
    (∀ v block,
      ¬Agree (extreme (fun low _ => low) Ends.first recv [v] block) (onArray recv "min" [v] block)
        (.ofFuel (n + 2)) s ∧
      ¬Agree (extreme (fun _ high => high) Ends.last recv [v] block) (onArray recv "max" [v] block)
        (.ofFuel (n + 2)) s) ∧
    ∃ l vs t, (toA recv [] none).run (.ofFuel (n + 2)) s = .ok l t ∧
      t.payload l = .array (List.toArray vs) ∧ t.Ints vs is ∧ ∀ b,
        (Agree (size recv [] (some b)) (onArray recv "count" [] (some b)) (.ofFuel (n + 2)) s ↔
          ∃ accepted u, Accepts (.ofFuel n) b (called t) vs accepted u ∧
            (accepted.count true : Int) = min (is.length : Int) Number.maxWord) ∧
        (Agree (extreme (fun low _ => low) Ends.first recv [] (some b))
            (onArray recv "min" [] (some b)) (.ofFuel (n + 2)) s ↔
          ∃ os k u, Search (.ofFuel n) b .lt (called t) none vs os k u ∧ ∀ o ∈ os, o ≠ .lt) ∧
        (Agree (extreme (fun _ high => high) Ends.last recv [] (some b))
            (onArray recv "max" [] (some b)) (.ofFuel (n + 2)) s ↔
          ∃ os k u, Search (.ofFuel n) b .gt (called t) none vs os k u ∧
            ∀ o ∈ os.getLast?, o = .gt) := by
  have hinc : is.Pairwise (· < ·) := his ▸ progression_increasing (by decide)
  have hlast : interval low ((Limit.int high).last r.exclusive) = is := his.symm
  obtain ⟨l, t, htoA, ht, hd, vs, hl, hvs⟩ :=
    hr.toA_makes (e := .ofFuel (n + 2)) hlow hhigh (hlast.symm ▸ hfuel) hs.cached [] none
  rw [hlast] at hvs
  have hroom : t.depth < t.config.maxDepth := by rw [hd, ht.config]; exact hdepth
  have hcached : (called t).IntegersCached := ht.integersCached hs.cached
  have hlist : (called t).payload l = .array vs.toArray := congrArg Object.payload hl
  have hnil : (called t).payload .nil = .nil := ht.payload hs.nil nofun
  have harray {name : String} {f : Native} (args : List Value) (block : Option Value) {d : Datum}
      (hf : (name, f) ∈ arrayOperations) :
      Gives (onArray recv name args block) (.ofFuel (n + 2)) s d ↔
        Gives (f l args block) (.ofFuel n) (called t) d :=
    onArray_gives_iff htoA (hs.arrays name f hf t ht l ⟨_, hl⟩) hroom
  have hsize (args : List Value) (block : Option Value) :
      Gives (size recv args block) (.ofFuel (n + 2)) s
        (.integer (min (is.length : Int) Number.maxWord)) := by
    rw [his]
    exact .of_makes (.congr (hr.size_run hlow hhigh args block) (newInt_makes hs.cached _))
  have hmin (args : List Value) (block : Option Value) :
      Gives (extreme (fun low _ => low) Ends.first recv args block) (.ofFuel (n + 2)) s
        (.ofInt? is.head?) := by
    rw [← min?_eq_head? hinc, his, min?_interval]
    exact hr.extreme_gives hlow hhigh hs ..
  have hmax (args : List Value) (block : Option Value) :
      Gives (extreme (fun _ high => high) Ends.last recv args block) (.ofFuel (n + 2)) s
        (.ofInt? is.getLast?) := by
    rw [← max?_eq_getLast? hinc, his, max?_interval]
    exact hr.extreme_gives hlow hhigh hs ..
  refine ⟨fun v i hv => ?_, fun v block => ⟨?_, ?_⟩, l, vs, t, htoA, hlist, hvs, fun b => ⟨?_, ?_, ?_⟩⟩
  · have hv : (called t).payload v = .integer i := ht.payload hv nofun
    rw [agree_iff (hsize [v] none), harray _ _ (f := Arrays.count) (by simp [arrayOperations]),
      count_equals_gives_iff hlist hcached hvs hv, Datum.integer.injEq, eq_comm,
      count_eq_length_iff hinc (by decide)]
  · rw [agree_iff (hmin [v] block),
      harray _ _ (f := Enumerable.minMax .lt) (by simp [arrayOperations])]
    intro h
    obtain ⟨ds, hds⟩ := minMax_arg_gives h
    cases hhead : is.head? <;> rw [hhead] at hds <;> cases hds
  · rw [agree_iff (hmax [v] block),
      harray _ _ (f := Enumerable.minMax .gt) (by simp [arrayOperations])]
    intro h
    obtain ⟨ds, hds⟩ := minMax_arg_gives h
    cases hend : is.getLast? <;> rw [hend] at hds <;> cases hds
  · rw [agree_iff (hsize [] (some b)), harray _ _ (f := Arrays.count) (by simp [arrayOperations]),
      count_block_gives_iff hlist hcached]
    simp only [Datum.integer.injEq, eq_comm]
  · rw [agree_iff (hmin [] (some b)),
      harray _ _ (f := Enumerable.minMax .lt) (by simp [arrayOperations]), minMax_block_gives_iff hlist]
    exact exists_congr fun os => exists_congr fun k => exists_congr fun u =>
      and_congr_right fun h => (h.denotes_iff hvs hinc hnil).1
  · rw [agree_iff (hmax [] (some b)),
      harray _ _ (f := Enumerable.minMax .gt) (by simp [arrayOperations]), minMax_block_gives_iff hlist]
    exact exists_congr fun os => exists_congr fun k => exists_congr fun u =>
      and_congr_right fun h => (h.denotes_iff hvs hinc hnil).2

/-- 2 is not all there is in `1..3`, and the two least of its elements are not its least one. -/
theorem overrides_agree_iff_oneToThree :
    ¬Agree (size ⟨36⟩ [⟨39⟩] none) (onArray ⟨36⟩ "count" [⟨39⟩] none) (.ofFuel 4) oneToThree ∧
    ¬Agree (extreme (fun low _ => low) Ends.first ⟨36⟩ [⟨39⟩] none)
      (onArray ⟨36⟩ "min" [⟨39⟩] none) (.ofFuel 4) oneToThree := by
  have hr : OfInts oneToThree ⟨36⟩ ⟨⟨37⟩, ⟨38⟩, false⟩ 1 (.int 3) := by
    constructor <;> rfl
  have hints : [1, 2, 3] = interval 1 3 := by rfl
  obtain ⟨hcount, hextreme, -⟩ := overrides_agree_iff (n := 2) hr rfl rfl nofun
    oneToThree_unreplaced (by decide) hints (by decide)
  refine ⟨fun h => ?_, (hextreme ⟨39⟩ none).1⟩
  exact absurd ((hcount ⟨39⟩ 2 rfl).mp h 1 (by decide)) (by decide)

end Library.Ranges

end Garnet
