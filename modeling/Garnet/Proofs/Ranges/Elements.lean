import Garnet.Proofs.Hashes.Datum
import Garnet.Proofs.Lookup.Bare
import Garnet.Proofs.Ranges.Membership
import Garnet.Proofs.Sorting.Elements

/-!
# Arrays of integers

What the operations of arrays come to on integers. They are compared without a message, and a sum
asks nothing but `+`, so that nothing is made on the way but more integers and arrays.
-/

namespace Garnet

open Eval

/-! ## Runs that make integers and arrays -/

section Makes

variable {α β : Type} {e : Engine} {s t : Store} {x y : Op α} {f : α → Op β}
  {P P' : α → Store → Prop} {Q : β → Store → Prop} {i : Int}

/-- The run ends with a value of which `P` holds, and makes nothing but integers and arrays. -/
def Makes (x : Op α) (e : Engine) (s : Store) (P : α → Store → Prop) : Prop :=
  ∃ a t, x.run e s = .ok a t ∧ s.Grows t ∧ t.depth = s.depth ∧ P a t

namespace Makes

theorem of_run {a : α} (hrun : x.run e s = .ok a s) (ha : P a s) : Makes x e s P :=
  ⟨a, s, hrun, .refl s, rfl, ha⟩

theorem congr (h : x.run e s = y.run e s) (hy : Makes y e s P) : Makes x e s P := by
  rwa [Makes, h]

theorem mono (hx : Makes x e s P) (h : ∀ a t, s.Grows t → P a t → P' a t) : Makes x e s P' := by
  obtain ⟨a, t, hrun, hgrows, hdepth, ha⟩ := hx
  exact ⟨a, t, hrun, hgrows, hdepth, h a t hgrows ha⟩

theorem bind (hx : Makes x e s P)
    (hf : ∀ a t, s.Grows t → t.depth = s.depth → P a t → Makes (f a) e t Q) :
    Makes (x >>= f) e s Q := by
  obtain ⟨a, t, hrun, hgrows, hdepth, ha⟩ := hx
  obtain ⟨b, u, hrun', hgrows', hdepth', hb⟩ := hf a t hgrows hdepth ha
  refine ⟨b, u, ?_, hgrows.trans hgrows', hdepth'.trans hdepth, hb⟩
  rw [Act.run_bind, hrun, Ending.andThen_ok, hrun']

/-- After a run that leaves the store as it is. -/
theorem step {a : α} (hx : x.run e s = .ok a s) (hf : Makes (f a) e s Q) :
    Makes (x >>= f) e s Q :=
  .congr (by rw [Act.run_bind, hx, Ending.andThen_ok]) hf

end Makes

theorem newInt_makes (hs : s.IntegersCached) (i : Int) :
    Makes (newInt i) e s fun v t => t.payload v = .integer i := by
  cases hi : s.config.interns i with
  | true => exact .of_run (Store.newInt_run_interned hi e) (hs i hi)
  | false =>
    refine ⟨_, _, Store.newInt_run_fresh hi e, .alloc ⟨rfl, rfl, .inl ⟨i, rfl, rfl⟩⟩, rfl, ?_⟩
    exact congrArg Object.payload (Store.object_alloc s _)

theorem newArray_makes (xs : Array Value) : Makes (newArray xs) e s fun v t =>
    t.object v = { cls := CoreClass.array.value, payload := .array xs } :=
  ⟨⟨s.objects.size⟩, _, rfl, .alloc ⟨rfl, rfl, .inr ⟨xs, rfl, rfl⟩⟩, rfl, Store.object_alloc s _⟩

/-- A message that an operation of the library answers. -/
theorem send_makes {n : Nat} {v : Value} {name : String} {g : Native} {args : List Value}
    {block : Option Value} {P : Value → Store → Prop} (hanswers : s.AnswersWith v name g)
    (hdepth : s.depth < s.config.maxDepth)
    (hg : Makes (g v args block) (.ofFuel n) { s with depth := s.depth + 1 } P)
    (hP : ∀ w t d, P w t → P w { t with depth := d }) :
    Makes (send v name args block) (.ofFuel (n + 2)) s P := by
  obtain ⟨_, _, hfind, hm, hf⟩ := hanswers
  obtain ⟨w, t, hrun, hgrows, hd, hw⟩ := hg
  refine ⟨w, { t with depth := t.depth - 1 }, ?_, ⟨hgrows.objects, hgrows.config⟩, ?_, hP w t _ hw⟩
  · rw [send_run hfind hm hf, Engine.deeper, if_neg (Nat.not_le_of_lt hdepth), hrun]
  · exact congrArg (· - 1) hd

end Makes

/-! ## The integers of a list -/

/-- An integer, if there is one. -/
def Datum.ofInt? : Option Int → Datum
  | some i => .integer i
  | none => .nil


namespace Store

variable {s t : Store} {vs : List Value} {is : List Int}

/-- The values are the integers of a list, one by one. -/
def Ints (s : Store) (vs : List Value) (is : List Int) : Prop :=
  List.Forall₂ (fun v i => s.payload v = .integer i) vs is

theorem Ints.grows (h : s.Ints vs is) (hst : s.Grows t) : t.Ints vs is :=
  h.imp fun _ _ hv => hst.payload hv Payload.noConfusion

theorem Ints.denoteAll (h : s.Ints vs is) : s.DenoteAll vs (is.map .integer) := by
  induction h with
  | nil => trivial
  | cons hv _ ih => exact ⟨hv, ih⟩

theorem payload_of_objects (h : t.objects = s.objects) (v : Value) : t.payload v = s.payload v := by
  rw [payload, object, h, ← object, ← payload]

/-- What a value stands for is a matter of the objects. -/
theorem denotes_iff_of_objects {v : Value} {d : Datum} (h : t.objects = s.objects) :
    t.Denotes v d ↔ s.Denotes v d :=
  ⟨(Keeps.of_objects h.symm).denotes, (Keeps.of_objects h).denotes⟩

/-- A value is an array of the integers of a list. -/
def IsList (s : Store) (v : Value) (is : List Int) : Prop :=
  ∃ vs : List Value, s.payload v = .array vs.toArray ∧ s.Ints vs is

theorem IsList.denotes {v : Value} (h : s.IsList v is) : s.Denotes v (.list (is.map .integer)) := by
  obtain ⟨vs, hv, hvs⟩ := h
  exact ⟨vs.toArray, hv, hvs.denoteAll⟩

end Store

namespace Library.Ranges

variable {e : Engine} {s : Store}

theorem makeInts_makes (hs : s.IntegersCached) (is : List Int) :
    Makes (makeInts is) e s fun vs t => t.Ints vs is := by
  induction is generalizing s with
  | nil => exact .of_run rfl .nil
  | cons i is ih =>
    refine .congr (Act.run_mapM_cons newInt i is) ((newInt_makes hs i).bind fun v t ht _ hv => ?_)
    refine (ih (ht.integersCached hs)).bind fun vs u hu _ hvs => .of_run rfl ?_
    exact .cons (hu.payload hv nofun) hvs

end Library.Ranges

/-! ## Operations on an array of integers -/

namespace Library

variable {e : Engine} {s : Store} {l v : Value} {vs : List Value} {is : List Int} {n i : Int}

theorem countArg_run (hv : s.payload v = .integer n) (hn : 0 ≤ n) (hword : n ≤ Number.maxWord) :
    (Arrays.countArg [v]).run e s = .ok (some n.toNat) s := by
  have hneg : ¬n < 0 := by omega
  simp only [Arrays.countArg, atMostOneArg, Act.run_bind, Act.run_pure, Ending.andThen_ok,
    needWord_run hv (Number.isWord_of_between rfl rfl hn hword), hneg, if_false]

/-- Two integers are compared without a message. -/
theorem equals_integers_run {w : Value} {j : Int} (hv : s.payload v = .integer i)
    (hw : s.payload w = .integer j) : (equals v w).run e s = .ok (i == j) s := by
  have hplain : s.plainEqual? v w = some (i == j) := by
    rw [Store.plainEqual?, hv, hw]
    split
    · rename_i heq
      rw [beq_iff_eq.mp heq, hw] at hv
      cases hv
      rw [beq_self_eq_true]
    · rfl
  rw [equals_run, hplain]

section Array

variable (hl : s.payload l = .array vs.toArray) (hvs : s.Ints vs is)

include hl

theorem itemsOf_run : (Arrays.itemsOf l).run e s = .ok vs.toArray s := by
  have harray : s.array? l = some vs.toArray := Store.array?_eq_some.mpr hl
  simp only [Arrays.itemsOf, Act.run_bind, run_view, Ending.andThen_ok, Act.run_pure, harray,
    Option.getD_some]

theorem listOf_run : (Arrays.listOf l).run e s = .ok vs s := by
  simp only [Arrays.listOf, Act.run_bind, itemsOf_run hl, Ending.andThen_ok, Act.run_pure]

theorem gather_run : (gather l).run e s = .ok vs.toArray s := by
  have harray : s.array? l = some vs.toArray := Store.array?_eq_some.mpr hl
  simp only [gather, Act.run_bind, run_view, Ending.andThen_ok, harray, Act.run_pure]

include hvs

theorem length_makes (hs : s.IntegersCached) : Makes (Arrays.length l [] none) e s fun v t =>
    t.payload v = .integer is.length := by
  have hlength : vs.toArray.size = is.length := by rw [List.size_toArray, hvs.length_eq]
  refine .step (itemsOf_run hl) ?_
  rw [hlength]
  exact newInt_makes hs _

theorem first_makes (hv : s.payload v = .integer n) (hn : 0 ≤ n) (hword : n ≤ Number.maxWord) :
    Makes (Arrays.first l [v] none) e s fun w t => t.IsList w (is.take n.toNat) := by
  refine .step (countArg_run hv hn hword) (.step (itemsOf_run hl) ?_)
  refine (newArray_makes _).mono fun w t ht hw => ⟨vs.take n.toNat, ?_, ?_⟩
  · rw [Store.payload, hw, List.take_toArray]
  · exact List.forall₂_take _ (hvs.grows ht)

theorem last_makes (hv : s.payload v = .integer n) (hn : 0 ≤ n) (hword : n ≤ Number.maxWord) :
    Makes (Arrays.last l [v] none) e s fun w t =>
      t.IsList w (is.drop (is.length - n.toNat)) := by
  refine .step (countArg_run hv hn hword) (.step (itemsOf_run hl) ?_)
  refine (newArray_makes _).mono fun w t ht hw => ⟨vs.drop (is.length - n.toNat), ?_, ?_⟩
  · simp [Store.payload, hw, hvs.length_eq]
  · exact List.forall₂_drop _ (hvs.grows ht)

theorem includes_ints_run (hv : s.payload v = .integer i) :
    (Arrays.includes l [v] none).run e s = .ok (.ofBool (decide (i ∈ is))) s := by
  have hany : (vs.anyM (equals · v)).run e s = .ok (decide (i ∈ is)) s := by
    clear hl
    induction hvs with
    | nil => rfl
    | @cons w j vs is hw _ ih =>
      have hmem : decide (i ∈ j :: is) = (j == i || decide (i ∈ is)) := by
        rw [Bool.eq_iff_iff, decide_eq_true_iff, List.mem_cons, Bool.or_eq_true, beq_iff_eq,
          decide_eq_true_iff, eq_comm]
      rw [List.anyM_cons, Act.run_bind, equals_integers_run hw hv, Ending.andThen_ok, hmem]
      cases j == i with
      | true => rfl
      | false => exact ih
  simp only [Arrays.includes, oneArg, newBool, Act.run_bind, Act.run_pure, Ending.andThen_ok,
    listOf_run hl, hany]

/-- The search for an extreme element. -/
theorem minMax_run (want : Ordering) {f : Int → Int → Int}
    (hf : ∀ k i, f k i = if compare i k == want then i else k) (hnil : s.payload .nil = .nil) :
    ∃ v, (Enumerable.minMax want l [] none).run e s = .ok v s ∧
      s.Denotes v (match is with
        | [] => .nil
        | i :: is => .integer (is.foldl f i)) := by
  have hfrom {b : Value} {k : Int} {vs : List Value} {is : List Int} (hb : s.payload b = .integer k)
      (hvs : s.Ints vs is) :
      ∃ m, (Enumerable.extreme (orderBy none) want vs (some b)).run e s = .ok (some m) s ∧
        s.payload m = .integer (is.foldl f k) := by
    induction hvs generalizing b k with
    | nil => exact ⟨b, rfl, hb⟩
    | @cons v i vs is hv _ ih =>
      have horder : (orderBy none v b).run e s = .ok (compare i k) s :=
        Ranges.order_integers_run hv hb
      simp only [Enumerable.extreme, Act.run_bind, horder, Ending.andThen_ok, List.foldl_cons, hf]
      split
      · exact ih hv
      · exact ih hb
  have hextreme : ∃ m, (Enumerable.extreme (orderBy none) want vs none).run e s = .ok m s ∧
      s.Denotes (m.getD .nil) (match is with
        | [] => .nil
        | i :: is => .integer (is.foldl f i)) := by
    cases hvs with
    | nil => exact ⟨none, rfl, rfl, hnil⟩
    | cons hv hvs =>
      obtain ⟨m, hrun, hm⟩ := hfrom hv hvs
      exact ⟨some m, hrun, hm⟩
  obtain ⟨m, hrun, hm⟩ := hextreme
  refine ⟨m.getD .nil, ?_, hm⟩
  simp only [Enumerable.minMax, atMostOneArg, Act.run_bind, Act.run_pure, Ending.andThen_ok,
    gather_run hl, hrun]

theorem min_run (hnil : s.payload .nil = .nil) :
    ∃ v, (Enumerable.minMax .lt l [] none).run e s = .ok v s ∧
      s.Denotes v (.ofInt? is.min?) := by
  have hmin (k i : Int) : min k i = if compare i k == .lt then i else k := by
    simp only [beq_iff_eq, compare_lt_iff_lt]
    split <;> omega
  obtain ⟨v, hrun, hv⟩ := minMax_run (e := e) hl hvs .lt hmin hnil
  refine ⟨v, hrun, ?_⟩
  cases is <;> exact hv

theorem max_run (hnil : s.payload .nil = .nil) :
    ∃ v, (Enumerable.minMax .gt l [] none).run e s = .ok v s ∧
      s.Denotes v (.ofInt? is.max?) := by
  have hmax (k i : Int) : max k i = if compare i k == .gt then i else k := by
    simp only [beq_iff_eq, compare_gt_iff_gt]
    split <;> omega
  obtain ⟨v, hrun, hv⟩ := minMax_run (e := e) hl hvs .gt hmax hnil
  refine ⟨v, hrun, ?_⟩
  cases is <;> exact hv

end Array

/-- The operation of the library that adds two integers. -/
def plus : Native := Integers.arith (· + ·) (· + ·)

theorem plus_makes {a : Value} {j : Int} (hs : s.IntegersCached) (ha : s.payload a = .integer i)
    (hv : s.payload v = .integer j) :
    Makes (plus a [v] none) e s fun w t => t.payload w = .integer (i + j) := by
  have hinteger : s.integer? a = some i := by rw [Store.integer?, ha]
  refine .congr ?_ (newInt_makes hs (i + j))
  simp only [plus, Integers.arith, Integers.binary, Integers.operand, Integers.intOf, oneArg, payload,
    Act.run_bind, Act.run_pure, run_view, Ending.andThen_ok, hv, hinteger, Option.getD_some]

/-- The rounds of a sum from a position on. -/
theorem repeatFor_sum {p : Progress} {acc : Value} {k m d : Nat}
    (hplus : s.AllAnswer Object.IsInteger "+" plus) (hs : s.IntegersCached)
    (hl : s.payload l = .array vs.toArray) (hvs : s.Ints vs is) (hdepth : s.depth < s.config.maxDepth)
    (hacc : p.held = some acc) (hi : s.payload acc = .integer i) (hk : k ≤ vs.length)
    (hm : vs.length < k + m) :
    Makes (repeatFor (arrayRound (.sum none) l) m (k, p)) (.ofFuel (d + 2)) s fun q t =>
      ∃ acc, q.held = some acc ∧ t.payload acc = .integer (i + (is.drop k).sum) := by
  induction m generalizing s p acc i k with
  | zero => omega
  | succ m ih =>
    have harray : s.array? l = some vs.toArray := Store.array?_eq_some.mpr hl
    have hlength : vs.length = is.length := hvs.length_eq
    rcases Nat.lt_or_ge k vs.length with hlt | hge
    · -- one more element is added
      have hitem : s.payload vs[k] = .integer is[k] := List.Forall₂.get hvs hlt (hlength ▸ hlt)
      have hround : Makes (arrayRound (.sum none) l (k, p)) (.ofFuel (d + 2)) s fun out t =>
          ∃ q acc, out = .inl (k + 1, q) ∧ q.held = some acc ∧
            t.payload acc = .integer (i + is[k]) := by
        have hrun : (arrayRound (.sum none) l (k, p)).run (.ofFuel (d + 2)) s =
            (do
              let sum ← send acc "+" [vs[k]] none
              pure (.inl (k + 1, { p with held := some sum })) :
              Op ((Nat × Progress) ⊕ Progress)).run (.ofFuel (d + 2)) s := by
          simp [arrayRound, visitItem, Act.run_bind, harray, hlt, hacc, Ending.andThen_assoc]
          rfl
        have hsend := send_makes (n := d) (hplus s (.refl s) acc ⟨i, hi⟩) hdepth
          (plus_makes (s := { s with depth := s.depth + 1 }) hs hi hitem) fun _ _ _ => id
        exact .congr hrun (hsend.bind fun sum t _ _ hsum => .of_run rfl ⟨_, sum, rfl, rfl, hsum⟩)
      refine hround.bind fun out t ht hd hout => ?_
      obtain ⟨q, acc, rfl, hq, hacc⟩ := hout
      rw [List.drop_eq_getElem_cons (hlength ▸ hlt), List.sum_cons, ← Int.add_assoc]
      exact ih (ht.allAnswer hplus) (ht.integersCached hs) (ht.payload hl (by simp)) (hvs.grows ht)
        (by rw [hd, ht.config]; exact hdepth) hq hacc hlt (by omega)
    · have hend : (arrayRound (.sum none) l (k, p)).run (.ofFuel (d + 2)) s = .ok (.inr p) s := by
        simp [arrayRound, Act.run_bind, harray, hge]
      refine .step hend (.of_run rfl ⟨acc, hacc, ?_⟩)
      rw [List.drop_of_length_le (hlength ▸ hge), List.sum_nil, Int.add_zero, hi]

theorem sum_makes {d : Nat} (hplus : s.AllAnswer Object.IsInteger "+" plus) (hs : s.IntegersCached)
    (hl : s.payload l = .array vs.toArray) (hvs : s.Ints vs is) (hdepth : s.depth < s.config.maxDepth)
    (hfuel : vs.length < d + 2) :
    Makes (Enumerable.sum l [] none) (.ofFuel (d + 2)) s fun v t => t.payload v = .integer is.sum := by
  have hrun (v : Value) (t : Store) (ht : t.payload l = .array vs.toArray) :
      (walk (.sum none) l { held := some v }).run (.ofFuel (d + 2)) t =
        (repeatFor (arrayRound (.sum none) l) (d + 2) (0, { held := some v })).run
          (.ofFuel (d + 2)) t := by
    have harray : t.array? l = some vs.toArray := Store.array?_eq_some.mpr ht
    rw [walk, Act.run_bind, run_view, harray]
    rfl
  have hnoArg : (atMostOneArg []).run (.ofFuel (d + 2)) s = .ok none s := rfl
  refine .step hnoArg (.bind (newInt_makes hs 0) fun v t ht hd hv => ?_)
  have hl : t.payload l = .array vs.toArray := ht.payload hl (by simp)
  have hrounds := repeatFor_sum (d := d) (p := { held := some v }) (m := d + 2) (ht.allAnswer hplus)
    (ht.integersCached hs) hl (hvs.grows ht) (by rw [hd, ht.config]; exact hdepth) rfl hv
    (Nat.zero_le _) (by omega)
  rw [List.drop_zero, Int.zero_add] at hrounds
  refine .bind (.congr (hrun v t hl) hrounds) fun q u _ _ hq => ?_
  obtain ⟨acc, hheld, hacc⟩ := hq
  exact .of_run rfl (by rw [hheld]; exact hacc)

end Library

end Garnet
