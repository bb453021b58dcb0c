import Garnet.Proofs.Ranges.Elements

/-!
# Arrays as sets

Arrays are taken for sets of classes of equal keys: what is left of an array is the first element of
each of its classes. The elements that have been seen are kept in a table, one for each class, and that
is enough to tell whether an element equals one of those before it.
-/

namespace Garnet

open Eval

/-! ## First elements of classes -/

section Firsts

variable {eql eql' : Value → Value → Bool} {before before' xs ys : List Value} {x y : Value}

/-- The elements that equal none before them, where `before` has come before them all. -/
def firsts (eql : Value → Value → Bool) : List Value → List Value → List Value
  | _, [] => []
  | before, x :: xs =>
    if before.any (eql · x) then firsts eql (before ++ [x]) xs
    else x :: firsts eql (before ++ [x]) xs

theorem firsts_sublist : (firsts eql before xs).Sublist xs := by
  induction xs generalizing before with
  | nil => exact .slnil
  | cons x xs ih =>
    rw [firsts]
    split
    · exact .cons x ih
    · exact .cons_cons x ih

theorem any_of_mem_firsts (hy : y ∈ firsts eql before xs) : before.any (eql · y) = false := by
  induction xs generalizing before with
  | nil => cases hy
  | cons x xs ih =>
    have hrest (h : y ∈ firsts eql (before ++ [x]) xs) : before.any (eql · y) = false := by
      have hboth := ih h
      rw [List.any_append, Bool.or_eq_false_iff] at hboth
      exact hboth.1
    rw [firsts] at hy
    split at hy
    · exact hrest hy
    · rename_i hx
      rcases List.mem_cons.mp hy with rfl | hy
      · exact Bool.eq_false_iff.mpr hx
      · exact hrest hy

theorem firsts_pairwise : (firsts eql before xs).Pairwise fun x y => eql x y = false := by
  induction xs generalizing before with
  | nil => exact .nil
  | cons x xs ih =>
    rw [firsts]
    split
    · exact ih
    · refine .cons (fun y hy => ?_) ih
      have hboth := any_of_mem_firsts hy
      rw [List.any_append, List.any_cons, List.any_nil, Bool.or_false, Bool.or_eq_false_iff] at hboth
      exact hboth.2

/-- Nothing is left out of a list whose elements are all of different classes. -/
theorem firsts_eq_self (hbefore : ∀ x ∈ xs, before.any (eql · x) = false)
    (hxs : xs.Pairwise fun x y => eql x y = false) : firsts eql before xs = xs := by
  induction xs generalizing before with
  | nil => rfl
  | cons x xs ih =>
    obtain ⟨hx, hbefore⟩ := List.forall_mem_cons.mp hbefore
    obtain ⟨hdiffers, hxs⟩ := List.pairwise_cons.mp hxs
    rw [firsts, hx, if_neg Bool.false_ne_true, ih (fun y hy => ?_) hxs]
    rw [List.any_append, hbefore y hy, List.any_cons, List.any_nil, hdiffers y hy]
    rfl

theorem firsts_firsts : firsts eql [] (firsts eql before xs) = firsts eql before xs :=
  firsts_eq_self (fun _ _ => rfl) firsts_pairwise

/-- Two equalities that agree on the elements have the same first elements. -/
theorem firsts_congr (h : ∀ x ∈ before ++ xs, ∀ y ∈ before ++ xs, eql x y = eql' x y) :
    firsts eql before xs = firsts eql' before xs := by
  induction xs generalizing before with
  | nil => rfl
  | cons x xs ih =>
    have hx : x ∈ before ++ x :: xs := List.mem_append_right _ List.mem_cons_self
    have hany : before.any (eql · x) = before.any (eql' · x) := by
      rw [Bool.eq_iff_iff, List.any_eq_true, List.any_eq_true]
      exact exists_congr fun y => and_congr_right fun hy => by
        rw [h y (List.mem_append_left _ hy) x hx]
    have hrest : firsts eql (before ++ [x]) xs = firsts eql' (before ++ [x]) xs :=
      ih (by rwa [List.append_assoc])
    rw [firsts, firsts, hany, hrest]

variable (hequiv : Equivalence fun x y => eql x y = true)

include hequiv

/-- What equals an element of a list adds no class to it. -/
theorem any_concat (hx : before.any (eql · x) = true) (y : Value) :
    (before ++ [x]).any (eql · y) = before.any (eql · y) := by
  rw [List.any_append, List.any_cons, List.any_nil, Bool.or_false]
  cases hxy : eql x y with
  | false => exact Bool.or_false _
  | true =>
    obtain ⟨z, hz, hzx⟩ := List.any_eq_true.mp hx
    have hzy : eql z y = true := hequiv.trans hzx hxy
    rw [List.any_eq_true.mpr ⟨z, hz, hzy⟩]
    rfl

/-- The first elements are of all classes that there are. -/
theorem any_firsts (y : Value) :
    (before ++ firsts eql before xs).any (eql · y) = (before ++ xs).any (eql · y) := by
  induction xs generalizing before with
  | nil => rfl
  | cons x xs ih =>
    have hboth : (before ++ [x] ++ firsts eql (before ++ [x]) xs).any (eql · y) =
        (before ++ [x] ++ xs).any (eql · y) := ih
    rw [firsts]
    split
    · rename_i hx
      rw [List.any_append, any_concat hequiv hx, ← List.any_append] at hboth
      rw [hboth, List.append_assoc]
      rfl
    · rw [List.append_assoc, List.append_assoc] at hboth
      exact hboth

theorem any_firsts_nil (y : Value) : (firsts eql [] xs).any (eql · y) = xs.any (eql · y) := by
  have hany : ([] ++ firsts eql [] xs).any (eql · y) = ([] ++ xs).any (eql · y) :=
    any_firsts hequiv y
  exact hany

theorem countP_le_one (hxs : xs.Pairwise fun x y => eql x y = false) (y : Value) :
    xs.countP (eql · y) ≤ 1 := by
  have hkept := hxs.filter (eql · y)
  have heql : ∀ x ∈ xs.filter (eql · y), eql x y = true := fun x hx => (List.mem_filter.mp hx).2
  rw [List.countP_eq_length_filter]
  match hkeep : xs.filter (eql · y) with
  | [] | [_] => exact Nat.le_of_ble_eq_true rfl
  | u :: v :: rest =>
    rw [hkeep] at hkept heql
    have huv : eql u v = true :=
      hequiv.trans (heql u List.mem_cons_self)
        (hequiv.symm (heql v (List.mem_cons_of_mem _ List.mem_cons_self)))
    rw [(List.pairwise_cons.mp hkept).1 v List.mem_cons_self] at huv
    cases huv

/-- Every element equals exactly one of the first ones. -/
theorem countP_firsts (hx : x ∈ xs) : (firsts eql [] xs).countP (eql · x) = 1 := by
  have hsome : (firsts eql [] xs).any (eql · x) = true := by
    rw [any_firsts_nil hequiv]
    exact List.any_eq_true.mpr ⟨x, hx, hequiv.refl x⟩
  refine Nat.le_antisymm (countP_le_one hequiv firsts_pairwise x) ?_
  exact List.countP_pos_iff.mpr (List.any_eq_true.mp hsome)

end Firsts

/-! ## Data in later stores -/

namespace Store

variable {s t : Store}

theorem Denotes.grows (h : s.Grows t) {v : Value} {d : Datum} (hv : s.Denotes v d) :
    t.Denotes v d :=
  hv.mono fun _ _ => h.payload

/-- Data that are equal keys stay so, and no others become equal. -/
theorem Denotes.keyEql_grows {v w : Value} {d d' : Datum} (hv : s.Denotes v d) (hw : s.Denotes w d')
    (h : s.Grows t) : t.keyEql v w = s.keyEql v w := by
  rw [Bool.eq_iff_iff, (hv.grows h).keyEql_iff (hw.grows h), hv.keyEql_iff hw]

end Store

/-! ## The table of what has been seen -/

namespace Library

variable {e : Engine} {s t : Store} {a b v : Value} {xs ys before : List Value} {seen : Table}

/-- The table has a key for each class that has come before. -/
theorem distinct_run (hseen : ∀ y, seen.keys.any (s.keyEql · y) = before.any (s.keyEql · y)) :
    (distinct none xs seen).run e s = .ok (firsts s.keyEql before xs) s := by
  induction xs generalizing before seen with
  | nil => rfl
  | cons x xs ih =>
    have hget : (seen.get? s.keyEql x).isSome = before.any (s.keyEql · x) := by
      rw [← hseen, Table.get?_eq_find?, Option.isSome_map, Table.keys_eq, List.any_map,
        Bool.eq_iff_iff, List.find?_isSome, List.any_eq_true]
      rfl
    rw [distinct, firsts]
    simp only [Act.run_bind, Act.run_pure, Ending.andThen_ok, tableGet?, run_view, hget]
    split
    · rename_i hx
      refine ih fun y => ?_
      rw [hseen, any_concat s.keyEql_equivalence hx]
    · rename_i hx
      have hkeys : (seen.insert s.keyEql x .nil).keys = seen.keys ++ [x] := by
        refine Table.keys_insert_of_forall ?_
        have hnone := Bool.eq_false_iff.mpr hx
        rw [← hseen, List.any_eq_false] at hnone
        exact fun a ha => Bool.eq_false_iff.mpr (hnone a ha)
      have hrest : (distinct none xs (seen.insert s.keyEql x .nil)).run e s =
          .ok (firsts s.keyEql (before ++ [x]) xs) s :=
        ih fun y => by rw [hkeys, List.any_append, hseen, List.any_append]
      simp only [tableInsert, run_view, Act.run_bind, Ending.andThen_ok, hrest, Act.run_pure]

/-! ## Operations on arrays of data -/

/-- The operation gives an array of these values. -/
def MakesList (x : Op Value) (e : Engine) (s : Store) (vs : List Value) : Prop :=
  Makes x e s fun v t => t.array? v = some vs.toArray

theorem newList_makes (vs : List Value) : MakesList (newList vs) e s vs :=
  (newArray_makes _).mono fun v t _ hv => by rw [Store.array?_eq_some, Store.payload, hv]

/-- The values stand for data. -/
def AreData (s : Store) (vs : List Value) : Prop := ∀ v ∈ vs, ∃ d, s.Denotes v d

theorem AreData.firsts_grows (h : AreData s xs) (hst : s.Grows t) :
    firsts t.keyEql [] xs = firsts s.keyEql [] xs := by
  refine firsts_congr fun x hx y hy => ?_
  obtain ⟨d, hd⟩ := h x hx
  obtain ⟨d', hd'⟩ := h y hy
  exact hd.keyEql_grows hd' hst

section Operations

theorem arrayArg_run (hb : s.array? b = some ys.toArray) :
    (Arrays.arrayArg [b]).run e s = .ok ys s := by
  have hpayload : s.payload b = .array ys.toArray := Store.array?_eq_some.mp hb
  simp only [Arrays.arrayArg, oneArg, needArray, payload, Act.run_bind, Act.run_pure, run_view,
    Ending.andThen_ok, hpayload]

/-- The first elements of a list, found with nothing seen before. -/
theorem distinct_makes (vs : List Value) :
    MakesList (do newList (← distinct none vs {})) e s (firsts s.keyEql [] vs) :=
  .step (distinct_run fun _ => rfl) (newList_makes _)

variable (ha : s.array? a = some xs.toArray)

include ha

theorem listOf_run_of_array? : (Arrays.listOf a).run e s = .ok xs s :=
  listOf_run (Store.array?_eq_some.mp ha)

theorem uniq_makes : MakesList (Arrays.uniq a [] none) e s (firsts s.keyEql [] xs) :=
  .step (listOf_run_of_array? ha) (distinct_makes xs)

variable (hb : s.array? b = some ys.toArray)

include hb

theorem plus_array_makes : MakesList (Arrays.plus a [b] none) e s (xs ++ ys) :=
  .step (arrayArg_run hb) (.step (listOf_run_of_array? ha) (newList_makes _))

theorem union_makes : MakesList (Arrays.union a [b] none) e s (firsts s.keyEql [] (xs ++ ys)) :=
  .step (arrayArg_run hb) (.step (listOf_run_of_array? ha) (distinct_makes _))

theorem intersection_makes :
    MakesList (Arrays.intersection a [b] none) e s
      (firsts s.keyEql [] (xs.filter (Arrays.hasKey s ys))) := by
  refine .step (arrayArg_run hb) (.step (listOf_run_of_array? ha) ?_)
  exact .step rfl (distinct_makes _)

theorem minus_makes :
    MakesList (Arrays.minus a [b] none) e s (xs.filter (!Arrays.hasKey s ys ·)) := by
  refine .step (arrayArg_run hb) (.step (listOf_run_of_array? ha) ?_)
  exact .step rfl (newList_makes _)

end Operations

/-! ## The laws of sets -/

/-- A value equals an element of a filtered list exactly when it equals an element and is kept. -/
theorem hasKey_filter {p : Value → Bool} (hp : ∀ x, s.keyEql x v = true → p x = p v) :
    Arrays.hasKey s (xs.filter p) v = (Arrays.hasKey s xs v && p v) := by
  rw [Bool.eq_iff_iff, Bool.and_eq_true, Arrays.hasKey, Arrays.hasKey, List.any_eq_true,
    List.any_eq_true]
  constructor
  · rintro ⟨x, hx, hxv⟩
    obtain ⟨hx, hpx⟩ := List.mem_filter.mp hx
    exact ⟨⟨x, hx, hxv⟩, hp x hxv ▸ hpx⟩
  · rintro ⟨⟨x, hx, hxv⟩, hpv⟩
    exact ⟨x, List.mem_filter.mpr ⟨hx, (hp x hxv).trans hpv⟩, hxv⟩

/-- Equal keys equal elements of the same lists. -/
theorem hasKey_congr {x : Value} (h : s.keyEql x v = true) (vs : List Value) :
    Arrays.hasKey s vs x = Arrays.hasKey s vs v := by
  have hequiv := s.keyEql_equivalence
  rw [Bool.eq_iff_iff, Arrays.hasKey, Arrays.hasKey, List.any_eq_true, List.any_eq_true]
  refine exists_congr fun y => and_congr_right fun _ => ⟨fun hy => ?_, fun hy => ?_⟩
  · exact hequiv.trans hy h
  · exact hequiv.trans hy (hequiv.symm h)

theorem hasKey_firsts : Arrays.hasKey s (firsts s.keyEql [] xs) v = Arrays.hasKey s xs v :=
  any_firsts_nil s.keyEql_equivalence v

/-- For arrays of data: what `uniq` leaves are the first elements of the classes, no two of them equal
and one for each element, and to do it again changes nothing. The operations `|`, `&` and `-` are the
first elements of both arrays together, the first of those that are in both, and the elements that
are not in the second, so that a value is in them as it is in the union, the intersection and the
difference. The elements that `-` leaves and those it does not are all that there are. None of
this changes which data are equal. -/
theorem set_laws {xs ys : Array Value} (ha : s.array? a = some xs) (hb : s.array? b = some ys)
    (hxs : AreData s xs.toList) (hys : AreData s ys.toList) (e : Engine) :
    let left := firsts s.keyEql [] xs.toList
    let together := firsts s.keyEql [] (xs.toList ++ ys.toList)
    let common := xs.toList.filter (Arrays.hasKey s ys.toList)
    let others := xs.toList.filter (!Arrays.hasKey s ys.toList ·)
    (MakesList (Arrays.uniq a [] none) e s left ∧
      MakesList (do Arrays.uniq (← Arrays.uniq a [] none) [] none) e s left ∧
      left.Sublist xs.toList ∧ left.Pairwise (fun x y => s.keyEql x y = false) ∧
      ∀ x ∈ xs, left.countP (s.keyEql · x) = 1) ∧
    (MakesList (Arrays.union a [b] none) e s together ∧
      MakesList (do Arrays.uniq (← Arrays.plus a [b] none) [] none) e s together) ∧
    MakesList (Arrays.intersection a [b] none) e s (firsts s.keyEql [] common) ∧
    (MakesList (Arrays.minus a [b] none) e s others ∧ (others ++ common).Perm xs.toList) ∧
    (∀ v, Arrays.hasKey s together v =
        (Arrays.hasKey s xs.toList v || Arrays.hasKey s ys.toList v) ∧
      Arrays.hasKey s (firsts s.keyEql [] common) v =
        (Arrays.hasKey s xs.toList v && Arrays.hasKey s ys.toList v) ∧
      Arrays.hasKey s others v =
        (Arrays.hasKey s xs.toList v && !Arrays.hasKey s ys.toList v)) ∧
    ∀ t, s.Grows t → ∀ v w d d', s.Denotes v d → s.Denotes w d' →
      t.keyEql v w = s.keyEql v w := by
  intro left together common others
  have ha' : s.array? a = some xs.toList.toArray := ha
  have hb' : s.array? b = some ys.toList.toArray := hb
  refine ⟨⟨uniq_makes ha', ?_, firsts_sublist, firsts_pairwise, fun x hx => ?_⟩,
    ⟨union_makes ha' hb', ?_⟩, intersection_makes ha' hb', ⟨minus_makes ha' hb', ?_⟩,
    fun v => ⟨?_, ?_, ?_⟩, fun t hst v w d d' hv hw => hv.keyEql_grows hw hst⟩
  · refine (uniq_makes ha').bind fun v t ht _ hv => ?_
    have hleft : AreData s left := fun x hx => hxs x (firsts_sublist.subset hx)
    have htwice := uniq_makes (e := e) hv
    rwa [hleft.firsts_grows ht, firsts_firsts] at htwice
  · exact countP_firsts s.keyEql_equivalence (Array.mem_toList_iff.mpr hx)
  · refine (plus_array_makes ha' hb').bind fun v t ht _ hv => ?_
    have hboth : AreData s (xs.toList ++ ys.toList) := fun x hx =>
      (List.mem_append.mp hx).elim (hxs x) (hys x)
    have huniq := uniq_makes (e := e) hv
    rwa [hboth.firsts_grows ht] at huniq
  · exact List.perm_append_comm.trans (List.filter_append_perm _ _)
  · rw [hasKey_firsts, Arrays.hasKey, List.any_append]
    rfl
  · rw [hasKey_firsts, hasKey_filter fun x hx => hasKey_congr hx _]
  · rw [hasKey_filter fun x hx => by rw [hasKey_congr hx]]

/-- The arrays `["a", 1, "a"]` and `[1]`, where the two texts are different objects. -/
def textTwice : Store where
  config := {}
  objects := #[{ cls := ⟨0⟩, payload := .text "a" }, { cls := ⟨0⟩, payload := .text "a" },
    { cls := ⟨0⟩, payload := .integer 1 }, { cls := ⟨0⟩, payload := .array #[⟨0⟩, ⟨2⟩, ⟨1⟩] },
    { cls := ⟨0⟩, payload := .array #[⟨2⟩] }]
  scopes := #[]
  frames := []
  scopeStack := []

/-- One of the texts is left by `uniq`, and both by `-`. -/
theorem set_laws_textTwice :
    MakesList (Arrays.uniq ⟨3⟩ [] none) (.ofFuel 0) textTwice [⟨0⟩, ⟨2⟩] ∧
      MakesList (Arrays.union ⟨3⟩ [⟨4⟩] none) (.ofFuel 0) textTwice [⟨0⟩, ⟨2⟩] ∧
      MakesList (Arrays.intersection ⟨3⟩ [⟨4⟩] none) (.ofFuel 0) textTwice [⟨2⟩] ∧
      MakesList (Arrays.minus ⟨3⟩ [⟨4⟩] none) (.ofFuel 0) textTwice [⟨0⟩, ⟨1⟩] := by
  have htext (i : Nat) (hi : i < 2) : textTwice.Denotes ⟨i⟩ (.text "a") := by
    rcases i with _ | _ | i
    · rfl
    · rfl
    · omega
  have hone : textTwice.Denotes ⟨2⟩ (.integer 1) := rfl
  have hxs : AreData textTwice [⟨0⟩, ⟨2⟩, ⟨1⟩] := by
    intro v hv
    fin_cases hv
    · exact ⟨_, htext 0 (by omega)⟩
    · exact ⟨_, hone⟩
    · exact ⟨_, htext 1 (by omega)⟩
  have hys : AreData textTwice [⟨2⟩] := fun v hv => ⟨_, List.mem_singleton.mp hv ▸ hone⟩
  obtain ⟨⟨huniq, -⟩, ⟨hunion, -⟩, hintersection, ⟨hminus, -⟩, -⟩ :=
    set_laws (s := textTwice) (a := ⟨3⟩) (b := ⟨4⟩) rfl rfl hxs hys (.ofFuel 0)
  exact ⟨huniq, hunion, hintersection, hminus⟩

end Library

end Garnet
