import Garnet.Proofs.Adding
import Garnet.Proofs.Arrays.Segments
import Garnet.Proofs.Searches.Literal

/-!
# Positions in a text

The position of a text in another one counts characters, as the parts that are read and replaced do.
-/

namespace Garnet

open Eval Regex Text

/-- A search gives the first occurrence from a position on, or nil when there is none. -/
def FindsFirst (x : Op Value) (e : Engine) (s : Store) (sub cs : List Char) (start : Nat) : Prop :=
  (∃ i, FirstFrom sub cs start i ∧ Adds x e s fun w t => t.payload w = .integer i) ∨
    (∀ i, start ≤ i → ¬OccursAt sub cs i) ∧ x.run e s = .ok .nil s

theorem FindsFirst.congr {x y : Op Value} {e : Engine} {s : Store} {sub cs : List Char} {p : Nat}
    (h : x.run e s = y.run e s) (hy : FindsFirst y e s sub cs p) : FindsFirst x e s sub cs p :=
  hy.imp (fun ⟨i, hi, hadds⟩ => ⟨i, hi, .congr h hadds⟩) fun ⟨hnone, hrun⟩ => ⟨hnone, h.trans hrun⟩

namespace Library.Strings

variable {e : Engine} {s : Store} {recv v w x : Value} {text sub new : String} {k : Int}
  {i n p : Nat}

/-! ## Looking for a text -/

theorem positionOrNil_find (hs : s.IntegersCached) (sub cs : List Char) (hp : p ≤ cs.length) :
    FindsFirst (positionOrNil ((find? sub (cs.drop p)).map (p + ·))) e s sub cs p := by
  cases hfind : find? sub (cs.drop p) with
  | some i => exact .inl ⟨p + i, (firstFrom_of_find? hfind).of_drop hp, newInt_adds hs _⟩
  | none =>
    refine .inr ⟨fun i hi => ?_, rfl⟩
    obtain ⟨j, rfl⟩ := Nat.exists_eq_add_of_le hi
    rw [← occursAt_drop hp]
    exact not_occursAt_of_find? hfind j

/-- The characters in front of the position are passed over, and counted again at the end. -/
theorem found_eq (sub : String) (cs : List Char) (p : Nat) :
    ((Compiled.literal sub).findFrom (cs.drop p).toArray 0).map (p + ·.whole.first) =
      (find? sub.toList (cs.drop p)).map (p + ·) := by
  rw [literal_finds sub _ 0 (Nat.zero_le _), List.toList_toArray, List.drop_zero,
    Option.map_map]
  refine congrArg (Option.map · _) (funext fun i => ?_)
  rw [Function.comp_apply, matchAt, Nat.zero_add]

section IndexOf

variable (hs : s.IntegersCached) (hrecv : s.payload recv = .text text)
  (hv : s.payload v = .text sub)

include hrecv hv

include hs in
theorem indexOf_first :
    FindsFirst (indexOf recv [v] none) e s sub.toList text.toList 0 := by
  refine .congr ?_ (positionOrNil_find hs _ _ (Nat.zero_le _))
  have hinside : ¬((decide ((0 : Int) < 0) || decide ((0 : Int) > text.toList.length)) = true) := by
    simp
  simp only [indexOf, oneOrTwoArgs, Act.run_bind, Act.run_pure, charsOf_run hrecv,
    Ending.andThen_ok, if_neg hinside, pattern_run hv, Int.toNat_zero, found_eq]

include hs in
theorem indexOf_from (hw : s.payload w = .integer k) (hk : Number.isWord k)
    (hp : (p : Int) = placeAt k text.toList.length) (hle : p ≤ text.toList.length) :
    FindsFirst (indexOf recv [v, w] none) e s sub.toList text.toList p := by
  refine .congr ?_ (positionOrNil_find hs _ _ hle)
  have hinside : ¬((decide ((p : Int) < 0) || decide ((p : Int) > text.toList.length)) = true) := by
    simp only [Bool.or_eq_true, decide_eq_true_eq]
    omega
  simp only [indexOf, oneOrTwoArgs, Act.run_bind, Act.run_pure, charsOf_run hrecv,
    needWord_run hw hk, Ending.andThen_ok, ← placeAt.eq_1, ← hp, if_neg hinside, pattern_run hv,
    Int.toNat_natCast, found_eq]

omit hv in
theorem indexOf_outside (hw : s.payload w = .integer k) (hk : Number.isWord k)
    (hp : placeAt k text.toList.length < 0 ∨ text.toList.length < placeAt k text.toList.length) :
    (indexOf recv [v, w] none).run e s = .ok .nil s := by
  have houtside : (decide (placeAt k text.toList.length < 0) ||
      decide (placeAt k text.toList.length > text.toList.length)) = true := by
    simp only [Bool.or_eq_true, decide_eq_true_eq]
    omega
  simp only [indexOf, oneOrTwoArgs, Act.run_bind, Act.run_pure, charsOf_run hrecv,
    needWord_run hw hk, Ending.andThen_ok, ← placeAt.eq_1, if_pos houtside]

omit hv in
theorem indexOf_refused (hw : s.payload w = .integer k) (hk : Number.isWord k = false) :
    (indexOf recv [v, w] none).run e s =
      (argumentError "integer out of range" : Op Value).run e s := by
  simp only [indexOf, oneOrTwoArgs, Act.run_bind, Act.run_pure, charsOf_run hrecv,
    needWord_refused hw hk, Ending.andThen_ok]
  rfl

end IndexOf

/-! ## Reading and replacing a part -/

variable {iv nv : Value}

theorem index_inside (hrecv : s.payload recv = .text text) (hiv : s.payload iv = .integer i)
    (hnv : s.payload nv = .integer n) (hi : Number.isWord i) (hn : Number.isWord n)
    (hle : i ≤ text.toList.length) :
    (index recv [iv, nv] none).run e s = (newChars ((text.toList.drop i).take n)).run e s := by
  have hbounds : sliceBounds i n text.toList.length = some (i, min (i + n) text.toList.length) := by
    rw [sliceBounds_eq_some, placeAt_of_nonneg (Int.natCast_nonneg i)]
    exact ⟨rfl, hle, Int.natCast_nonneg n, by omega⟩
  have htake : (text.toList.drop i).take (min (i + n) text.toList.length - i) =
      (text.toList.drop i).take n := by
    rw [List.take_eq_take_iff, List.length_drop]
    omega
  simp only [index, oneOrTwoArgs, Act.run_bind, Act.run_pure, textOf_run hrecv, Ending.andThen_ok,
    needWord_run hiv hi, needWord_run hnv hn, hbounds, sliceOrNil, htake]

theorem index_outside (hrecv : s.payload recv = .text text) (hiv : s.payload iv = .integer i)
    (hnv : s.payload nv = .integer n) (hi : Number.isWord i) (hn : Number.isWord n)
    (hlt : text.toList.length < i) : (index recv [iv, nv] none).run e s = .ok .nil s := by
  have hbounds : sliceBounds i n text.toList.length = none := by
    rw [Option.eq_none_iff_forall_ne_some]
    rintro ⟨p, q⟩ hpq
    rw [sliceBounds_eq_some, placeAt_of_nonneg (Int.natCast_nonneg i)] at hpq
    omega
  simp only [index, oneOrTwoArgs, Act.run_bind, Act.run_pure, textOf_run hrecv, Ending.andThen_ok,
    needWord_run hiv hi, needWord_run hnv hn, hbounds, sliceOrNil]

/-- What the writing of a text leaves: the text, and everything else as it was. -/
theorem setText_run (hrecv : s.payload recv = .text text) (new : String) :
    ∃ t, (setText recv new).run e s = .ok () t ∧ t.payload recv = .text new ∧
      ∀ w, w ≠ recv → t.object w = s.object w := by
  have hpayload : (s.object recv).payload = .text text := hrecv
  have hlt : recv.index < s.objects.size := s.index_lt_of_payload hrecv nofun
  refine ⟨_, rfl, ?_, fun w hw => ?_⟩
  · rw [Store.payload, Change.apply, Store.object_modifyObject, if_pos ⟨rfl, hlt⟩, hpayload]
  · rw [Change.apply, Store.object_modifyObject, if_neg fun h => hw h.1]

/-- The first occurrence gives way to the new text. -/
theorem indexSet_found (hrecv : s.payload recv = .text text) (hv : s.payload v = .text sub)
    (hx : s.payload x = .text new) (hi : find? sub.toList text.toList = some i) :
    ∃ t, (indexSet recv [v, x] none).run e s = .ok x t ∧
      t.payload recv = .text (String.ofList
        (text.toList.take i ++ new.toList ++ text.toList.drop (i + sub.length))) ∧
      ∀ w, w ≠ recv → t.object w = s.object w := by
  obtain ⟨t, hset, ht⟩ := setText_run (e := e) hrecv (String.ofList
    (text.toList.take i ++ new.toList ++ text.toList.drop (i + sub.length)))
  refine ⟨t, ?_, ht⟩
  simp only [indexSet, assignPart, assignBounds, payload, Act.run_bind, needText_run hx,
    charsOf_run hrecv, Ending.andThen_ok, run_view, hv, Act.run_pure, hi, Option.map_some, hset]

theorem indexSet_missing (hrecv : s.payload recv = .text text) (hv : s.payload v = .text sub)
    (hx : s.payload x = .text new) (hi : find? sub.toList text.toList = none) :
    (indexSet recv [v, x] none).run e s =
      (indexError s!"index {sub} out of string" : Op Value).run e s := by
  simp only [indexSet, assignPart, assignBounds, payload, Act.run_bind, needText_run hx,
    charsOf_run hrecv, Ending.andThen_ok, run_view, hv, Act.run_pure, hi, Option.map_none,
    Store.scalarText?, Option.getD_some]

/-- A search from a position on, a negative one counted from the end, gives the first position from
there on at which the part that is as long as the text is the text, and nil from outside. What is
assigned to a text takes the place of its first occurrence and leaves all other characters. -/
theorem first_occurrence (hs : s.IntegersCached) (hrecv : s.payload recv = .text text)
    (hv : s.payload v = .text sub) :
    FindsFirst (indexOf recv [v] none) e s sub.toList text.toList 0 ∧
    (∀ w k, s.payload w = .integer k → Number.isWord k →
      (∀ p : Nat, (p : Int) = placeAt k text.toList.length → p ≤ text.toList.length →
        FindsFirst (indexOf recv [v, w] none) e s sub.toList text.toList p) ∧
      (placeAt k text.toList.length < 0 ∨ text.toList.length < placeAt k text.toList.length →
        (indexOf recv [v, w] none).run e s = .ok .nil s)) ∧
    (∀ w k, s.payload w = .integer k → Number.isWord k = false →
      (indexOf recv [v, w] none).run e s =
        (argumentError "integer out of range" : Op Value).run e s) ∧
    (∀ iv nv (i n : Nat), s.payload iv = .integer i → s.payload nv = .integer n →
      Number.isWord i → Number.isWord n →
      (i ≤ text.toList.length → Number.isWord (i + n) → Adds (index recv [iv, nv] none) e s fun w t =>
        t.payload w = .text (String.ofList ((text.toList.drop i).take n))) ∧
      (text.toList.length < i → (index recv [iv, nv] none).run e s = .ok .nil s)) ∧
    ∀ x new, s.payload x = .text new →
      (∀ i, FirstFrom sub.toList text.toList 0 i → ∃ t,
        (indexSet recv [v, x] none).run e s = .ok x t ∧
        t.payload recv = .text (String.ofList
          (text.toList.take i ++ new.toList ++ text.toList.drop (i + sub.length))) ∧
        ∀ w, w ≠ recv → t.object w = s.object w) ∧
      ((∀ i, ¬OccursAt sub.toList text.toList i) → (indexSet recv [v, x] none).run e s =
        (indexError s!"index {sub} out of string" : Op Value).run e s) := by
  refine ⟨indexOf_first hs hrecv hv, fun w k hw hk => ⟨fun p => ?_, ?_⟩, fun w k => ?_,
    fun iv nv i n hiv hnv hi hn => ⟨fun hle _ => ?_, ?_⟩,
    fun x new hx => ⟨fun i hi => ?_, fun h => ?_⟩⟩
  · exact indexOf_from hs hrecv hv hw hk
  · exact indexOf_outside hrecv hw hk
  · exact indexOf_refused hrecv
  · exact .congr (index_inside hrecv hiv hnv hi hn hle) (newText_adds _)
  · exact index_outside hrecv hiv hnv hi hn
  · exact indexSet_found hrecv hv hx (find?_eq_some.mpr hi)
  · exact indexSet_missing hrecv hv hx (find?_eq_none.mpr h)

/-- A text with letters of more than one byte, a text that occurs in it twice, positions, and a text
to put there. -/
def twiceIn : Store :=
  { config := { cacheMin := 1, cacheMax := 0 }
    objects := #[{ cls := CoreClass.string.value, payload := .text "äbäb" },
      { cls := CoreClass.string.value, payload := .text "b" },
      { cls := CoreClass.integer.value, payload := .integer (-2) },
      { cls := CoreClass.string.value, payload := .text "日本" },
      { cls := CoreClass.integer.value, payload := .integer (2 ^ 63) }]
    scopes := #[], frames := [], scopeStack := [] }

theorem first_occurrence_twiceIn :
    Adds (indexOf ⟨0⟩ [⟨1⟩, ⟨2⟩] none) (.ofFuel 0) twiceIn (fun w t => t.payload w = .integer 3) ∧
    ∃ t, (indexSet ⟨0⟩ [⟨1⟩, ⟨3⟩] none).run (.ofFuel 0) twiceIn = .ok ⟨3⟩ t ∧
      t.payload ⟨0⟩ = .text "ä日本äb" := by
  have hcached : twiceIn.IntegersCached := Store.integersCached_of_lt (by decide)
  have hrecv : twiceIn.payload ⟨0⟩ = .text "äbäb" := rfl
  have hsub : twiceIn.payload ⟨1⟩ = .text "b" := rfl
  obtain ⟨-, hfrom, -, -, hset⟩ := first_occurrence (e := .ofFuel 0) hcached hrecv hsub
  have hfirst : FirstFrom ['b'] ['ä', 'b', 'ä', 'b'] 2 3 :=
    .of_drop (firstFrom_of_find? (i := 1) rfl) (by decide)
  refine ⟨?_, ?_⟩
  · rcases (hfrom ⟨2⟩ (-2) rfl rfl).1 2 rfl (by decide) with ⟨i, hi, hadds⟩ | ⟨hnone, -⟩
    · rwa [hi.unique hfirst] at hadds
    · exact absurd hfirst.occurs (hnone 3 (by decide))
  · obtain ⟨t, hrun, ht, -⟩ := (hset ⟨3⟩ "日本" rfl).1 1 (firstFrom_of_find? rfl)
    exact ⟨t, hrun, ht⟩

/-- From a position of more than 64 bits on nothing is looked for, although it lies outside. -/
theorem first_occurrence_beyondWords :
    twiceIn.payload ⟨0⟩ = .text "äbäb" ∧ twiceIn.payload ⟨1⟩ = .text "b" ∧
      twiceIn.payload ⟨4⟩ = .integer (2 ^ 63) ∧
      ("äbäb".toList.length : Int) < placeAt (2 ^ 63) "äbäb".toList.length ∧
      ¬∃ w t, (indexOf ⟨0⟩ [⟨1⟩, ⟨4⟩] none).run (.ofFuel 0) twiceIn = .ok w t := by
  have hrecv : twiceIn.payload ⟨0⟩ = .text "äbäb" := rfl
  have hstart : twiceIn.payload ⟨4⟩ = .integer (2 ^ 63) := rfl
  have hrefused : (indexOf ⟨0⟩ [⟨1⟩, ⟨4⟩] none).run (.ofFuel 0) twiceIn =
      (argumentError "integer out of range" : Op Value).run (.ofFuel 0) twiceIn :=
    indexOf_refused hrecv hstart rfl
  refine ⟨hrecv, rfl, hstart, by decide, ?_⟩
  rw [hrefused]
  rintro ⟨w, t, ⟨⟩⟩

end Library.Strings

end Garnet
