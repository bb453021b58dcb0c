import Garnet.Library.Arrays
import Garnet.Proofs.Endings
import Garnet.Proofs.Heap
import Garnet.Session.Engine

/-!
# Segments of arrays

A range, or a start and a count, names a segment of an array. A read and a write each find out for
themselves where it begins and where it ends, and come to the same: what is assigned takes the place
of what is read.
-/

namespace Garnet

/-! ## Bounds -/

section Bounds

variable {i n : Int} {first j : Option Int} {exclusive : Bool} {len p q : Nat}

/-- The place that an index names; a negative one counts from the end. -/
def placeAt (i : Int) (len : Nat) : Int := if i < 0 then i + len else i

/-- The place behind the last element that a range names; without an end, behind all elements. -/
def placeAfter (j : Option Int) (exclusive : Bool) (len : Nat) : Int :=
  j.elim (len : Int) fun j => placeAt j len + if exclusive then 0 else 1

theorem placeAt_of_nonneg (h : 0 ≤ i) : placeAt i len = i := if_neg (Int.not_lt.mpr h)

theorem sliceBounds_eq_some : sliceBounds i n len = some (p, q) ↔
    (p : Int) = placeAt i len ∧ p ≤ len ∧ 0 ≤ n ∧ (q : Int) = min (p + n) len := by
  simp only [sliceBounds, ← placeAt.eq_1]
  split
  · rename_i h
    simp only [Bool.or_eq_true, decide_eq_true_eq] at h
    exact iff_of_false nofun (by omega)
  · rename_i h
    simp only [Bool.or_eq_true, decide_eq_true_eq] at h
    rw [Option.some.injEq, Prod.mk.injEq]
    omega

theorem rangeBounds_eq_some : rangeBounds first j exclusive len = some (p, q) ↔
    (p : Int) = placeAt (first.getD 0) len ∧ p ≤ len ∧
      (q : Int) = max (p : Int) (min (placeAfter j exclusive len) len) := by
  have hlast : (if exclusive && j.isSome then placeAt (j.getD (len - 1)) len - 1
      else placeAt (j.getD (len - 1)) len) = placeAfter j exclusive len - 1 := by
    cases j with
    | none =>
      simp only [placeAt, placeAfter, Option.getD_none, Option.isSome_none, Bool.and_false,
        Bool.false_eq_true, if_false, Option.elim_none]
      split <;> omega
    | some j => cases exclusive <;> simp [placeAfter]
  simp only [rangeBounds, ← placeAt.eq_1, hlast]
  split
  · rename_i h
    simp only [Bool.or_eq_true, decide_eq_true_eq] at h
    exact iff_of_false nofun (by omega)
  · rename_i h
    simp only [Bool.or_eq_true, decide_eq_true_eq] at h
    rw [sliceBounds_eq_some, placeAt_of_nonneg (i := placeAt _ _) (by omega)]
    omega

end Bounds

namespace Library.Arrays

open Eval

variable {e : Engine} {s t : Store} {a key count first last v x : Value} {xs ys : Array Value}
  {i n k : Int} {exclusive : Bool} {size p q : Nat} {block : Option Value}

/-! ## The parts that a write replaces -/

theorem needWord_ok (hv : s.payload v = .integer i) (h : (needWord v).run e s = .ok k t) :
    Number.isWord i ∧ k = i ∧ t = s := by
  by_cases hi : Number.isWord i
  · rw [needWord_run hv hi] at h
    cases h
    exact ⟨hi, rfl, rfl⟩
  · simp only [needWord, payload, view, bind, Act.run, hv, hi, Bool.false_eq_true, if_false] at h
    cases h

/-- A range from an integer to an integer or to nil. -/
structure OfIndexes (s : Store) (key first last : Value) (i : Int) (j : Option Int)
    (exclusive : Bool) : Prop where
  range : s.range? key = some (first, last, exclusive)
  first : s.payload first = .integer i
  last : match j with
    | none => last = .nil
    | some j => s.payload last = .integer j
  nil : s.payload .nil = .nil

/-- Indexes of 64 bits. -/
def WordEnds (i : Int) (j : Option Int) : Prop := Number.isWord i ∧ ∀ k ∈ j, Number.isWord k

namespace OfIndexes

variable {j : Option Int} (hr : OfIndexes s key first last i j exclusive)

include hr

theorem isNil_of_integer (hv : s.payload v = .integer k) : v.isNil = false := by
  refine beq_false_of_ne fun heq => ?_
  rw [heq, hr.nil] at hv
  cases hv

theorem rangeEnd_of_integer (hv : s.payload v = .integer k) :
    (rangeEnd v).run e s = (some <$> needWord v).run e s := by
  rw [rangeEnd, hr.isNil_of_integer hv]
  rfl

theorem rangeEnd_ok {b : Option Int} (hv : s.payload v = .integer k)
    (h : (rangeEnd v).run e s = .ok b t) : Number.isWord k ∧ t = s := by
  rw [hr.rangeEnd_of_integer hv, Act.run_map] at h
  cases hw : (needWord v).run e s with
  | error stop u =>
    rw [hw] at h
    cases h
  | ok i u =>
    obtain ⟨hk, -, rfl⟩ := needWord_ok hv hw
    rw [hw] at h
    cases h
    exact ⟨hk, rfl⟩

theorem boundsOf_run (hwords : WordEnds i j) :
    (boundsOf first last exclusive size).run e s =
      .ok (rangeBounds (some i) j exclusive size) s := by
  have hlast : (rangeEnd last).run e s = .ok j s := by
    cases j with
    | none =>
      rw [show last = .nil from hr.last]
      rfl
    | some j =>
      rw [hr.rangeEnd_of_integer hr.last, Act.run_map, needWord_run hr.last (hwords.2 j rfl),
        Ending.andThen_ok]
  rw [boundsOf, Act.run_bind, hr.rangeEnd_of_integer hr.first, Act.run_map,
    needWord_run hr.first hwords.1, Ending.andThen_ok, Ending.andThen_ok, Act.run_bind, hlast]
  rfl

theorem wordEnds_of_boundsOf {bounds : Option (Nat × Nat)}
    (h : (boundsOf first last exclusive size).run e s = .ok bounds t) : WordEnds i j := by
  obtain ⟨b, u, hb, hrest⟩ := Act.run_bind_ok h
  obtain ⟨hi, rfl⟩ := hr.rangeEnd_ok hr.first hb
  cases j with
  | none => exact ⟨hi, nofun⟩
  | some j =>
    obtain ⟨_, _, hb, -⟩ := Act.run_bind_ok hrest
    refine ⟨hi, fun k hk => ?_⟩
    obtain rfl := Option.some.inj hk
    exact (hr.rangeEnd_ok hr.last hb).1

theorem rangePart_run (hwords : WordEnds i j) (hp : (p : Int) = placeAt i size) :
    (rangePart size first last exclusive).run e s =
      .ok ⟨p, (max (placeAfter j exclusive size) p).toNat, true⟩ s := by
  have hplace : ¬(p : Int) < 0 := by omega
  cases j with
  | none =>
    have hlast : last.isNil = true := by rw [show last = .nil from hr.last]; rfl
    have hend : placeAt (size - 1) size + 1 = placeAfter none exclusive size := by
      simp only [placeAt, placeAfter, Option.elim_none]
      split <;> omega
    simp only [rangePart, Act.run_bind, needWord_run hr.first hwords.1, Ending.andThen_ok, hlast,
      if_true, Act.run_pure, Bool.not_true, Bool.and_false, Bool.false_eq_true, if_false,
      ← placeAt.eq_1, hend, ← hp, hplace, Int.toNat_natCast]
  | some j =>
    have hlast : last.isNil = false := hr.isNil_of_integer hr.last
    have hend : (if exclusive then placeAt j size else placeAt j size + 1) =
        placeAfter (some j) exclusive size := by
      cases exclusive <;> simp [placeAfter]
    simp only [rangePart, Act.run_bind, needWord_run hr.first hwords.1, Ending.andThen_ok, hlast,
      needWord_run hr.last (hwords.2 j rfl), Bool.not_false, Bool.and_true, Bool.false_eq_true,
      if_false, ← placeAt.eq_1, hend, ← hp, hplace, Act.run_pure, Int.toNat_natCast]

end OfIndexes

theorem countedPart_run (hkey : s.payload key = .integer i) (hcount : s.payload count = .integer n)
    (hi : Number.isWord i) (hn : Number.isWord n) (hp : (p : Int) = placeAt i size) (hpos : 0 ≤ n) :
    (countedPart size key count).run e s = .ok ⟨p, (p + n).toNat, true⟩ s := by
  have hplace : ¬((p : Int) < 0 ∨ n < 0) := by omega
  simp only [countedPart, Act.run_bind, needWord_run hkey hi, needWord_run hcount hn,
    Ending.andThen_ok, ← placeAt.eq_1, Bool.or_eq_true, decide_eq_true_eq, ← hp, hplace, if_false,
    Act.run_pure, Int.toNat_natCast]

/-! ## Reading and writing -/

theorem itemsOf_run (ha : s.array? a = some xs) : (itemsOf a).run e s = .ok xs s := by
  rw [itemsOf, Act.run_bind, run_view, Ending.andThen_ok, ha]
  rfl

theorem modifyItems_apply (ha : s.array? a = some xs) (f : Array Value → Array Value) :
    (Change.modifyItems a f).apply s = s.setPayload a (.array (f xs)) := by
  have hpayload : (s.object a).payload = .array xs := Store.array?_eq_some.mp ha
  refine s.modifyObject_congr ?_
  rw [hpayload]

theorem index_range_run {j : Option Int} (hr : OfIndexes s key first last i j exclusive)
    (hwords : WordEnds i j) (ha : s.array? a = some xs) :
    (index a [key] block).run e s = ((rangeBounds (some i) j exclusive xs.size).elim (pure .nil)
      fun b => newArray (xs.extract b.1 b.2)).run e s := by
  simp only [index, oneOrTwoArgs, Act.run_bind, Act.run_pure, Ending.andThen_ok, itemsOf_run ha,
    run_view, hr.range, hr.boundsOf_run hwords]
  cases rangeBounds (some i) j exclusive xs.size <;> rfl

theorem index_counted_run (hkey : s.payload key = .integer i) (hcount : s.payload count = .integer n)
    (hi : Number.isWord i) (hn : Number.isWord n) (ha : s.array? a = some xs) :
    (index a [key, count] block).run e s = ((sliceBounds i n xs.size).elim (pure .nil)
      fun b => newArray (xs.extract b.1 b.2)).run e s := by
  simp only [index, oneOrTwoArgs, Act.run_bind, Act.run_pure, Ending.andThen_ok, itemsOf_run ha,
    needWord_run hkey hi, needWord_run hcount hn]
  cases sliceBounds i n xs.size <;> rfl

/-- A write comes to the array that is filled up as far as the part begins. -/
theorem assign_run (ha : s.array? a = some xs) (hx : s.array? x = some ys) (hne : x ≠ a) :
    (assign a ⟨p, q, true⟩ x).run e s =
      .ok x (s.setPayload a (.array (splice (extendTo xs p) p
        (Part.stop ⟨p, q, true⟩ (extendTo xs p).size) ys))) := by
  have happly := modifyItems_apply ha fun items =>
    splice (extendTo items p) p (Part.stop ⟨p, q, true⟩ (extendTo items p).size) ys
  simp only [assign, Act.run_bind, run_view, hx, beq_false_of_ne hne, Bool.false_eq_true, if_false,
    Ending.andThen_ok, modifyItems, update, Act.run, happly]
  rfl

/-- An array is not written into itself. -/
theorem assign_self_run (ha : s.array? a = some xs) :
    (assign a ⟨p, q, true⟩ a).run e s = .error .exhausted s := by
  simp only [assign, Act.run_bind, run_view, ha, beq_self_eq_true, if_true, Ending.andThen_ok]
  rfl

theorem size_extendTo : (extendTo xs p).size = max xs.size p := by
  rw [extendTo, Array.size_append, Array.size_replicate]
  omega

theorem extendTo_of_le (h : p ≤ xs.size) : extendTo xs p = xs := by
  rw [extendTo, Nat.sub_eq_zero_of_le h, Array.replicate_zero, Array.append_empty]

theorem splice_size (h : xs.size = p) : splice xs p p ys = xs ++ ys := by
  subst h
  simp [splice]

theorem Part.stop_mk {spread : Bool} : Part.stop ⟨p, q, spread⟩ size = max (min q size) p := rfl

theorem Part.stop_bounds (part : Part) (xs : Array Value) :
    part.first ≤ part.stop (extendTo xs part.first).size ∧
      part.stop (extendTo xs part.first).size ≤ (extendTo xs part.first).size := by
  rw [size_extendTo, stop]
  omega

/-- Keys name the segment of an array from one place to another: a read makes a new array of it, and
another array that is assigned takes its place. The array itself cannot be assigned. -/
structure Names (keys : List Value) (a : Value) (xs : Array Value) (p q : Nat) (e : Engine)
    (s : Store) : Prop where
  le : p ≤ q
  le_size : q ≤ xs.size
  read : ∀ block, (index a keys block).run e s = (newArray (xs.extract p q)).run e s
  write : ∀ x ys block, s.array? x = some ys → x ≠ a →
    (indexSet a (keys ++ [x]) block).run e s =
      .ok x (s.setPayload a (.array (xs.take p ++ ys ++ xs.drop q)))
  self : ∀ block, (indexSet a (keys ++ [a]) block).run e s = .error .exhausted s

/-- Keys name a place behind an array: a write of another array first fills it up with nil. -/
def NamesBehind (keys : List Value) (a : Value) (xs : Array Value) (p : Nat) (e : Engine)
    (s : Store) : Prop :=
  (∀ block, (index a keys block).run e s = .ok .nil s) ∧
  (∀ x ys block, s.array? x = some ys → x ≠ a →
    (indexSet a (keys ++ [x]) block).run e s =
      .ok x (s.setPayload a (.array (xs ++ Array.replicate (p - xs.size) .nil ++ ys)))) ∧
  ∀ block, (indexSet a (keys ++ [a]) block).run e s = .error .exhausted s

/-- Reads and writes whose bounds are the same. -/
theorem Names.of_bounds {keys : List Value} {m : Nat} (ha : s.array? a = some xs) (hle : p ≤ q)
    (hsize : q ≤ xs.size) (hstop : Part.stop ⟨p, m, true⟩ xs.size = q)
    (hread : ∀ block, (index a keys block).run e s = (newArray (xs.extract p q)).run e s)
    (hwrite : ∀ x block, (indexSet a (keys ++ [x]) block).run e s =
      (assign a ⟨p, m, true⟩ x).run e s) :
    Names keys a xs p q e s where
  le := hle
  le_size := hsize
  read := hread
  write x ys block hx hne := by
    rw [hwrite, assign_run ha hx hne, extendTo_of_le (Nat.le_trans hle hsize), hstop, splice]
  self block := (hwrite a block).trans (assign_self_run ha)

/-- A write behind the end of an array. -/
theorem NamesBehind.of_bounds {keys : List Value} {m : Nat} (ha : s.array? a = some xs)
    (hsize : xs.size < p) (hread : ∀ block, (index a keys block).run e s = .ok .nil s)
    (hwrite : ∀ x block, (indexSet a (keys ++ [x]) block).run e s =
      (assign a ⟨p, m, true⟩ x).run e s) :
    NamesBehind keys a xs p e s := by
  refine ⟨hread, fun x ys block hx hne => ?_, fun block => (hwrite a block).trans (assign_self_run ha)⟩
  have hlength : (extendTo xs p).size = p := by rw [size_extendTo]; omega
  have hstop : Part.stop ⟨p, m, true⟩ p = p := by rw [Part.stop_mk]; omega
  rw [hwrite, assign_run ha hx hne, hlength, hstop, splice_size hlength, extendTo]

theorem indexSet_range_run {j : Option Int} (hr : OfIndexes s key first last i j exclusive)
    (hwords : WordEnds i j) (ha : s.array? a = some xs) (hp : (p : Int) = placeAt i xs.size) :
    (indexSet a [key, x] block).run e s =
      (assign a ⟨p, (max (placeAfter j exclusive xs.size) p).toNat, true⟩ x).run e s := by
  simp only [indexSet, Act.run_bind, itemsOf_run ha, Ending.andThen_ok, run_view, hr.range,
    hr.rangePart_run hwords hp]

theorem indexSet_counted_run (hkey : s.payload key = .integer i)
    (hcount : s.payload count = .integer n) (hi : Number.isWord i) (hn : Number.isWord n)
    (ha : s.array? a = some xs) (hp : (p : Int) = placeAt i xs.size) (hpos : 0 ≤ n) :
    (indexSet a [key, count, x] block).run e s = (assign a ⟨p, (p + n).toNat, true⟩ x).run e s := by
  simp only [indexSet, Act.run_bind, itemsOf_run ha, Ending.andThen_ok,
    countedPart_run hkey hcount hi hn hp hpos]

/-- What can be read through a range is there to be written. -/
theorem OfIndexes.names {j : Option Int} (hr : OfIndexes s key first last i j exclusive)
    (hwords : WordEnds i j) (ha : s.array? a = some xs)
    (hb : rangeBounds (some i) j exclusive xs.size = some (p, q)) : Names [key] a xs p q e s := by
  obtain ⟨hp, hsize, hq⟩ := rangeBounds_eq_some.mp hb
  refine .of_bounds ha (by omega) (by omega) (by rw [Part.stop_mk]; omega) (fun block => ?_)
    fun x block => indexSet_range_run hr hwords ha hp
  rw [index_range_run hr hwords ha, hb]
  rfl

theorem names_counted (hkey : s.payload key = .integer i) (hcount : s.payload count = .integer n)
    (hi : Number.isWord i) (hn : Number.isWord n) (ha : s.array? a = some xs)
    (hb : sliceBounds i n xs.size = some (p, q)) : Names [key, count] a xs p q e s := by
  obtain ⟨hp, hsize, hpos, hq⟩ := sliceBounds_eq_some.mp hb
  refine .of_bounds ha (by omega) (by omega) (by rw [Part.stop_mk]; omega) (fun block => ?_)
    fun x block => indexSet_counted_run hkey hcount hi hn ha hp hpos
  rw [index_counted_run hkey hcount hi hn ha, hb]
  rfl

theorem OfIndexes.wordEnds {j : Option Int} (hr : OfIndexes s key first last i j exclusive)
    (ha : s.array? a = some xs) (h : (index a [key] block).run e s = .ok v t) : WordEnds i j := by
  simp only [index, oneOrTwoArgs, Act.run_bind, Act.run_pure, Ending.andThen_ok, itemsOf_run ha,
    run_view, hr.range] at h
  cases hb : (boundsOf first last exclusive xs.size).run e s with
  | ok bounds u => exact hr.wordEnds_of_boundsOf hb
  | error stop u =>
    rw [hb] at h
    cases h

theorem OfIndexes.namesBehind {j : Option Int} (hr : OfIndexes s key first last i j exclusive)
    (hwords : WordEnds i j) (ha : s.array? a = some xs) (hi : (xs.size : Int) < i) :
    NamesBehind [key] a xs i.toNat e s := by
  have hplace : (i.toNat : Int) = placeAt i xs.size := by
    rw [placeAt_of_nonneg (by omega)]
    omega
  refine .of_bounds ha (by omega) (fun block => ?_)
    fun x block => indexSet_range_run hr hwords ha hplace
  rw [index_range_run hr hwords ha]
  cases hb : rangeBounds (some i) j exclusive xs.size with
  | none => rfl
  | some b =>
    obtain ⟨hp, hsize, -⟩ := rangeBounds_eq_some.mp hb
    rw [Option.getD_some] at hp
    omega

theorem namesBehind_counted (hkey : s.payload key = .integer i)
    (hcount : s.payload count = .integer n) (hi : Number.isWord i) (hn : Number.isWord n)
    (hpos : 0 ≤ n) (ha : s.array? a = some xs) (hbehind : (xs.size : Int) < i) :
    NamesBehind [key, count] a xs i.toNat e s := by
  have hplace : (i.toNat : Int) = placeAt i xs.size := by
    rw [placeAt_of_nonneg (by omega)]
    omega
  refine .of_bounds ha (by omega) (fun block => ?_)
    fun x block => indexSet_counted_run hkey hcount hi hn ha hplace hpos
  rw [index_counted_run hkey hcount hi hn ha]
  cases hb : sliceBounds i n xs.size with
  | none => rfl
  | some b =>
    obtain ⟨hp, hsize, -⟩ := sliceBounds_eq_some.mp hb
    omega

/-- Reads and writes address the same segment of an array. Where a range from an integer to an integer
or to nil, inclusive or exclusive and with ends that may count from the end, reads an array and not
nil, it is the segment from its first place to the place behind its last one, and another array that
is assigned through the range takes the place of just that segment. So do a start that is not behind
the end and a count that is not negative. A start behind the end reads nil, and a write there first
fills the array up with nil. To assign the array to a segment of itself aborts the program. No bound
that is found, neither by a read nor by a write, lies outside of the array, or before the one at the
other side. -/
theorem segments (ha : s.array? a = some xs) :
    (∀ {key first last : Value} {i : Int} {j : Option Int} {exclusive : Bool},
      OfIndexes s key first last i j exclusive →
        (∀ {block v t}, (index a [key] block).run e s = .ok v t → v ≠ .nil →
          ∃ p q : Nat, Names [key] a xs p q e s ∧ (p : Int) = placeAt i xs.size ∧
            (q : Int) = max (p : Int) (min (placeAfter j exclusive xs.size) xs.size)) ∧
        (WordEnds i j → (xs.size : Int) < i → NamesBehind [key] a xs i.toNat e s)) ∧
    (∀ {key count : Value} {i n : Int}, s.payload key = .integer i → s.payload count = .integer n →
      Number.isWord i → Number.isWord n → 0 ≤ n →
        (∀ p : Nat, (p : Int) = placeAt i xs.size → p ≤ xs.size →
          ∃ q : Nat, Names [key, count] a xs p q e s ∧ (q : Int) = min (p + n) xs.size) ∧
        ((xs.size : Int) < i → NamesBehind [key, count] a xs i.toNat e s)) ∧
    (∀ {first j : Option Int} {i n : Int} {exclusive : Bool} {len p q : Nat},
      rangeBounds first j exclusive len = some (p, q) ∨ sliceBounds i n len = some (p, q) →
        p ≤ q ∧ q ≤ len) ∧
    ∀ part : Part, part.first ≤ part.stop (extendTo xs part.first).size ∧
      part.stop (extendTo xs part.first).size ≤ (extendTo xs part.first).size := by
  refine ⟨fun hr => ⟨fun h hv => ?_, fun hwords => hr.namesBehind hwords ha⟩,
    @fun key count i n hkey hcount hi hn hpos => ⟨fun p hp hsize => ?_,
      namesBehind_counted hkey hcount hi hn hpos ha⟩,
    fun h => ?_, fun part => part.stop_bounds xs⟩
  · have hwords := hr.wordEnds ha h
    rw [index_range_run hr hwords ha] at h
    cases hb : rangeBounds (some _) _ _ xs.size with
    | none =>
      rw [hb] at h
      cases h
      exact absurd rfl hv
    | some b =>
      obtain ⟨p, q⟩ := b
      obtain ⟨hp, -, hq⟩ := rangeBounds_eq_some.mp hb
      exact ⟨p, q, hr.names hwords ha hb, hp, hq⟩
  · obtain ⟨q, hq⟩ : ∃ q : Nat, (q : Int) = min (p + n) xs.size :=
      ⟨(min (p + n) xs.size).toNat, by omega⟩
    exact ⟨q, names_counted hkey hcount hi hn ha (sliceBounds_eq_some.mpr ⟨hp, hsize, hpos, hq⟩), hq⟩
  · rcases h with h | h
    · obtain ⟨-, hsize, hq⟩ := rangeBounds_eq_some.mp h
      omega
    · obtain ⟨-, hsize, hpos, hq⟩ := sliceBounds_eq_some.mp h
      omega

/-- The array of the numbers 1, 2 and 3, with nil in its place: -2 with the range from it to nil, an
array to be assigned, and the number 5. -/
def numbers : Store where
  config := {}
  objects :=
    let plain (p : Payload) : Object := { cls := CoreClass.object.value, payload := p }
    Array.replicate 33 default ++ #[plain .nil, plain (.integer 1), plain (.integer 2),
      plain (.integer 3), plain (.array #[⟨34⟩, ⟨35⟩, ⟨36⟩]), plain (.integer (-2)),
      plain (.range ⟨38⟩ .nil true), plain (.array #[⟨36⟩]), plain (.integer 5)]
  scopes := #[]
  frames := []
  scopeStack := []

/-- The last two elements by a range without an end, the last one by a start and a count, and a place
behind the end. -/
theorem segments_numbers :
    (indexSet ⟨37⟩ [⟨39⟩, ⟨40⟩] none).run (.ofFuel 1) numbers =
      .ok ⟨40⟩ (numbers.setPayload ⟨37⟩ (.array #[⟨34⟩, ⟨36⟩])) ∧
    (indexSet ⟨37⟩ [⟨35⟩, ⟨35⟩, ⟨40⟩] none).run (.ofFuel 1) numbers =
      .ok ⟨40⟩ (numbers.setPayload ⟨37⟩ (.array #[⟨34⟩, ⟨35⟩, ⟨36⟩])) ∧
    (indexSet ⟨37⟩ [⟨41⟩, ⟨35⟩, ⟨40⟩] none).run (.ofFuel 1) numbers =
      .ok ⟨40⟩ (numbers.setPayload ⟨37⟩ (.array #[⟨34⟩, ⟨35⟩, ⟨36⟩, .nil, .nil, ⟨36⟩])) := by
  have ha : numbers.array? ⟨37⟩ = some #[⟨34⟩, ⟨35⟩, ⟨36⟩] := rfl
  have hx : numbers.array? ⟨40⟩ = some #[⟨36⟩] := rfl
  have htwo : numbers.payload ⟨35⟩ = .integer 2 := rfl
  have hfive : numbers.payload ⟨41⟩ = .integer 5 := rfl
  have hr : OfIndexes numbers ⟨39⟩ ⟨38⟩ .nil (-2) none true := by constructor <;> rfl
  obtain ⟨hranges, hcounted, -, -⟩ := segments (e := .ofFuel 1) ha
  refine ⟨?_, ?_, ?_⟩
  · have hread : (index ⟨37⟩ [⟨39⟩] none).run (.ofFuel 1) numbers =
        (newArray #[⟨35⟩, ⟨36⟩]).run (.ofFuel 1) numbers := rfl
    obtain ⟨p, q, hnames, hp, hq⟩ := (hranges hr).1 hread (by decide)
    obtain rfl : p = 1 := by
      have : placeAt (-2) 3 = 1 := by decide
      exact Int.ofNat.inj (hp.trans this)
    obtain rfl : q = 3 := by
      have : max 1 (min (placeAfter none true 3) 3) = 3 := by decide
      exact Int.ofNat.inj (hq.trans this)
    exact hnames.write ⟨40⟩ _ none hx (by decide)
  · obtain ⟨q, hnames, hq⟩ := (hcounted htwo htwo rfl rfl (by decide)).1 2 rfl (by decide)
    obtain rfl : q = 3 := Int.ofNat.inj hq
    exact hnames.write ⟨40⟩ _ none hx (by decide)
  · exact ((hcounted hfive htwo rfl rfl (by decide)).2 (by decide)).2.1 ⟨40⟩ _ none hx (by decide)

end Library.Arrays

end Garnet
