import Garnet.Proofs.Ranges.Elements
import Mathlib.Tactic.IntervalCases

/-!
# Closed forms of ranges

Sums, extremes, parts and sizes of a range of integers are found without visiting its elements, or
all of them. They are what the same messages to the array of the elements give, as long as the
operations of the library on integers and arrays have not been replaced.
-/

namespace Garnet

open Eval

/-! ## Integers from one to another -/

section Interval

variable {low high step : Int} {n : Nat}

theorem sum_progression : 2 * (progression low step n).sum = n * (2 * low + (n - 1) * step) := by
  induction n generalizing low with
  | zero => simp [progression]
  | succ n ih =>
    rw [progression, List.sum_cons, Int.mul_add, ih]
    push_cast
    ring

theorem interval_eq_nil (h : high < low) : interval low high = [] := by
  rw [interval, spaced, steps_eq_zero (by decide) h, progression]

theorem sum_interval : (interval low high).sum =
    if high < low then 0 else (low + high) * (high - low + 1) / 2 := by
  split
  · rename_i h
    rw [interval_eq_nil h, List.sum_nil]
  · have hsteps : (steps low high 1 : Int) = high - low + 1 := by
      rw [steps, Int.ediv_one]
      omega
    have htwice : 2 * (interval low high).sum = (low + high) * (high - low + 1) := by
      rw [interval, spaced, sum_progression, hsteps]
      ring
    omega

theorem min?_interval : (interval low high).min? = if high < low then none else some low := by
  split
  · rename_i h
    rw [interval_eq_nil h, List.min?_nil]
  · rw [List.min?_eq_some_iff]
    exact ⟨mem_interval.mpr (by omega), fun i hi => (mem_interval.mp hi).1⟩

theorem max?_interval : (interval low high).max? = if high < low then none else some high := by
  split
  · rename_i h
    rw [interval_eq_nil h, List.max?_nil]
  · rw [List.max?_eq_some_iff]
    exact ⟨mem_interval.mpr (by omega), fun i hi => (mem_interval.mp hi).2⟩

end Interval

namespace Library.Ranges

variable {s : Store} {e : Engine} {recv v : Value} {r : Ends} {low i k : Int} {l : Limit}
  {n : Nat} {d : Datum}

/-! ## The same message to a range and to an array -/

/-- The same message to the array of the elements. -/
def onArray (recv : Value) (name : String) (args : List Value) (block : Option Value) :
    Op Value := do
  let list ← toA recv [] none
  send list name args block

/-- The run gives a value that stands for a datum. -/
def Gives (x : Op Value) (e : Engine) (s : Store) (d : Datum) : Prop :=
  ∃ v t, x.run e s = .ok v t ∧ t.Denotes v d

theorem Gives.of_makes {x : Op Value} (hx : Makes x e s fun v t => t.Denotes v d) : Gives x e s d := by
  obtain ⟨v, t, hrun, -, -, hv⟩ := hx
  exact ⟨v, t, hrun, hv⟩

/-- The operations of arrays that ranges have operations of their own for. -/
def arrayOperations : List (String × Native) :=
  [("sum", Enumerable.sum), ("min", Enumerable.minMax .lt), ("max", Enumerable.minMax .gt),
   ("first", Arrays.first), ("last", Arrays.last), ("include?", Arrays.includes),
   ("length", Arrays.length), ("count", Arrays.count)]

/-- The operations of the library on integers and arrays have not been replaced, and what is one of a
kind is in its place. -/
structure Unreplaced (s : Store) : Prop where
  nil : s.payload .nil = .nil
  bool : ∀ b, s.payload (.ofBool b) = if b then .true else .false
  cached : s.IntegersCached
  plus : s.AllAnswer Object.IsInteger "+" Library.plus
  arrays : ∀ name f, (name, f) ∈ arrayOperations → s.AllAnswer Object.IsNewArray name f

theorem Unreplaced.bool_grows {t : Store} (hs : Unreplaced s) (h : s.Grows t) (b : Bool) :
    t.payload (.ofBool b) = if b then .true else .false :=
  h.payload (hs.bool b) (by cases b <;> exact nofun)

namespace OfInts

variable (hr : OfInts s recv r low l) (hlow : Number.isWord low) (hl : l.isWord)
  (hs : Unreplaced s)

include hr hlow hl

theorem sum_run : (sum recv [] none).run e s =
    (newInt (interval low (l.last r.exclusive)).sum).run e s := by
  simp only [sum, Act.run_bind, endsOf_run hr.range, Ending.andThen_ok, hr.intBounds_run hlow hl,
    sum_interval, Option.isNone_none, List.isEmpty_nil, Bool.and_self, if_true]

omit hlow hl in
/-- With an argument or a block the array is asked. -/
theorem sum_run_array {args : List Value} {block : Option Value} (h : args ≠ [] ∨ block.isSome) :
    (sum recv args block).run e s = (onArray recv "sum" args block).run e s := by
  have hbare : (block.isNone && args.isEmpty) = false := by
    cases block <;> cases args <;> simp_all
  simp only [sum, onArray, toA, Act.run_bind, endsOf_run hr.range, Ending.andThen_ok, hbare,
    Bool.false_eq_true, if_false, Act.run_pure, Ending.andThen_assoc]
  cases (elements r).run e s with
  | error stop t => rfl
  | ok items t => simp only [Ending.andThen_ok, Act.run_bind]

theorem extreme_run (ofInts : Int → Int → Int) (ofEnds : Ends → Value) (args : List Value)
    (block : Option Value) :
    (extreme ofInts ofEnds recv args block).run e s =
      (if l.last r.exclusive < low then pure .nil
        else newInt (ofInts low (l.last r.exclusive)) : Op Value).run e s := by
  simp only [extreme, Act.run_bind, endsOf_run hr.range, Ending.andThen_ok,
    hr.intBounds_run hlow hl]

theorem extreme_gives (hs : Unreplaced s) (ofInts : Int → Int → Int) (ofEnds : Ends → Value)
    (args : List Value) (block : Option Value) :
    Gives (extreme ofInts ofEnds recv args block) e s
      (.ofInt? (if l.last r.exclusive < low then none
        else some (ofInts low (l.last r.exclusive)))) := by
  refine .of_makes (.congr (hr.extreme_run hlow hl ofInts ofEnds args block) ?_)
  split
  · exact .of_run rfl ⟨rfl, hs.nil⟩
  · exact newInt_makes hs.cached _

theorem size_run (args : List Value) (block : Option Value) :
    (size recv args block).run e s =
      (newInt (min (interval low (l.last r.exclusive)).length Number.maxWord)).run e s := by
  have hlength : max 0 (min (l.last r.exclusive - low + 1) Number.maxWord) =
      min ((interval low (l.last r.exclusive)).length : Int) Number.maxWord := by
    have : (0 : Int) ≤ Number.maxWord := by decide
    rw [length_interval]
    omega
  simp only [size, Act.run_bind, endsOf_run hr.range, Ending.andThen_ok, hr.intBounds_run hlow hl,
    hlength]

variable (hfuel : (interval low (l.last r.exclusive)).length < e.fuel)

include hfuel

/-- The array of the elements. -/
theorem toA_makes (hcached : s.IntegersCached) (args : List Value) (block : Option Value) :
    Makes (toA recv args block) e s fun v t => ∃ vs : List Value,
      t.object v = { cls := CoreClass.array.value, payload := .array vs.toArray } ∧
        t.Ints vs (interval low (l.last r.exclusive)) := by
  refine .congr (hr.toA_run hlow hl hfuel args block) ?_
  refine (makeInts_makes hcached _).bind fun vs t _ _ hvs => ?_
  exact (newArray_makes _).mono fun v u hu hv => ⟨vs, hv, hvs.grows hu⟩

/-- Iteration stops after the number that is asked for. -/
theorem first_makes (hcached : s.IntegersCached) (hv : s.payload v = .integer k) (hk : 0 ≤ k)
    (hword : k ≤ Number.maxWord) :
    Makes (Ranges.first recv [v] none) e s fun w t =>
      t.IsList w ((interval low (l.last r.exclusive)).take k.toNat) := by
  have hneg : ¬k < 0 := by omega
  have hrun : (Ranges.first recv [v] none).run e s =
      (do
        let vs ← makeInts ((interval low (l.last r.exclusive)).take k.toNat)
        newArray vs.toArray).run e s := by
    simp only [Ranges.first, atMostOneArg, Act.run_bind, Act.run_pure, Ending.andThen_ok,
      endsOf_run hr.range, needWord_run hv (Number.isWord_of_between rfl rfl hk hword), hneg, if_false]
    by_cases hzero : k = 0
    · rw [hzero]
      rfl
    · have hlimit : (some k.toNat).all (0 < ·) = true := decide_eq_true (by omega)
      simp only [beq_eq_false_iff_ne.mpr hzero, Bool.false_eq_true, if_false, Act.run_bind,
        hr.takeElements_run hlow hl hfuel hlimit, Ending.andThen_assoc, Ending.andThen_ok, within,
        Nat.sub_zero]
  refine .congr hrun ((makeInts_makes hcached _).bind fun vs t _ _ hvs => ?_)
  refine (newArray_makes _).mono fun w u hu hw => ⟨vs, ?_, hvs.grows hu⟩
  rw [Store.payload, hw]

theorem last_makes (hcached : s.IntegersCached) (hv : s.payload v = .integer k) (hk : 0 ≤ k)
    (hword : k ≤ Number.maxWord) :
    Makes (Ranges.last recv [v] none) e s fun w t =>
      t.IsList w ((interval low (l.last r.exclusive)).drop
        ((interval low (l.last r.exclusive)).length - k.toNat)) := by
  have hrun : (Ranges.last recv [v] none).run e s =
      (do
        let vs ← makeInts (interval low (l.last r.exclusive))
        newArray (vs.toArray.extract (vs.toArray.size - k.toNat) vs.toArray.size)).run e s := by
    simp only [Ranges.last, atMostOneArg, Act.run_bind, Act.run_pure, Ending.andThen_ok,
      endsOf_run hr.range, needWord_run hv (Number.isWord_of_between rfl rfl hk hword),
      hr.elements_run hlow hl hfuel, Ending.andThen_assoc]
  refine .congr hrun ((makeInts_makes hcached _).bind fun vs t _ _ hvs => ?_)
  rw [← hvs.length_eq]
  refine (newArray_makes _).mono fun w u hu hw => ⟨vs.drop (vs.length - k.toNat), ?_, ?_⟩
  · simp [Store.payload, hw]
  · exact List.forall₂_drop _ (hvs.grows hu)

end OfInts

/-! ## Against the array of the elements -/

/-- Both runs give a value that stands for the datum. -/
def BothGive (x y : Op Value) (e : Engine) (s : Store) (d : Datum) : Prop :=
  Gives x e s d ∧ Gives y e s d

section Main

variable {high : Int} {is : List Int} (hr : OfInts s recv r low (.int high))
  (hlow : Number.isWord low) (hhigh : Number.isWord high) (hs : Unreplaced s)
  (hdepth : s.depth < s.config.maxDepth)
  (his : is = interval low (if r.exclusive then high - 1 else high)) (hfuel : is.length < n + 2)

include hr hlow hhigh hs hdepth his hfuel

/-- What an operation makes of an array of the elements is what the message gives. -/
theorem onArray_gives {name : String} {f : Native} {args : List Value} {block : Option Value}
    (hf : (name, f) ∈ arrayOperations)
    (hmakes : ∀ v vs t, s.Grows t → t.depth = s.depth + 1 →
      t.payload v = .array (List.toArray vs) → t.Ints vs is →
      Makes (f v args block) (.ofFuel n) t fun w u => u.Denotes w d) :
    Gives (onArray recv name args block) (.ofFuel (n + 2)) s d := by
  subst his
  refine .of_makes ((hr.toA_makes (e := .ofFuel (n + 2)) hlow hhigh hfuel hs.cached [] none).bind
    fun v t ht hd hv => ?_)
  obtain ⟨vs, hv, hvs⟩ := hv
  have hanswers : t.AnswersWith v name f := hs.arrays name f hf t ht v ⟨_, hv⟩
  refine send_makes hanswers (by rw [hd, ht.config]; exact hdepth) ?_
    fun _ u d => (Store.denotes_iff_of_objects (s := u) (t := { u with depth := d }) rfl).mpr
  exact hmakes v vs _ (ht.deeper _) (congrArg (· + 1) hd) (congrArg Object.payload hv) hvs

omit hdepth hfuel in
/-- The elements are added one by one, by messages from inside of the operation. -/
theorem sum_bothGive (hdepth : s.depth + 1 < s.config.maxDepth) (hfuel : is.length < n + 2) :
    BothGive (sum recv [] none) (onArray recv "sum" [] none) (.ofFuel (n + 4)) s
      (.integer is.sum) := by
  have hroom : s.depth < s.config.maxDepth := by omega
  refine ⟨?_, onArray_gives (n := n + 2) hr hlow hhigh hs hroom his (by omega) (f := Enumerable.sum)
    (by simp [arrayOperations]) fun v vs t ht hd hv hvs => ?_⟩
  · rw [his]
    exact .of_makes (.congr (hr.sum_run hlow hhigh) (newInt_makes hs.cached _))
  · refine sum_makes (ht.allAnswer hs.plus) (ht.integersCached hs.cached) hv hvs ?_ ?_
    · rw [hd, ht.config]
      exact hdepth
    · rw [hvs.length_eq]
      exact hfuel

theorem min_bothGive :
    BothGive (extreme (fun low _ => low) Ends.first recv [] none) (onArray recv "min" [] none)
      (.ofFuel (n + 2)) s (.ofInt? is.min?) := by
  refine ⟨?_, onArray_gives hr hlow hhigh hs hdepth his hfuel (f := Enumerable.minMax .lt)
    (by simp [arrayOperations]) fun v vs t ht _ hv hvs => ?_⟩
  · rw [his, min?_interval]
    exact hr.extreme_gives hlow hhigh hs ..
  · obtain ⟨w, hrun, hw⟩ := min_run hv hvs (ht.payload hs.nil nofun)
    exact .of_run hrun hw

theorem max_bothGive :
    BothGive (extreme (fun _ high => high) Ends.last recv [] none) (onArray recv "max" [] none)
      (.ofFuel (n + 2)) s (.ofInt? is.max?) := by
  refine ⟨?_, onArray_gives hr hlow hhigh hs hdepth his hfuel (f := Enumerable.minMax .gt)
    (by simp [arrayOperations]) fun v vs t ht _ hv hvs => ?_⟩
  · rw [his, max?_interval]
    exact hr.extreme_gives hlow hhigh hs ..
  · obtain ⟨w, hrun, hw⟩ := max_run hv hvs (ht.payload hs.nil nofun)
    exact .of_run hrun hw

theorem first_bothGive (hv : s.payload v = .integer k) (hk : 0 ≤ k) (hword : k ≤ Number.maxWord) :
    BothGive (first recv [v] none) (onArray recv "first" [v] none) (.ofFuel (n + 2)) s
      (.list ((is.take k.toNat).map .integer)) := by
  refine ⟨?_, onArray_gives hr hlow hhigh hs hdepth his hfuel (f := Arrays.first)
    (by simp [arrayOperations]) fun l vs t ht _ hl hvs => ?_⟩
  · subst his
    exact .of_makes ((hr.first_makes (e := .ofFuel (n + 2)) hlow hhigh hfuel hs.cached hv hk
      hword).mono fun _ _ _ hw => hw.denotes)
  · exact (first_makes hl hvs (ht.payload hv nofun) hk hword).mono fun _ _ _ hw => hw.denotes

theorem last_bothGive (hv : s.payload v = .integer k) (hk : 0 ≤ k) (hword : k ≤ Number.maxWord) :
    BothGive (last recv [v] none) (onArray recv "last" [v] none) (.ofFuel (n + 2)) s
      (.list ((is.drop (is.length - k.toNat)).map .integer)) := by
  refine ⟨?_, onArray_gives hr hlow hhigh hs hdepth his hfuel (f := Arrays.last)
    (by simp [arrayOperations]) fun l vs t ht _ hl hvs => ?_⟩
  · subst his
    exact .of_makes ((hr.last_makes (e := .ofFuel (n + 2)) hlow hhigh hfuel hs.cached hv hk
      hword).mono fun _ _ _ hw => hw.denotes)
  · exact (last_makes hl hvs (ht.payload hv nofun) hk hword).mono fun _ _ _ hw => hw.denotes

theorem includes_bothGive (hv : s.payload v = .integer i) :
    BothGive (includes recv [v] none) (onArray recv "include?" [v] none) (.ofFuel (n + 2)) s
      (.bool (decide (i ∈ is))) := by
  refine ⟨?_, onArray_gives hr hlow hhigh hs hdepth his hfuel (f := Arrays.includes)
    (by simp [arrayOperations]) fun l vs t ht _ hl hvs => ?_⟩
  · have horder : plainOrder? s v r.last = some (compare i high) := by
      rw [plainOrder?, hv, hr.payload_last]
      rfl
    have hmem : (decide (low ≤ i) && (Limit.int high).admits r.exclusive i) = decide (i ∈ is) := by
      rw [his, Bool.eq_iff_iff, Bool.and_eq_true, decide_eq_true_iff, decide_eq_true_iff, mem_interval,
        Limit.admits]
      cases r.exclusive <;> simp
    refine ⟨_, s, hr.includes_run hv horder none, ?_⟩
    rw [hmem]
    exact ⟨rfl, hs.bool _⟩
  · exact .of_run (includes_ints_run hl hvs (ht.payload hv (by simp))) ⟨rfl, hs.bool_grows ht _⟩

theorem size_bothGive (hlength : is.length ≤ Number.maxWord) :
    BothGive (size recv [] none) (onArray recv "length" [] none) (.ofFuel (n + 2)) s
      (.integer is.length) := by
  refine ⟨?_, onArray_gives hr hlow hhigh hs hdepth his hfuel (f := Arrays.length)
    (by simp [arrayOperations]) fun l vs t ht _ hl hvs => ?_⟩
  · rw [← min_eq_left hlength, his]
    exact .of_makes (.congr (hr.size_run hlow hhigh [] none) (newInt_makes hs.cached _))
  · exact length_makes hl hvs (ht.integersCached hs.cached)

end Main

/-- A range of integers of 64 bits, and the array of its elements. As long as the operations of the
library on integers and arrays have not been replaced, both answer alike: with the sum of the
elements, also from an argument or by a block, the least and the greatest element or nil, the
elements at the beginning and at the end, whether an integer is among them, and how many there are,
as long as that has 64 bits as well. -/
theorem closed_forms {high : Int} {is : List Int} (hr : OfInts s recv r low (.int high))
    (hlow : Number.isWord low) (hhigh : Number.isWord high)
    -- one less than the end is an integer of 64 bits as well
    (_hexclusive : r.exclusive = true → Number.minWord < high)
    (hs : Unreplaced s) (hdepth : s.depth + 1 < s.config.maxDepth)
    (his : is = interval low (if r.exclusive then high - 1 else high)) (hfuel : is.length < n + 2) :
    (∀ args block, args ≠ [] ∨ block.isSome →
      (sum recv args block).run (.ofFuel (n + 4)) s =
        (onArray recv "sum" args block).run (.ofFuel (n + 4)) s) ∧
    BothGive (sum recv [] none) (onArray recv "sum" [] none) (.ofFuel (n + 4)) s
      (.integer is.sum) ∧
    BothGive (extreme (fun low _ => low) Ends.first recv [] none) (onArray recv "min" [] none)
      (.ofFuel (n + 4)) s (.ofInt? is.min?) ∧
    BothGive (extreme (fun _ high => high) Ends.last recv [] none) (onArray recv "max" [] none)
      (.ofFuel (n + 4)) s (.ofInt? is.max?) ∧
    (∀ v k, s.payload v = .integer k → 0 ≤ k → k ≤ Number.maxWord →
      BothGive (first recv [v] none) (onArray recv "first" [v] none) (.ofFuel (n + 4)) s
        (.list ((is.take k.toNat).map .integer)) ∧
      BothGive (last recv [v] none) (onArray recv "last" [v] none) (.ofFuel (n + 4)) s
        (.list ((is.drop (is.length - k.toNat)).map .integer))) ∧
    (∀ v i, s.payload v = .integer i →
      BothGive (includes recv [v] none) (onArray recv "include?" [v] none) (.ofFuel (n + 4)) s
        (.bool (decide (i ∈ is)))) ∧
    (is.length ≤ Number.maxWord →
      BothGive (size recv [] none) (onArray recv "length" [] none) (.ofFuel (n + 4)) s
        (.integer is.length)) := by
  have hroom : s.depth < s.config.maxDepth := by omega
  have hfuel' : is.length < n + 2 + 2 := by omega
  exact ⟨fun _ _ => hr.sum_run_array, sum_bothGive hr hlow hhigh hs his hdepth hfuel,
    min_bothGive hr hlow hhigh hs hroom his hfuel',
    max_bothGive hr hlow hhigh hs hroom his hfuel',
    fun _ _ hv hk hword => ⟨first_bothGive hr hlow hhigh hs hroom his hfuel' hv hk hword,
      last_bothGive hr hlow hhigh hs hroom his hfuel' hv hk hword⟩,
    fun _ _ => includes_bothGive hr hlow hhigh hs hroom his hfuel',
    size_bothGive hr hlow hhigh hs hroom his hfuel'⟩

/-- A class with some operations of the library. -/
def classWith (methods : List (String × Nat)) : Object :=
  { cls := CoreClass.classClass.value
    payload := .module
      { name := "", isModule := false, base := none, alloc := .none
        methods := methods.foldl (fun t (name, i) => t.insert name ⟨name, .builtin i, false⟩ .pub) {} } }

def integerMethods : List (String × Nat) := [("+", 170)]

def arrayMethods : List (String × Nat) :=
  [("sum", 123), ("min", 129), ("max", 130), ("first", 344), ("last", 345), ("include?", 373),
   ("length", 342), ("count", 374)]

/-- The range `1..3` and the integer 2, behind the classes of integers and arrays, nil and the truth
values. -/
def oneToThree : Store where
  config := { cacheMin := 1, cacheMax := 0 }
  objects :=
    let plain (p : Payload) : Object := { cls := CoreClass.object.value, payload := p }
    let integer (i : Int) : Object := { cls := CoreClass.integer.value, payload := .integer i }
    (List.replicate 10 default ++ classWith integerMethods :: List.replicate 3 default ++
      classWith arrayMethods :: List.replicate 18 default ++
      [plain .nil, plain .true, plain .false, plain (.range ⟨37⟩ ⟨38⟩ false), integer 1, integer 3,
       integer 2]).toArray
  scopes := #[]
  frames := []
  scopeStack := []

theorem oneToThree_object {v : Value} {p : Payload} (hp : (oneToThree.object v).payload = p) :
    (∀ i, p = .integer i → (oneToThree.object v).IsBare) ∧ ∀ xs, p ≠ .array xs := by
  obtain ⟨i⟩ := v
  by_cases hi : i < 40
  · interval_cases i <;> cases hp <;>
      exact ⟨fun _ h => (by first | exact ⟨rfl, rfl, .inl ⟨_, rfl, rfl⟩⟩ | cases h), by intro _ h; cases h⟩
  · have hdefault : oneToThree.object ⟨i⟩ = default := Store.object_of_size_le (Nat.le_of_not_lt hi)
    rw [hdefault] at hp
    cases hp
    constructor <;> intro _ h <;> cases h

theorem run_eq_of_all {k : Nat} {f : Native} (h : (Library.all.toList[k]?).map Entry.run = some f) :
    Library.run k = f := by
  obtain ⟨entry, hentry, rfl⟩ := Option.map_eq_some_iff.mp h
  rw [Array.getElem?_toList] at hentry
  exact Library.run_eq hentry

theorem oneToThree_unreplaced : Unreplaced oneToThree := by
  refine ⟨rfl, fun b => by cases b <;> rfl, Store.integersCached_of_lt (by decide), ?_,
    fun name f hf => ?_⟩
  · refine Store.allAnswer_of_isBare (c := CoreClass.integer.value) ?_ ?_ ?_ rfl rfl rfl
      (run_eq_of_all rfl)
    · rintro v ⟨i, hi⟩
      exact (oneToThree_object hi).1 i rfl
    · rintro ⟨i, hi⟩
      cases hi
    · rintro o ⟨i, hi⟩ ho
      obtain ⟨_, -, hc⟩ | ⟨_, hxs, -⟩ := ho.kind
      · exact hc
      · rw [hi] at hxs
        cases hxs
  · have hanswers {m : ModuleInfo} {k : Nat} {d : MethodDef} {visibility : Visibility}
        (hm : oneToThree.module? CoreClass.array.value = some m)
        (hd : m.methods.lookup name = some (d, visibility)) (hbody : d.body = .builtin k)
        (hrun : Library.run k = f) : oneToThree.AllAnswer Object.IsNewArray name f := by
      refine Store.allAnswer_of_isBare ?_ ?_ ?_ hm hd hbody hrun
      · rintro v ⟨xs, h⟩
        exact absurd rfl ((oneToThree_object (congrArg Object.payload h)).2 xs)
      · rintro ⟨xs, h⟩
        cases congrArg Object.payload h
      · rintro _ ⟨xs, rfl⟩ _
        rfl
    simp only [arrayOperations, List.mem_cons, Prod.mk.injEq, List.not_mem_nil, or_false] at hf
    rcases hf with ⟨rfl, rfl⟩ | ⟨rfl, rfl⟩ | ⟨rfl, rfl⟩ | ⟨rfl, rfl⟩ | ⟨rfl, rfl⟩ | ⟨rfl, rfl⟩ |
      ⟨rfl, rfl⟩ | ⟨rfl, rfl⟩ <;> exact hanswers rfl rfl rfl (run_eq_of_all rfl)

/-- The range and its array have the sum 6, and 2 among their elements. -/
theorem closed_forms_oneToThree :
    BothGive (sum ⟨36⟩ [] none) (onArray ⟨36⟩ "sum" [] none) (.ofFuel 6) oneToThree (.integer 6) ∧
    BothGive (includes ⟨36⟩ [⟨39⟩] none) (onArray ⟨36⟩ "include?" [⟨39⟩] none) (.ofFuel 6) oneToThree
      (.bool true) ∧
    BothGive (first ⟨36⟩ [⟨39⟩] none) (onArray ⟨36⟩ "first" [⟨39⟩] none) (.ofFuel 6) oneToThree
      (.list [.integer 1, .integer 2]) ∧
    BothGive (size ⟨36⟩ [] none) (onArray ⟨36⟩ "length" [] none) (.ofFuel 6) oneToThree
      (.integer 3) := by
  have hr : OfInts oneToThree ⟨36⟩ ⟨⟨37⟩, ⟨38⟩, false⟩ 1 (.int 3) := by
    constructor <;> rfl
  have hints : [1, 2, 3] = interval 1 3 := by rfl
  obtain ⟨-, hsum, -, -, hparts, hincludes, hsize⟩ := closed_forms (n := 2) hr rfl rfl nofun
    oneToThree_unreplaced (by decide) hints (by decide)
  exact ⟨hsum, hincludes ⟨39⟩ 2 rfl, (hparts ⟨39⟩ 2 rfl (by decide) (by decide)).1,
    hsize (by decide)⟩

end Library.Ranges

end Garnet
