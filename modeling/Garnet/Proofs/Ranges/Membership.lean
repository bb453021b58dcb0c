import Garnet.Proofs.Comparisons
import Garnet.Proofs.Hierarchy.Order
import Garnet.Proofs.Ranges.Limits

/-!
# Iteration over a range and membership in it

What `each`, `to_a` and `include?` come to for a range that begins with an integer and ends with an
integer or a double.
-/

namespace Garnet

open Eval

theorem CoreClass.value_inj {c d : CoreClass} (h : c.value = d.value) : c = d := by
  have hindex : c.ctorIdx = d.ctorIdx := congrArg Value.index h
  have hround (c : CoreClass) : CoreClass.all[c.ctorIdx]? = some c := by cases c <;> rfl
  exact Option.some.inj ((hround c).symm.trans (hindex ▸ hround d))

/-- What a value is as the end of a range of integers. -/
def Store.limit? (s : Store) (v : Value) : Option Limit :=
  match s.payload v with
  | .integer high => some (.int high)
  | .float x => some (.float x)
  | _ => none

/-- What the end of a range holds. -/
def Limit.payload : Limit → Payload
  | int high => .integer high
  | float x => .float x

theorem Store.payload_of_limit? {s : Store} {v : Value} {l : Limit} (h : s.limit? v = some l) :
    s.payload v = l.payload := by
  unfold limit? at h
  split at h <;> cases h <;> assumption

/-- Whether iteration can go up to the limit. -/
def Limit.isWord : Limit → Bool
  | int high => Number.isWord high
  | float _ => true

theorem Limit.last_le {l : Limit} (hl : l.isWord) (exclusive : Bool) :
    l.last exclusive ≤ Number.maxWord := by
  have hwords : Number.minWord ≤ Number.maxWord := by decide
  cases l with
  | int high =>
    have : high ≤ Number.maxWord := by
      have : Number.isWord high = true := hl
      simp only [Number.isWord, Bool.and_eq_true, decide_eq_true_eq] at this
      exact this.2
    rw [last]
    split <;> omega
  | float x =>
    simp only [last, Number.floorWord]
    split
    · exact max_le hwords (min_le_right _ _)
    · split
      · decide
      · split
        · exact hwords
        · exact le_rfl

namespace Library.Ranges

variable {s : Store} {e : Engine} {recv v : Value} {r : Ends} {low : Int} {l : Limit} {i : Int}

/-- A range of integers. -/
structure OfInts (s : Store) (recv : Value) (r : Ends) (low : Int) (l : Limit) : Prop where
  range : s.range? recv = some (r.first, r.last, r.exclusive)
  first : s.payload r.first = .integer low
  last : s.limit? r.last = some l
  nil : s.payload .nil = .nil

theorem endsOf_run (hr : s.range? recv = some (r.first, r.last, r.exclusive)) :
    (endsOf recv).run e s = .ok r s := by
  simp only [endsOf, view, bind, Act.run, hr]
  rfl

namespace OfInts

variable (hr : OfInts s recv r low l)

include hr

theorem first_ne_nil : r.first.isNil = false := by
  refine beq_false_of_ne fun heq => ?_
  have := hr.first
  rw [heq, hr.nil] at this
  cases this

theorem payload_last : s.payload r.last = l.payload := Store.payload_of_limit? hr.last

theorem last_ne_nil : r.last.isNil = false := by
  refine beq_false_of_ne fun heq => ?_
  have := hr.payload_last
  rw [heq, hr.nil] at this
  cases l <;> cases this

/-- The list of the integers that iteration comes to. -/
theorem intBounds_run (hlow : Number.isWord low) (hl : l.isWord) :
    (intBounds? r).run e s = .ok (some (low, some (l.last r.exclusive))) s := by
  have hfirst : s.word? r.first = some low := by rw [Store.word?, hr.first]; exact if_pos hlow
  have hlast := hr.payload_last
  simp only [intBounds?, view, bind, Act.run, hfirst, hr.last_ne_nil, Bool.false_eq_true, if_false]
  cases l with
  | int high =>
    have hword : s.word? r.last = some high := by rw [Store.word?, hlast]; exact if_pos hl
    rw [hword]
    rfl
  | float x =>
    have hword : s.word? r.last = none := by rw [Store.word?, hlast]; rfl
    have hfloat : s.float? r.last = some x := by rw [Store.float?, hlast]; rfl
    rw [hword, hfloat]
    rfl

theorem walkRange_run {σ : Type} (visit : σ → Value → Op (σ × Bool)) (hlow : Number.isWord low)
    (hl : l.isWord) (hfuel : (interval low (l.last r.exclusive)).length < e.fuel) (st : σ) :
    (walkRange visit r st).run e s =
      (visitInts visit (interval low (l.last r.exclusive)) st).run e s := by
  refine Eq.trans ?_ (walkInts_run visit (by decide) (Limit.last_le hl _) hfuel st s)
  simp only [walkRange, Act.run_bind, hr.intBounds_run hlow hl, Ending.andThen_ok]

/-- The elements up to a limit of their number. -/
theorem takeElements_run (hlow : Number.isWord low) (hl : l.isWord)
    (hfuel : (interval low (l.last r.exclusive)).length < e.fuel) {limit : Option Nat}
    (hlimit : limit.all (0 < ·)) :
    (takeElements r limit).run e s =
      ((makeInts (within limit 0 (interval low (l.last r.exclusive)))).run e s).andThen
        fun vs => .ok vs.toArray := by
  have htake := visitInts_take (e := e) limit (interval low (l.last r.exclusive)) #[] hlimit s
  simp only [Array.empty_append] at htake
  rw [takeElements, hr.walkRange_run _ hlow hl hfuel]
  exact htake

theorem elements_run (hlow : Number.isWord low) (hl : l.isWord)
    (hfuel : (interval low (l.last r.exclusive)).length < e.fuel) :
    (elements r).run e s =
      ((makeInts (interval low (l.last r.exclusive))).run e s).andThen fun vs => .ok vs.toArray := by
  simp only [elements, hr.last_ne_nil, Bool.false_eq_true, if_false]
  exact hr.takeElements_run hlow hl hfuel rfl

theorem toA_run (hlow : Number.isWord low) (hl : l.isWord)
    (hfuel : (interval low (l.last r.exclusive)).length < e.fuel) (args : List Value)
    (block : Option Value) :
    (toA recv args block).run e s =
      (do newList (← makeInts (interval low (l.last r.exclusive)))).run e s := by
  simp only [toA, Act.run_bind, endsOf_run hr.range, Ending.andThen_ok, hr.elements_run hlow hl hfuel,
    Ending.andThen_assoc]
  rfl

theorem each_run (hlow : Number.isWord low) (hl : l.isWord)
    (hfuel : (interval low (l.last r.exclusive)).length < e.fuel) (args : List Value) (b : Value) :
    (each recv args (some b)).run e s =
      (do
        yieldInts b (interval low (l.last r.exclusive))
        pure recv).run e s := by
  simp only [each, Act.run_bind, endsOf_run hr.range, Ending.andThen_ok,
    hr.walkRange_run _ hlow hl hfuel, visitInts_yield]

/-- Iteration is refused when an end is an integer beyond 64 bits. -/
theorem walkRange_run_refused {σ : Type} (visit : σ → Value → Op (σ × Bool))
    (hwords : ¬(Number.isWord low ∧ l.isWord)) (st : σ) :
    (walkRange visit r st).run e s = (cantIterate r : Op σ).run e s := by
  have hlast := hr.payload_last
  have htext : s.text? r.first = none := by rw [Store.text?, hr.first]
  simp only [walkRange, intBounds?, view, bind, Act.run, hr.last_ne_nil, Bool.false_eq_true, if_false]
  by_cases hlow : Number.isWord low
  · have hfirst : s.word? r.first = some low := by rw [Store.word?, hr.first]; exact if_pos hlow
    rw [hfirst]
    cases l with
    | int high =>
      have hword : s.word? r.last = none := by
        rw [Store.word?, hlast]
        exact if_neg fun hhigh => hwords ⟨hlow, hhigh⟩
      have hfloat : s.float? r.last = none := by rw [Store.float?, hlast]; rfl
      simp only [hword, hfloat, cantIterate, className, view, typeError, raise, bind, Act.run]
    | float x => exact absurd ⟨hlow, rfl⟩ hwords
  · have hfirst : s.word? r.first = none := by rw [Store.word?, hr.first]; exact if_neg hlow
    rw [hfirst]
    simp only [pure, Act.run, htext]

end OfInts

/-! ## Membership -/

/-- Two integers are compared at once. -/
theorem order_integers_run {a b : Value} {x y : Int} (ha : s.payload a = .integer x)
    (hb : s.payload b = .integer y) : (order a b).run e s = .ok (compare x y) s := by
  have horder : plainOrder? s a b = some (compare x y) := by rw [plainOrder?, ha, hb]
  rw [order_run, horder]

/-- An integer is compared with a double after it has been rounded. -/
theorem plainOrder?_float {a b : Value} {i : Int} {x : Float} (ha : s.payload a = .integer i)
    (hb : s.payload b = .float x) :
    plainOrder? s a b = compareFloats (Decimal.ofInt i) x := by
  have hnumber : s.number? a = some (Decimal.ofInt i) := by rw [Store.number?, ha]
  have hnumber' : s.number? b = some x := by rw [Store.number?, hb]
  rw [plainOrder?, ha, hb, hnumber, hnumber']

namespace OfInts

variable (hr : OfInts s recv r low l) (hv : s.payload v = .integer i)

include hr hv

/-- What an order to the end says about membership. -/
theorem admits_eq {o : Ordering} (ho : plainOrder? s v r.last = some o) :
    l.admits r.exclusive i = Limit.below r.exclusive o := by
  have hlast := hr.payload_last
  cases l with
  | int high =>
    have horder : plainOrder? s v r.last = some (compare i high) := by
      rw [plainOrder?, hv, hlast]
      rfl
    rw [horder] at ho
    cases ho
    rw [Limit.admits]
    rcases lt_trichotomy i high with h | rfl | h
    · rw [compare_lt_iff_lt.mpr h, decide_eq_true h, decide_eq_true h.le, ite_self]
      rfl
    · rw [compare_eq_iff_eq.mpr rfl, decide_eq_false (lt_irrefl i), decide_eq_true le_rfl]
      cases r.exclusive <;> rfl
    · rw [compare_gt_iff_gt.mpr h, decide_eq_false h.not_gt, decide_eq_false h.not_ge, ite_self]
      rfl
  | float x =>
    rw [plainOrder?_float hv hlast] at ho
    rw [Limit.admits, ho, Option.any_some]

/-- An integer that has an order to the end is inside where it is not too low and the limit admits
it. -/
theorem isInside_run {o : Ordering} (ho : plainOrder? s v r.last = some o) :
    (isInside r v).run e s = .ok (decide (low ≤ i) && l.admits r.exclusive i) s := by
  have hlow : (order r.first v).run e s = .ok (compare low i) s := order_integers_run hr.first hv
  have hhigh : (order v r.last).run e s = .ok o s := by rw [order_run, ho]
  have htooLow : (compare low i == .gt) = decide (i < low) := by
    rw [Bool.eq_iff_iff, beq_iff_eq, compare_gt_iff_gt, decide_eq_true_iff]
  rw [hr.admits_eq hv ho]
  simp only [isInside, hr.first_ne_nil, hr.last_ne_nil, Bool.false_eq_true, if_false, bind, pure,
    Act.run, hlow, htooLow]
  by_cases hi : i < low
  · rw [decide_eq_true hi, if_pos rfl, decide_eq_false (by omega)]
    rfl
  · rw [decide_eq_false hi, if_neg Bool.false_ne_true, decide_eq_true (by omega)]
    simp only [Act.run, hhigh]
    cases o <;> rfl

theorem includes_run {o : Ordering} (ho : plainOrder? s v r.last = some o) (block : Option Value) :
    (includes recv [v] block).run e s =
      .ok (.ofBool (decide (low ≤ i) && l.admits r.exclusive i)) s := by
  simp only [includes, oneArg, newBool, rescue, bind, pure, Act.run, endsOf_run hr.range,
    hr.isInside_run hv ho, id]

end OfInts

/-- Only what is not a number has no order to an integer. -/
theorem OfInts.eq_nan (hr : OfInts s recv r low l) (hv : s.payload v = .integer i)
    (ho : plainOrder? s v r.last = none) : ∃ x, l = .float x ∧ x.isNaN = true := by
  have hlast := hr.payload_last
  cases l with
  | int high =>
    rw [plainOrder?, hv, hlast] at ho
    cases ho
  | float x =>
    refine ⟨x, rfl, ?_⟩
    by_contra hx
    rw [plainOrder?_float hv hlast, Doubles.compareFloats_eq_toRat (Doubles.ofInt_spec i).1
      (Bool.eq_false_iff.mpr hx)] at ho
    cases ho

/-- A range up to what is not a number: the library refuses the comparison, and the refusal can be
put into words. -/
structure RefusesNaN (s : Store) (r : Ends) (n : Nat) : Prop where
  answers : ∀ v i, s.payload v = .integer i → s.AnswersWith v "<=>" Integers.compareOp
  depth : s.depth < s.config.maxDepth
  inspected : ∀ u, (Engine.ofFuel (n + 2)).perform (.inspection r.last) s ≠ .error .exhausted u

/-- A class is among its own ancestors. -/
theorem contains_ancestors_self {s : Store} (hs : 0 < s.objects.size) (c : Value) :
    (s.ancestors c).contains c := by
  obtain ⟨n, hn⟩ := Nat.exists_eq_add_one.mpr hs
  rw [List.contains_iff_mem, Store.ancestors_eq, Store.mem_foldl_addNew, hn, Store.instanceSteps, hn,
    Store.moduleSteps]
  exact .inr (List.mem_cons_self ..)

theorem isA_of_classOf {s : Store} {c : CoreClass} (hc : s.classOf v = c.value)
    (hne : c ≠ .object) : s.isA v c.value := by
  -- what is not there passes for an object of class Object
  have hlt : v.index < s.objects.size := by
    by_contra hge
    rw [Store.classOf, Store.object_of_size_le (Nat.le_of_not_lt hge)] at hc
    exact hne (CoreClass.value_inj hc).symm
  rw [Store.isA, hc, contains_ancestors_self (by omega), Bool.or_true]

namespace OfInts

variable {n : Nat} {x : Float}

/-- Nothing is found inside of a range up to what is not a number. -/
theorem includes_run_nan (hr : OfInts s recv r low (.float x)) (hv : s.payload v = .integer i)
    (hx : x.isNaN = true) (hrefuses : RefusesNaN s r n) (block : Option Value) :
    ∃ t, (includes recv [v] block).run (.ofFuel (n + 2)) s = .ok .false t := by
  have hlast : s.payload r.last = .float x := hr.payload_last
  have hnone : compareFloats (Decimal.ofInt i) x = none := Doubles.compareFloats_nan hx
  have hsend : (send v "<=>" [r.last] none).run (.ofFuel (n + 2)) s = .ok .nil s := by
    have hv' : Store.payload { s with depth := s.depth + 1 } v = .integer i := hv
    have hlast' : Store.payload { s with depth := s.depth + 1 } r.last = .float x := hlast
    obtain ⟨_, _, hfind, hm, hf⟩ := hrefuses.answers v i hv
    rw [send_run hfind hm hf, Engine.deeper, if_neg (Nat.not_le_of_lt hrefuses.depth),
      integer_compare_run hv', hlast', Integers.numberOrder?, hnone]
    rfl
  have hword : s.word? .nil = none := by rw [Store.word?, hr.nil]
  have horder : plainOrder? s v r.last = none := by rw [plainOrder?_float hv hlast, hnone]
  -- the comparison with the end is refused
  obtain ⟨exc, t, hrun, hclass⟩ : ∃ exc t, (order v r.last).run (.ofFuel (n + 2)) s =
      .error (.signal (.raise exc)) t ∧ t.classOf exc = CoreClass.argumentError.value := by
    rw [order_run, horder]
    simp only [hsend, hword]
    refine (incomparable_run v r.last _ s).resolve_right ?_
    rintro ⟨u, hu, -⟩
    exact hrefuses.inspected u hu
  have hlow : (order r.first v).run (.ofFuel (n + 2)) s = .ok (compare low i) s :=
    order_integers_run hr.first hv
  have hisA : t.isA exc CoreClass.argumentError.value := isA_of_classOf hclass (by decide)
  simp only [includes, isInside, oneArg, newBool, rescue, view, bind, pure, Act.run,
    endsOf_run hr.range, hr.first_ne_nil, hr.last_ne_nil, Bool.false_eq_true, if_false, hlow]
  cases compare low i == .gt with
  | true => exact ⟨s, rfl⟩
  | false =>
    simp only [Bool.false_eq_true, if_false, Act.run, hrun, id, hisA, if_true]
    exact ⟨t, rfl⟩

end OfInts

/-! ## Iteration against membership -/

theorem cantIterate_run {α : Type} (r : Ends) (e : Engine) (s : Store) :
    ∃ exc t, (cantIterate r : Op α).run e s = .error (.signal (.raise exc)) t ∧
      t.classOf exc = CoreClass.typeError.value := by
  simp only [cantIterate, className, view, typeError, raise, bind, Act.run]
  exact ⟨_, _, rfl, Store.classOf_newException ..⟩

/-- A range that begins with an integer and ends with an integer or a double. `include?` finds the
integers inside that are not below the first one and that the limit admits. When both ends can be
counted in 64 bits, `each` calls its block with the integers of an interval, in increasing order, and
`to_a` makes an array of them, and these are the integers that are found inside if and only if the
limit is faithful; otherwise both are refused. -/
theorem each_includes {n : Nat} (hr : OfInts s recv r low l)
    (hnan : ∀ x, l = .float x → x.isNaN = true → RefusesNaN s r n) :
    (Number.isWord low → l.isWord →
      -- one less than the end is an integer of 64 bits as well
      (∀ high, l = .int high → r.exclusive = true → Number.minWord < high) →
      (interval low (l.last r.exclusive)).length < n + 2 →
        (∀ args b, (each recv args (some b)).run (.ofFuel (n + 2)) s =
          (do
            yieldInts b (interval low (l.last r.exclusive))
            pure recv).run (.ofFuel (n + 2)) s) ∧
        (∀ args block, (toA recv args block).run (.ofFuel (n + 2)) s =
          (do newList (← makeInts (interval low (l.last r.exclusive)))).run (.ofFuel (n + 2)) s) ∧
        (interval low (l.last r.exclusive)).Pairwise (· < ·) ∧
        ((∀ i, i ∈ interval low (l.last r.exclusive) ↔ low ≤ i ∧ l.admits r.exclusive i) ↔
          l.Faithful low r.exclusive)) ∧
    (¬(Number.isWord low ∧ l.isWord) → ∀ args block,
      (∃ exc t, (each recv args block).run (.ofFuel (n + 2)) s = .error (.signal (.raise exc)) t ∧
        t.classOf exc = CoreClass.typeError.value) ∧
      ∃ exc t, (toA recv args block).run (.ofFuel (n + 2)) s = .error (.signal (.raise exc)) t ∧
        t.classOf exc = CoreClass.typeError.value) ∧
    ∀ v i, s.payload v = .integer i → ∀ block,
      ∃ t, (includes recv [v] block).run (.ofFuel (n + 2)) s =
        .ok (.ofBool (decide (low ≤ i) && l.admits r.exclusive i)) t := by
  refine ⟨fun hlow hl _ hfuel => ?_, fun hwords => ?_, fun v i hv block => ?_⟩
  · exact ⟨hr.each_run hlow hl hfuel, hr.toA_run hlow hl hfuel, progression_increasing (by decide),
      l.faithful_iff hlow⟩
  · intro args block
    have htoA (args : List Value) (block : Option Value) :
        ∃ exc t, (toA recv args block).run (.ofFuel (n + 2)) s = .error (.signal (.raise exc)) t ∧
          t.classOf exc = CoreClass.typeError.value := by
      obtain ⟨exc, t, hrun, hclass⟩ := cantIterate_run (α := Array Value) r (.ofFuel (n + 2)) s
      refine ⟨exc, t, ?_, hclass⟩
      simp only [toA, elements, takeElements, Act.run_bind, endsOf_run hr.range, Ending.andThen_ok,
        hr.last_ne_nil, Bool.false_eq_true, if_false, hr.walkRange_run_refused _ hwords, hrun,
        Ending.andThen_error]
    refine ⟨?_, htoA args block⟩
    cases block with
    | none => exact htoA args none
    | some b =>
      obtain ⟨exc, t, hrun, hclass⟩ := cantIterate_run (α := Unit) r (.ofFuel (n + 2)) s
      refine ⟨exc, t, ?_, hclass⟩
      simp only [each, Act.run_bind, endsOf_run hr.range, Ending.andThen_ok,
        hr.walkRange_run_refused _ hwords, hrun, Ending.andThen_error]
  · cases ho : plainOrder? s v r.last with
    | some o => exact ⟨s, hr.includes_run hv ho block⟩
    | none =>
      obtain ⟨x, rfl, hx⟩ := hr.eq_nan hv ho
      have hadmits : (Limit.float x).admits r.exclusive i = false := Limit.admits_nan hx
      rw [hadmits, Bool.and_false]
      exact hr.includes_run_nan hv hx (hnan x rfl hx) block

/-- The range `1...3.0` and the integer 3, with nil in its place. -/
def wholeEnd : Store where
  config := {}
  objects :=
    let plain (p : Payload) : Object := { cls := CoreClass.object.value, payload := p }
    Array.replicate 33 default ++ #[plain .nil, plain (.range ⟨35⟩ ⟨36⟩ true), plain (.integer 1),
      plain (.float 3.0), plain (.integer 3)]
  scopes := #[]
  frames := []
  scopeStack := []

/-- It comes to 3, which is not inside. -/
theorem each_includes_wholeEnd :
    (∀ b, (each ⟨34⟩ [] (some b)).run (.ofFuel 5) wholeEnd =
      (do
        yieldInts b [1, 2, 3]
        pure ⟨34⟩ : Op Value).run (.ofFuel 5) wholeEnd) ∧
    (∃ t, (includes ⟨34⟩ [⟨37⟩] none).run (.ofFuel 5) wholeEnd = .ok .false t) ∧
    ¬(Limit.float 3.0).Faithful 1 true := by
  have hr : OfInts wholeEnd ⟨34⟩ ⟨⟨35⟩, ⟨36⟩, true⟩ 1 (.float 3.0) := by
    constructor <;> rfl
  have hlast : (Limit.float 3.0).last true = 3 := by rfl
  have hints : interval 1 3 = [1, 2, 3] := by rfl
  have hadmits : (Limit.float 3.0).admits true 3 = false := by rfl
  have hnan : ∀ x, Limit.float 3.0 = .float x → x.isNaN = true →
      RefusesNaN wholeEnd ⟨⟨35⟩, ⟨36⟩, true⟩ 3 := by
    rintro x hx hnan
    cases hx
    cases hnan
  obtain ⟨hwords, -, hincludes⟩ := each_includes hr hnan
  obtain ⟨heach, -, -, hfaithful⟩ := hwords rfl rfl nofun (by rw [hlast, hints]; decide)
  rw [hlast, hints] at heach hfaithful
  refine ⟨heach [], ?_, fun h => ?_⟩
  · have hthree := hincludes ⟨37⟩ 3 rfl none
    rwa [hadmits, Bool.and_false] at hthree
  · have hmember := (hfaithful.mpr h 3).mp (by decide)
    rw [hadmits] at hmember
    exact Bool.false_ne_true hmember.2

end Library.Ranges

end Garnet
