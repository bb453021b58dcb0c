import Garnet.Proofs.Hashes.Entries
import Garnet.Proofs.Interning
import Garnet.Proofs.Requests

/-!
# Comparisons without a message

Equality and order are asked by the messages `==` and `<=>`, but numbers, texts, symbols, nil and
the truth values are compared at once, and so is everything with itself. As long as the receiver
answers these messages with the operations of the library, both ways agree, but for a hash that has
come to hold equal keys: it does not answer that it equals itself.
-/

namespace Garnet

/-! ## Doubles -/

namespace Eval

open Float.Model (UnpackedFloat)

variable {x y : Float}

theorem compare_swap (x y : UnpackedFloat) : y.compare x = (x.compare y).map Ordering.swap := by
  cases x with
  | notANumber => cases y <;> rfl
  | zero s => cases y with
    | finite r => cases r <;> rfl
    | infinity r => cases r <;> rfl
    | _ => rfl
  | infinity s => cases y with
    | infinity r => cases s <;> cases r <;> rfl
    | _ => cases s <;> rfl
  | finite s m e hm => cases y with
    | finite r m' e' hm' =>
      have hexponent : compare e' e = (compare e e').swap := (Int.compare_swap e e').symm
      have hmantissa : compare m' m = (compare m m').swap := (Nat.compare_swap m m').symm
      cases s <;> cases r <;> dsimp only [UnpackedFloat.compare] <;>
        simp only [Option.map_some, hexponent, hmantissa, Ordering.swap_then,
          Ordering.swap_swap] <;> rfl
    | infinity r => cases s <;> cases r <;> rfl
    | _ => cases s <;> rfl

theorem beq_iff_compare :
    (x == y) = true ↔ x.toModel.unpack.compare y.toModel.unpack = some .eq := by
  have hbeq : (x == y) = (x.toModel.unpack.compare y.toModel.unpack == some .eq) := rfl
  rw [hbeq, beq_iff_eq]

theorem lt_iff_compare : x < y ↔ x.toModel.unpack.compare y.toModel.unpack = some .lt := by
  have hlt : x < y ↔ decide (x.toModel < y.toModel) = true := .rfl
  have hmodel : x.toModel < y.toModel ↔
      (x.toModel.unpack.compare y.toModel.unpack == some .lt) = true := .rfl
  rw [hlt, decide_eq_true_iff, hmodel, beq_iff_eq]

theorem beq_comm (x y : Float) : (x == y) = (y == x) := by
  rw [Bool.eq_iff_iff, beq_iff_compare, beq_iff_compare, compare_swap x.toModel.unpack]
  cases x.toModel.unpack.compare y.toModel.unpack with
  | none => rfl
  | some o => cases o <;> decide

theorem beq_self (hx : x.isNaN = false) : (x == x) = true := by
  rw [beq_iff_compare]
  have hx : x.toModel.unpack.isNaN = false := hx
  cases h : x.toModel.unpack with
  | notANumber => rw [h] at hx; cases hx
  | zero s => rfl
  | infinity s => cases s <;> rfl
  | finite s m e hm => cases s <;> dsimp only [UnpackedFloat.compare] <;> simp

/-- Equality of doubles is what their order says. -/
theorem compareFloats_eq (x y : Float) : (compareFloats x y == some .eq) = (x == y) := by
  have hgt : x > y ↔ y.toModel.unpack.compare x.toModel.unpack = some .lt := lt_iff_compare
  rw [compare_swap x.toModel.unpack] at hgt
  simp only [compareFloats, lt_iff_compare, hgt, beq_iff_compare]
  rw [Bool.eq_iff_iff, beq_iff_compare]
  cases h : x.toModel.unpack.compare y.toModel.unpack with
  | none => decide
  | some o => cases o <;> decide

end Eval

/-! ## Equality -/

/-- The operation of the library that answers `==` for what holds this. -/
def Payload.equalOp? : Payload → Option Native
  | .nil | .true | .false => some Library.Objects.identical
  | .integer _ => some Library.Integers.equal
  | .float _ => some Library.Floats.equal
  | .text _ => some Library.Strings.equal
  | .symbol _ => some Library.Symbols.equal
  | .array _ => some Library.Arrays.equal
  | .hash _ => some Library.Hashes.equal
  | .range .. => some Library.Ranges.equal
  | .object | .module _ | .proc _ | .regexp _ => none

/-- The equality of two values that are compared without a message. -/
def Store.plainEqual? (s : Store) (a b : Value) : Option Bool :=
  if a == b then some true
  else
    match s.payload a, s.payload b with
    | .integer x, .integer y => some (x == y)
    | .float x, .float y => some (x == y)
    | .integer x, .float y => some (Eval.equalsFloat x y)
    | .float x, .integer y => some (Eval.equalsFloat y x)
    | .text x, .text y => some (x == y)
    | .symbol x, .symbol y => some (x == y)
    | .nil, _ | .true, _ | .false, _ => some false
    | _, _ => none

theorem Store.plainEqual?_self (s : Store) (v : Value) : s.plainEqual? v v = some true := by
  rw [plainEqual?, if_pos (beq_self_eq_true v)]

namespace Eval

variable {s : Store} {a b : Value} {e : Engine} {f : Native}

theorem equals_run (a b : Value) (e : Engine) (s : Store) :
    (equals a b).run e s =
      match s.plainEqual? a b with
      | some r => .ok r s
      | none => (do pure (← send a "==" [b] none).truthy : Op Bool).run e s := by
  simp only [equals, Store.plainEqual?]
  by_cases hab : a == b
  · rw [if_pos hab, if_pos hab]
    rfl
  · rw [if_neg hab, if_neg hab]
    simp only [payload, view, bind, Act.run]
    split <;> simp_all only [pure, Act.run]

theorem equals_self (v : Value) (e : Engine) (s : Store) : (equals v v).run e s = .ok true s := by
  rw [equals_run, s.plainEqual?_self]

theorem allEqual_self (vs : List Value) (e : Engine) (s : Store) :
    (Library.Arrays.allEqual vs vs).run e s = .ok true s := by
  induction vs with
  | nil => rfl
  | cons v vs ih =>
    simp only [Library.Arrays.allEqual, bind, Act.run, equals_self, if_true]
    exact ih

end Eval

/-- Where no key equals an earlier one, each is found at its own place. -/
theorem Table.get?_of_mem {eql : Value → Value → Bool} {t : Table} {key v : Value}
    (hrefl : eql key key = true) (hkeys : t.keys.Pairwise fun k l => eql k l = false)
    (hmem : (key, v) ∈ t.pairs) : t.get? eql key = some v := by
  obtain ⟨before, after, hpairs⟩ := List.append_of_mem hmem
  have hbefore : ∀ entry ∈ before, ¬eql entry.1 key = true := by
    intro entry hentry
    rw [keys_eq, hpairs, List.map_append, List.map_cons] at hkeys
    have hfalse := (List.pairwise_append.mp hkeys).2.2 entry.1 (List.mem_map_of_mem hentry) key
      List.mem_cons_self
    rw [hfalse]
    decide
  have hfind : t.pairs.find? (fun entry => eql entry.1 key) = some (key, v) := by
    rw [hpairs, List.find?_append, List.find?_eq_none.mpr hbefore, Option.none_or,
      List.find?_cons_of_pos (a := (key, v)) hrefl]
  rw [get?_eq_find?, hfind]
  rfl

theorem Store.keyEql_self (s : Store) (v : Value) : s.keyEql v v = true := by
  unfold keyEql
  cases s.objects.size <;> simp [keyEqlWithin]

/-- No two keys of a hash are equal. What is no hash has no keys. -/
def Store.KeysApart (s : Store) (v : Value) : Prop :=
  (s.keys v).Pairwise fun k l => s.keyEql k l = false

namespace Eval

variable {s : Store} {a b : Value} {e : Engine} {f : Native}

/-- Whether each of the entries has a value that equals the one a hash has for its key. -/
theorem allIn_run (h : Value) (e : Engine) {pairs : List (Value × Value)}
    (hplain : ∀ entry ∈ pairs, ∀ w, (s.entries h).get? s.keyEql entry.1 = some w →
      (s.plainEqual? entry.2 w).isSome) :
    (Library.Hashes.allIn h pairs).run e s =
      .ok (pairs.all fun entry => ((s.entries h).get? s.keyEql entry.1).any fun w =>
        s.plainEqual? entry.2 w == some true) s := by
  induction pairs with
  | nil => rfl
  | cons entry pairs ih =>
    obtain ⟨hentry, hpairs⟩ := List.forall_mem_cons.mp hplain
    simp only [Library.Hashes.allIn, lookupEntry, view, bind, Act.run, List.all_cons]
    cases hget : (s.entries h).get? s.keyEql entry.1 with
    | none => rfl
    | some w =>
      obtain ⟨r, hr⟩ := Option.isSome_iff_exists.mp (hentry w hget)
      have hequals : (equals entry.2 w).run e s = .ok r s := by rw [equals_run, hr]
      simp only [Act.run, hequals, Option.any_some, hr]
      cases r with
      | false => rfl
      | true => exact ih hpairs

/-! ### What the operations of the library answer -/

theorem identical_run (a b : Value) :
    (Library.Objects.identical a [b] none).run e s = .ok (.ofBool (a == b)) s :=
  rfl

theorem compare_beq (i j : Int) : (some (compare i j) == some .eq) = (i == j) := by
  rw [Bool.eq_iff_iff, beq_iff_eq, beq_iff_eq, Option.some.injEq, Int.compare_eq_eq]

theorem integer_equal_run {i : Int} (ha : s.payload a = .integer i)
    (hb : (s.number? b).isSome) :
    (Library.Integers.equal a [b] none).run e s =
      .ok (.ofBool (Library.Integers.numberOrder? i (s.payload b) == some .eq)) s := by
  have hinteger : s.integer? a = some i := by rw [Store.integer?, ha]
  unfold Store.number? at hb
  simp only [Library.Integers.equal, Library.Integers.intOf, oneArg, payload, view, newBool, bind,
    pure, Act.run]
  cases hp : s.payload b with
  | integer j => simp only [Act.run, hinteger, Option.getD_some]
  | float y => simp only [Act.run, hinteger, Option.getD_some]
  | _ => rw [hp] at hb; cases hb

theorem float_equal_run {x : Float} (ha : s.payload a = .float x) (b : Value) :
    (Library.Floats.equal a [b] none).run e s =
      .ok (.ofBool ((s.number? b).bind (compareFloats x) == some .eq)) s := by
  simp only [Library.Floats.equal, Library.Floats.orderWith?, Library.Floats.floatOf, Store.float?,
    oneArg, view, newBool, bind, pure, Act.run, ha]
  rfl

theorem text_equal_run {x : String} (ha : s.payload a = .text x) (b : Value) :
    (Library.Strings.equal a [b] none).run e s = .ok (.ofBool (s.text? b == some x)) s := by
  have htext : s.text? a = some x := by rw [Store.text?, ha]
  simp only [Library.Strings.equal, Library.Strings.textOf, oneArg, view, newBool, bind, pure,
    Act.run, htext]
  rfl

theorem symbol_equal_run {x : String} (ha : s.payload a = .symbol x) (b : Value) :
    (Library.Symbols.equal a [b] none).run e s = .ok (.ofBool (s.symbol? b == some x)) s := by
  have hsymbol : s.symbol? a = some x := by rw [Store.symbol?, ha]
  simp only [Library.Symbols.equal, Library.Symbols.symbolName, oneArg, view, newBool, bind, pure,
    Act.run, hsymbol]
  rfl

theorem array_equal_run_self {xs : Array Value} (ha : s.payload a = .array xs) :
    (Library.Arrays.equal a [a] none).run e s = .ok .true s := by
  have harray : s.array? a = some xs := by rw [Store.array?, ha]
  simp only [Library.Arrays.equal, Library.Arrays.itemsOf, Library.Arrays.sameItems, oneArg, view,
    newBool, bind, pure, Act.run, harray, Option.getD_some, beq_self_eq_true, if_true,
    allEqual_self]
  rfl

/-- A hash compares the value of each entry with the one that it finds for the key. -/
theorem hash_equal_run_self {d : HashData} (ha : s.payload a = .hash d)
    (hplain : ∀ entry ∈ d.table.pairs, ∀ w, d.table.get? s.keyEql entry.1 = some w →
      (s.plainEqual? entry.2 w).isSome) :
    (Library.Hashes.equal a [a] none).run e s =
      .ok (.ofBool (d.table.pairs.all fun entry => (d.table.get? s.keyEql entry.1).any fun w =>
        s.plainEqual? entry.2 w == some true)) s := by
  have hhash : s.hash? a = some d := by rw [Store.hash?, ha]
  have hentries : s.entries a = d.table := by rw [Store.entries, hhash]; rfl
  have hall := allIn_run a e (hentries ▸ hplain)
  rw [hentries] at hall
  simp only [Library.Hashes.equal, oneArg, view, newBool, bind, pure, Act.run, hhash,
    beq_self_eq_true, if_true, hall]

/-- Where the keys are apart, it finds the value itself. -/
theorem hash_equal_run_self_of_keysApart {d : HashData} (ha : s.payload a = .hash d)
    (hkeys : s.KeysApart a) : (Library.Hashes.equal a [a] none).run e s = .ok .true s := by
  have hkeys : d.table.keys.Pairwise fun k l => s.keyEql k l = false := by
    rwa [Store.KeysApart, Store.keys, ha] at hkeys
  have hget (entry) (hentry : entry ∈ d.table.pairs) :
      d.table.get? s.keyEql entry.1 = some entry.2 :=
    Table.get?_of_mem (s.keyEql_self _) hkeys hentry
  rw [hash_equal_run_self ha, List.all_eq_true.mpr fun entry hentry => ?_]
  · rfl
  · rw [hget entry hentry, Option.any_some, s.plainEqual?_self]
    rfl
  · intro entry hentry w hw
    rw [hget entry hentry] at hw
    cases hw
    rw [s.plainEqual?_self]
    rfl

theorem range_equal_run_self {first last : Value} {exclusive : Bool}
    (ha : s.payload a = .range first last exclusive) :
    (Library.Ranges.equal a [a] none).run e s = .ok .true s := by
  have hrange : s.range? a = some (first, last, exclusive) := by rw [Store.range?, ha]
  simp only [Library.Ranges.equal, Library.Ranges.endsOf, oneArg, view, newBool, bind, pure,
    Act.run, hrange, bne_self_eq_false, Bool.false_eq_true, if_false, equals_self, Bool.not_true]
  rfl

/-- The library answers everything that it equals itself, but for what is not a number and for
hashes with equal keys. -/
theorem equalOp_run_self {p : Payload} (hp : s.payload a = p) (hf : p.equalOp? = some f)
    (hnumber : ∀ x, p = .float x → x.isNaN = false) (hkeys : s.KeysApart a) :
    (f a [a] none).run e s = .ok .true s := by
  have htrue (r : Bool) (hr : r = true) : Ending.ok (Value.ofBool r) s = .ok .true s := by
    rw [hr]
    rfl
  cases p with
  | nil | true | false =>
    cases hf
    rw [identical_run, htrue _ (beq_self_eq_true a)]
  | integer i =>
    cases hf
    have hsome : (s.number? a).isSome := by rw [Store.number?, hp]; rfl
    rw [integer_equal_run hp hsome, hp]
    exact htrue _ ((compare_beq i i).trans (beq_self_eq_true i))
  | float x =>
    cases hf
    have hsome : s.number? a = some x := by rw [Store.number?, hp]
    rw [float_equal_run hp, hsome]
    exact htrue _ ((compareFloats_eq x x).trans (beq_self (hnumber x rfl)))
  | text x =>
    cases hf
    have htext : s.text? a = some x := by rw [Store.text?, hp]
    rw [text_equal_run hp, htext, htrue _ (beq_self_eq_true _)]
  | symbol x =>
    cases hf
    have hsymbol : s.symbol? a = some x := by rw [Store.symbol?, hp]
    rw [symbol_equal_run hp, hsymbol, htrue _ (beq_self_eq_true _)]
  | array =>
    cases hf
    exact array_equal_run_self hp
  | hash =>
    cases hf
    exact hash_equal_run_self_of_keysApart hp hkeys
  | range =>
    cases hf
    exact range_equal_run_self hp
  | object | module | proc | regexp => cases hf

/-- For two values, the library answers what the comparison without a message gives. -/
theorem equalOp_run_of_ne {r : Bool} (hf : (s.payload a).equalOp? = some f) (hne : (a == b) = false)
    (hr : s.plainEqual? a b = some r) : (f a [b] none).run e s = .ok (.ofBool r) s := by
  unfold Store.plainEqual? at hr
  rw [if_neg (Bool.eq_false_iff.mp hne)] at hr
  split at hr
  case h_1 x y ha hb =>
    rw [ha] at hf
    cases hf
    cases hr
    rw [integer_equal_run ha (by rw [Store.number?, hb]; rfl), hb, ← compare_beq]
    rfl
  case h_2 x y ha hb =>
    rw [ha] at hf
    cases hf
    cases hr
    rw [float_equal_run ha, Store.number?, hb, ← compareFloats_eq]
    rfl
  case h_3 x y ha hb =>
    rw [ha] at hf
    cases hf
    cases hr
    rw [integer_equal_run ha (by rw [Store.number?, hb]; rfl), hb, equalsFloat,
      ← compareFloats_eq]
    rfl
  case h_4 x y ha hb =>
    rw [ha] at hf
    cases hf
    cases hr
    rw [float_equal_run ha, Store.number?, hb, equalsFloat, beq_comm, ← compareFloats_eq]
    rfl
  case h_5 x y ha hb =>
    rw [ha] at hf
    cases hf
    cases hr
    have htext : s.text? b = some y := by rw [Store.text?, hb]
    rw [text_equal_run ha, htext, Option.some_beq_some, BEq.comm]
  case h_6 x y ha hb =>
    rw [ha] at hf
    cases hf
    cases hr
    have hsymbol : s.symbol? b = some y := by rw [Store.symbol?, hb]
    rw [symbol_equal_run ha, hsymbol, Option.some_beq_some, BEq.comm]
  case h_7 ha | h_8 ha | h_9 ha =>
    rw [ha] at hf
    cases hf
    cases hr
    rw [identical_run, hne]
  case h_10 => cases hr

/-- The answer to a message is what the comparison without one gives. -/
theorem equalOp_run {r : Bool} (hf : (s.payload a).equalOp? = some f)
    (hnumber : ∀ x, s.payload a = .float x → x.isNaN = false) (hkeys : a = b → s.KeysApart a)
    (hr : s.plainEqual? a b = some r) : (f a [b] none).run e s = .ok (.ofBool r) s := by
  by_cases hab : a = b
  · subst hab
    rw [Store.plainEqual?_self] at hr
    cases hr
    exact equalOp_run_self rfl hf hnumber (hkeys rfl)
  · exact equalOp_run_of_ne hf (beq_false_of_ne hab) hr

end Eval

/-! ## Order -/

/-- The operation of the library that answers `<=>` for what holds this. -/
def Payload.orderOp? : Payload → Option Native
  | .integer _ => some Library.Integers.compareOp
  | .float _ => some Library.Floats.compareOp
  | .text _ => some Library.Strings.compareOp
  | .symbol _ => some Library.Symbols.compareOp
  | .array _ => some Library.Arrays.compareOp
  | _ => none

/-- The integers of the interned range are where they are taken from. -/
def Store.IntegersCached (s : Store) : Prop :=
  ∀ i, s.config.interns i = true → s.payload (s.config.place i) = .integer i

theorem Store.Interned.integersCached {s : Store} (hs : s.Interned) : s.IntegersCached :=
  fun i hi => (hs (.integer i) _ hi).mpr rfl

/-- Nothing is interned in a range that ends before it begins. -/
theorem Store.integersCached_of_lt {s : Store} (h : s.config.cacheMax < s.config.cacheMin) :
    s.IntegersCached := by
  intro i hi
  rw [Config.interns, Bool.and_eq_true, decide_eq_true_iff, decide_eq_true_iff] at hi
  omega

namespace Eval

variable {s t : Store} {a b : Value} {e : Engine} {f : Native} {o : Ordering}

/-- The refusal of two values that have no order. -/
def incomparable (a b : Value) : Op Ordering := do
  let shown ← inspectOrClass b
  let kind ← className a
  argumentError s!"comparison of {kind} with {shown} failed"

theorem order_run (a b : Value) (e : Engine) (s : Store) :
    (order a b).run e s =
      match plainOrder? s a b with
      | some o => .ok o s
      | none =>
        match (send a "<=>" [b] none).run e s with
        | .error stop t => .error stop t
        | .ok r t =>
          match t.word? r with
          | some k => .ok (compare k 0) t
          | none => (incomparable a b).run e t := by
  simp only [order, view, bind, Act.run]
  cases plainOrder? s a b with
  | some o => rfl
  | none =>
    simp only [Act.run]
    cases (send a "<=>" [b] none).run e s with
    | error stop t => rfl
    | ok r t =>
      dsimp only
      cases t.word? r <;> rfl

theorem inspectOrClass_run (v : Value) (e : Engine) (t : Store) :
    (∃ shown u, (inspectOrClass v).run e t = .ok shown u) ∨
    ∃ u, e.perform (.inspection v) t = .error .exhausted u ∧
      (inspectOrClass v).run e t = .error .exhausted u := by
  simp only [inspectOrClass, bind, Act.run]
  by_cases hv : (t.payload v).isNumberOrNil
  · rw [if_pos hv]
    rcases e.perform (.inspection v) t with ⟨out, u⟩ | ⟨_ | _, u⟩
    · exact .inl ⟨_, _, rfl⟩
    · exact .inl ⟨_, _, rfl⟩
    · exact .inr ⟨_, rfl, rfl⟩
  · rw [if_neg hv]
    exact .inl ⟨_, _, rfl⟩

/-- An ArgumentError, if the inspection of the second value comes to an end. -/
theorem incomparable_run (a b : Value) (e : Engine) (t : Store) :
    (∃ exc u, (incomparable a b).run e t = .error (.signal (.raise exc)) u ∧
      u.classOf exc = CoreClass.argumentError.value) ∨
    ∃ u, e.perform (.inspection b) t = .error .exhausted u ∧
      (incomparable a b).run e t = .error .exhausted u := by
  simp only [incomparable, bind, Act.run]
  rcases inspectOrClass_run b e t with ⟨shown, u, hrun⟩ | ⟨u, hexhausted, hrun⟩
  · rw [hrun]
    have hclass := Store.classOf_newException (s := u) CoreClass.argumentError.value
      s!"comparison of {u.className a} with {shown} failed"
    exact .inl ⟨_, _, rfl, hclass⟩
  · rw [hrun]
    exact .inr ⟨u, hexhausted, rfl⟩

/-- To make the number of an order gives an integer that stands for it. -/
theorem newOrder_run (hs : s.IntegersCached) (o : Ordering) (e : Engine) :
    ∃ v t, (newOrder (some o)).run e s = .ok v t ∧ t.payload v = .integer (orderNumber o) := by
  cases hi : s.config.interns (orderNumber o) with
  | true => exact ⟨_, _, Store.newInt_run_interned hi e, hs _ hi⟩
  | false =>
    exact ⟨_, _, Store.newInt_run_fresh hi e, congrArg Object.payload (Store.object_alloc s _)⟩

theorem integer_compare_run {i : Int} (ha : s.payload a = .integer i) (b : Value) :
    (Library.Integers.compareOp a [b] none).run e s =
      (newOrder (Library.Integers.numberOrder? i (s.payload b))).run e s := by
  have hinteger : s.integer? a = some i := by rw [Store.integer?, ha]
  simp only [Library.Integers.compareOp, Library.Integers.intOf, oneArg, payload, view, bind, pure,
    Act.run, hinteger, Option.getD_some]

theorem float_compare_run {x : Float} (ha : s.payload a = .float x) (b : Value) :
    (Library.Floats.compareOp a [b] none).run e s =
      (newOrder ((s.number? b).bind (compareFloats x))).run e s := by
  have hfloat : s.float? a = some x := by rw [Store.float?, ha]
  simp only [Library.Floats.compareOp, Library.Floats.orderWith?, Library.Floats.floatOf, oneArg,
    view, bind, pure, Act.run, hfloat, Option.getD_some]

theorem text_compare_run {x : String} (ha : s.payload a = .text x) (b : Value) :
    (Library.Strings.compareOp a [b] none).run e s =
      (newOrder ((s.text? b).map (compare x))).run e s := by
  have htext : s.text? a = some x := by rw [Store.text?, ha]
  simp only [Library.Strings.compareOp, Library.Strings.textOf, oneArg, view, bind, pure, Act.run,
    htext, Option.getD_some]

/-- What has an order without a message has it from the library as well. -/
theorem orderOp_run (e : Engine) (ho : plainOrder? s a b = some o) :
    ∃ f, (s.payload a).orderOp? = some f ∧
      (f a [b] none).run e s = (newOrder (some o)).run e s := by
  unfold plainOrder? at ho
  split at ho
  case h_1 x y ha hb =>
    refine ⟨Library.Integers.compareOp, by rw [ha]; rfl, ?_⟩
    rw [integer_compare_run ha, hb, ← ho]
    rfl
  case h_2 x y ha hb =>
    have htext : s.text? b = some y := by rw [Store.text?, hb]
    refine ⟨Library.Strings.compareOp, by rw [ha]; rfl, ?_⟩
    rw [text_compare_run ha, htext, ← ho]
    rfl
  case h_3 hintegers _ =>
    split at ho
    case h_2 => cases ho
    case h_1 x y hx hy =>
      unfold Store.number? at hx
      split at hx
      case h_1 i ha =>
        cases hx
        refine ⟨Library.Integers.compareOp, by rw [ha]; rfl, ?_⟩
        unfold Store.number? at hy
        split at hy
        case h_1 j hb => exact absurd hb (hintegers i j ha)
        case h_2 hb =>
          cases hy
          rw [integer_compare_run ha, hb, ← ho]
          rfl
        case h_3 => cases hy
      case h_2 ha =>
        cases hx
        refine ⟨Library.Floats.compareOp, by rw [ha]; rfl, ?_⟩
        rw [float_compare_run ha, hy, ← ho]
        rfl
      case h_3 => cases hx

end Eval

/-! ## Messages to the library -/

namespace Store

variable {s t : Store} {a : Value}

/-- The message comes to an operation of the library. -/
def AnswersWith (s : Store) (v : Value) (name : String) (f : Native) : Prop :=
  ∃ r i, s.findMethod v name .all = .ok r ∧ r.method.body = .builtin i ∧ Library.run i = f

/-- What the library has for the messages `==` and `<=>` to a value has not been replaced. -/
structure ComparesPlainly (s : Store) (v : Value) : Prop where
  equal : ∀ f, (s.payload v).equalOp? = some f → s.AnswersWith v "==" f
  order : ∀ f, (s.payload v).orderOp? = some f → s.AnswersWith v "<=>" f

theorem keyEqlWithin_of_objects (h : t.objects = s.objects) (n : Nat) (a b : Value) :
    t.keyEqlWithin n a b = s.keyEqlWithin n a b := by
  have hpayload (v : Value) : t.payload v = s.payload v := by
    rw [payload, object, h, ← object, ← payload]
  induction n generalizing a b with
  | zero => rfl
  | succ n ih => simp only [keyEqlWithin, hpayload, ih]

theorem KeysApart.of_objects (hs : s.KeysApart a) (h : t.objects = s.objects) : t.KeysApart a := by
  have hkeys : t.keys a = s.keys a := by
    rw [keys, payload, object, h, ← object, ← payload, ← keys]
  have heql (k l : Value) : t.keyEql k l = s.keyEql k l := by
    rw [keyEql, keyEqlWithin_of_objects h, h, ← keyEql]
  unfold KeysApart at hs ⊢
  simpa only [hkeys, heql] using hs

end Store

namespace Eval

variable {n : Nat} {s t : Store} {a b : Value}

/-- Equality is the truth of the answer to `==`, also where no message is sent. -/
theorem equals_run_eq_send {f : Native} (hf : (s.payload a).equalOp? = some f)
    (hanswers : s.AnswersWith a "==" f) (hdepth : s.depth < s.config.maxDepth)
    (hnumber : ∀ x, s.payload a = .float x → x.isNaN = false) (hkeys : a = b → s.KeysApart a) :
    (equals a b).run (.ofFuel (n + 2)) s =
      (do pure (← send a "==" [b] none).truthy : Op Bool).run (.ofFuel (n + 2)) s := by
  rw [equals_run]
  cases hr : s.plainEqual? a b with
  | none => rfl
  | some r =>
    obtain ⟨_, _, hfind, hm, hf'⟩ := hanswers
    have hop : (f a [b] none).run (.ofFuel n) { s with depth := s.depth + 1 } =
        .ok (.ofBool r) { s with depth := s.depth + 1 } :=
      equalOp_run hf hnumber (fun hab => (hkeys hab).of_objects rfl) hr
    have hsend : (send a "==" [b] none).run (.ofFuel (n + 2)) s = .ok (.ofBool r) s := by
      rw [send_run hfind hm hf', Engine.deeper, if_neg (Nat.not_le_of_lt hdepth), hop]
      rfl
    simp only [bind, pure, Act.run, hsend]
    cases r <;> rfl

/-- A message that the library answers gives the number of the order that is found without one. -/
theorem send_order_run {o : Ordering} (ha : s.ComparesPlainly a)
    (hdepth : s.depth < s.config.maxDepth) (hcached : s.IntegersCached)
    (ho : plainOrder? s a b = some o) :
    ∃ r t, (send a "<=>" [b] none).run (.ofFuel (n + 2)) s = .ok r t ∧
      t.word? r = some (orderNumber o) := by
  have hcached : Store.IntegersCached { s with depth := s.depth + 1 } := hcached
  obtain ⟨r, t, hrun, hr⟩ := newOrder_run hcached o (.ofFuel n)
  have ho : plainOrder? { s with depth := s.depth + 1 } a b = some o := ho
  obtain ⟨f, hf, hop⟩ := orderOp_run (.ofFuel n) ho
  obtain ⟨_, _, hfind, hm, hf⟩ := ha.order f hf
  refine ⟨r, { t with depth := t.depth - 1 }, ?_, ?_⟩
  · rw [send_run hfind hm hf, Engine.deeper, if_neg (Nat.not_le_of_lt hdepth), hop, hrun]
  · have hword : Number.isWord (orderNumber o) = true := by cases o <;> rfl
    have hword? : t.word? r = some (orderNumber o) := by rw [Store.word?, hr]; exact if_pos hword
    exact hword?

theorem compare_orderNumber (o : Ordering) : compare (orderNumber o) 0 = o := by cases o <;> rfl

/-- As long as what a value holds is compared by the operations of the library, equality is the
truth of what the message `==` answers, and the order of two values is the sign of what `<=>`
answers, if that is an integer of 64 bits; any other answer leads to an ArgumentError, unless the
inspection of the second value does not end. What leaves the message leaves the comparison. A
hash must not hold equal keys when it is compared with itself. -/
theorem equals_order_eq_send (hkind : (s.payload a).equalOp?.isSome) (ha : s.ComparesPlainly a)
    (hcached : s.IntegersCached) (hdepth : s.depth < s.config.maxDepth)
    (hnumber : ∀ x, s.payload a = .float x → x.isNaN = false) (hkeys : a = b → s.KeysApart a) :
    (equals a b).run (.ofFuel (n + 2)) s =
      (do pure (← send a "==" [b] none).truthy : Op Bool).run (.ofFuel (n + 2)) s ∧
    (∀ r t, (send a "<=>" [b] none).run (.ofFuel (n + 2)) s = .ok r t →
      (∀ k, t.word? r = some k → ∃ u, (order a b).run (.ofFuel (n + 2)) s = .ok (compare k 0) u) ∧
      (t.word? r = none →
        (∃ exc u, (order a b).run (.ofFuel (n + 2)) s = .error (.signal (.raise exc)) u ∧
          u.classOf exc = CoreClass.argumentError.value) ∨
        ∃ u, (Engine.ofFuel (n + 2)).perform (.inspection b) t = .error .exhausted u ∧
          (order a b).run (.ofFuel (n + 2)) s = .error .exhausted u)) ∧
    ∀ stop t, (send a "<=>" [b] none).run (.ofFuel (n + 2)) s = .error stop t →
      (order a b).run (.ofFuel (n + 2)) s = .error stop t := by
  obtain ⟨f, hf⟩ := Option.isSome_iff_exists.mp hkind
  refine ⟨equals_run_eq_send hf (ha.equal f hf) hdepth hnumber hkeys, ?_⟩
  rw [order_run]
  cases ho : plainOrder? s a b with
  | some o =>
    obtain ⟨r, t, hrun, hr⟩ := send_order_run (n := n) ha hdepth hcached ho
    rw [hrun]
    refine ⟨fun r' t' heq => ?_, fun stop t' heq => nomatch heq⟩
    cases heq
    rw [hr]
    refine ⟨fun k hk => ?_, fun h => nomatch h⟩
    cases hk
    exact ⟨s, by rw [compare_orderNumber]⟩
  | none =>
    refine ⟨fun r t hrun => ?_, fun stop t hrun => by rw [hrun]⟩
    rw [hrun]
    dsimp only
    refine ⟨fun k hk => ⟨t, by rw [hk]⟩, fun hnone => ?_⟩
    rw [hnone]
    exact incomparable_run a b _ t

/-- The integers 2 and 7, with the comparisons of the library. -/
def twoIntegers : Store :=
  let equal : MethodDef := ⟨"==", .builtin 186, false⟩
  let compareOp : MethodDef := ⟨"<=>", .builtin 188, false⟩
  let methods := (({} : MethodTable).insert "==" equal .pub).insert "<=>" compareOp .pub
  let integer : ModuleInfo :=
    { name := "Integer", isModule := false, base := none, alloc := .none, methods }
  { config := { cacheMin := 1, cacheMax := 0 }
    objects := #[{ cls := ⟨0⟩, payload := .module integer }, { cls := ⟨0⟩, payload := .integer 2 },
      { cls := ⟨0⟩, payload := .integer 7 }]
    scopes := #[{ kind := .top, parent := none }]
    frames := [.outermost]
    scopeStack := [⟨0⟩] }

theorem twoIntegers_comparesPlainly : twoIntegers.ComparesPlainly ⟨1⟩ := by
  have hequal : Library.all[186]? =
      some (Entry.methods .integer ["==", "==="] Library.Integers.equal) := by
    rw [Library.all, List.getElem?_toArray]
    rfl
  have horder : Library.all[188]? =
      some (Entry.method .integer "<=>" Library.Integers.compareOp) := by
    rw [Library.all, List.getElem?_toArray]
    rfl
  refine ⟨fun f hf => ?_, fun f hf => ?_⟩
  · cases hf
    exact ⟨_, 186, rfl, rfl, Library.run_eq hequal⟩
  · cases hf
    exact ⟨_, 188, rfl, rfl, Library.run_eq horder⟩

/-- 2 and 7 are not equal and 2 comes first, and so the messages answer. -/
theorem equals_order_eq_send_twoIntegers :
    (twoIntegers.payload ⟨1⟩).equalOp?.isSome ∧ twoIntegers.ComparesPlainly ⟨1⟩ ∧
      twoIntegers.IntegersCached ∧ twoIntegers.depth < twoIntegers.config.maxDepth ∧
      (do pure (← send ⟨1⟩ "==" [⟨2⟩] none).truthy : Op Bool).run (.ofFuel 2) twoIntegers =
        .ok false twoIntegers ∧
      ∃ u, (order ⟨1⟩ ⟨2⟩).run (.ofFuel 2) twoIntegers = .ok .lt u := by
  have hcached : twoIntegers.IntegersCached := Store.integersCached_of_lt (by decide)
  have hnumber : ∀ x, twoIntegers.payload ⟨1⟩ = .float x → x.isNaN = false := by
    intro x hx
    cases hx
  have hkeys : (⟨1⟩ : Value) = ⟨2⟩ → twoIntegers.KeysApart ⟨1⟩ := by
    intro h
    cases h
  obtain ⟨hequal, horder, -⟩ := equals_order_eq_send (n := 0) (b := ⟨2⟩) rfl
    twoIntegers_comparesPlainly hcached (by decide) hnumber hkeys
  have hless : ∃ r t, (send ⟨1⟩ "<=>" [⟨2⟩] none).run (.ofFuel 2) twoIntegers = .ok r t ∧
      t.word? r = some (-1) :=
    send_order_run (o := .lt) twoIntegers_comparesPlainly (by decide) hcached rfl
  obtain ⟨r, t, hrun, hr⟩ := hless
  exact ⟨rfl, twoIntegers_comparesPlainly, hcached, by decide, hequal.symm,
    (horder r t hrun).1 _ hr⟩

/-- A hash with two arrays as keys that have the same element by now, and the values 2 and 7. -/
def equalKeys : Store :=
  let equal : MethodDef := ⟨"==", .builtin 409, false⟩
  let hash : ModuleInfo :=
    { name := "Hash", isModule := false, base := none, alloc := .hash
      methods := ({} : MethodTable).insert "==" equal .pub }
  let table : Table := ⟨[⟨3⟩, ⟨4⟩], [⟨1⟩, ⟨2⟩], rfl⟩
  { twoIntegers with
    objects := #[{ cls := ⟨0⟩, payload := .module hash }, { cls := ⟨0⟩, payload := .integer 2 },
      { cls := ⟨0⟩, payload := .integer 7 }, { cls := ⟨0⟩, payload := .array #[⟨1⟩] },
      { cls := ⟨0⟩, payload := .array #[⟨1⟩] }, { cls := ⟨0⟩, payload := .hash { table } }] }

/-- It equals itself without a message, and answers to the message that it does not. -/
theorem equals_ne_send_equalKeys :
    equalKeys.ComparesPlainly ⟨5⟩ ∧
      (equals ⟨5⟩ ⟨5⟩).run (.ofFuel 2) equalKeys = .ok true equalKeys ∧
      (do pure (← send ⟨5⟩ "==" [⟨5⟩] none).truthy : Op Bool).run (.ofFuel 2) equalKeys =
        .ok false equalKeys := by
  have hentry : Library.all[409]? = some (Entry.method .hash "==" Library.Hashes.equal) := by
    rw [Library.all, List.getElem?_toArray]
    rfl
  have hequal : equalKeys.ComparesPlainly ⟨5⟩ := by
    refine ⟨fun f hf => ?_, nofun⟩
    cases hf
    exact ⟨_, 409, rfl, rfl, Library.run_eq hentry⟩
  obtain ⟨_, _, hfind, hm, hf⟩ := hequal.equal _ rfl
  have hsend : (send ⟨5⟩ "==" [⟨5⟩] none).run (.ofFuel 2) equalKeys = .ok .false equalKeys := by
    rw [send_run hfind hm hf]
    rfl
  refine ⟨hequal, equals_self _ _ _, ?_⟩
  simp only [bind, pure, Act.run, hsend]
  rfl

end Eval

end Garnet
