import Garnet.Proofs.Arguments.Bindings
import Garnet.Proofs.Interning
import Garnet.Proofs.Lookup.Local

/-!
# Taking arrays apart

A multiple assignment shares out the values of an array among its targets by positions, a block
shares out its arguments among its parameters by their numbers. Where the targets are variables and
patterns of variables, the two come to the same, however many values there are.
-/

namespace Garnet

open Relation

/-! ## Values that are taken apart as they are -/

namespace Store

variable {s t : Store} {v x : Value}

/-- No lookup on the value finds a method `to_ary`, however deep it goes. -/
def NoConversion (s : Store) (v : Value) : Prop :=
  ∀ n, ∀ step ∈ s.chainWithin n v, s.shown "to_ary" .all step = none

/-- An object that is an array, or nil, or is not turned into an array. -/
def Listed (s : Store) (v : Value) : Prop :=
  v.index < s.objects.size ∧ (s.array? v = none → v = .nil ∨ s.NoConversion v)

/-- A value is listed, and so are its elements, those of the arrays among them, and so on. -/
def Plain (s : Store) (v : Value) : Prop := ∀ x, ReflTransGen s.Contains v x → s.Listed x

theorem index_lt_of_nil (h : s.payload v = .nil) : v.index < s.objects.size :=
  index_lt_of_payload s h fun hobject => by cases hobject

namespace Keeps

theorem addList (vs : List Value) : Keeps s (s.addList vs) := .alloc _

theorem elements (h : Keeps s t) (hv : v.index < s.objects.size) :
    t.elements v = s.elements v := by
  rw [Store.elements, Store.elements, h.array? hv]

theorem noConversion (h : Keeps s t) (hs : s.Grounded) (hv : v.index < s.objects.size)
    (hno : s.NoConversion v) : t.NoConversion v := by
  intro n step hstep
  have hclass : t.classOf v = s.classOf v := congrArg Object.cls (h.object v hv)
  have halike (holder : Holder) (hholder : s.Looks v holder) : Alike s t "to_ary" holder :=
    h.alike hs hv hholder
  rw [chainWithin_congr hclass halike] at hstep
  have hentry := (halike step.holder ⟨n, step, hstep, rfl⟩).entry
  rw [shown, hentry]
  exact hno n step hstep

theorem listed (h : Keeps s t) (hs : s.Grounded) (hv : s.Listed v) : t.Listed v := by
  refine ⟨Nat.lt_of_lt_of_le hv.1 h.size_le, fun harray => ?_⟩
  rw [h.array? hv.1] at harray
  exact (hv.2 harray).imp_right (h.noConversion hs hv.1)

theorem plain (h : Keeps s t) (hs : s.Grounded) (hv : s.Plain v) : t.Plain v := by
  intro x hx
  have hreach : ReflTransGen s.Contains v x := by
    induction hx with
    | refl => exact .refl
    | tail _ hstep ih =>
      obtain ⟨xs, hxs, hmem⟩ := hstep
      rw [h.array? (hv _ ih).1] at hxs
      exact ih.tail ⟨xs, hxs, hmem⟩
  exact h.listed hs (hv x hreach)

end Keeps

theorem Plain.of_mem (hv : s.Plain v) {xs : Array Value} (hxs : s.array? v = some xs)
    (hx : x ∈ xs) : s.Plain x :=
  fun _ h => hv _ (.head ⟨xs, hxs, hx⟩ h)

theorem Plain.elements (hv : s.Plain v) : ∀ x ∈ s.elements v, s.Plain x := by
  intro x hx
  rw [Store.elements] at hx
  cases hxs : s.array? v with
  | none =>
    rw [hxs] at hx
    exact List.mem_singleton.mp hx ▸ hv
  | some xs =>
    rw [hxs] at hx
    exact hv.of_mem hxs (Array.mem_toList_iff.mp hx)

theorem respondsTo_eq_false_iff {name : String} {access : Access} :
    s.respondsTo v name access = false ↔
      ∀ step ∈ s.chainWithin s.objects.size v, s.shown name access step = none := by
  rw [← List.findSome?_eq_none_iff, respondsTo, findMethod_eq_within, findMethodWithin, answerOf]
  cases (s.chainWithin s.objects.size v).findSome? (s.shown name access) with
  | some r => simp
  | none => cases (s.chainWithin s.objects.size v).findSome? (s.visibilityAt name) <;> simp

theorem NoConversion.respondsTo (h : s.NoConversion v) :
    s.respondsTo v "to_ary" .all = false :=
  respondsTo_eq_false_iff.mpr (h _)

end Store

/-! ## Variables and patterns as targets -/

mutual

/-- The target that takes a value apart as a pattern does. -/
def Pattern.target : Pattern → Target Expr
  | .name n => .localVar n
  | .nested ps => .many (Pattern.slots ps)

def Pattern.slots : List Pattern → List (Slot (Target Expr))
  | [] => []
  | p :: ps => .one p.target :: Pattern.slots ps

end

mutual

/-- How deep requests nest to store a value in the target of a pattern. -/
def Pattern.height : Pattern → Nat
  | .name _ => 1
  | .nested ps => Pattern.heights ps + 1

def Pattern.heights : List Pattern → Nat
  | [] => 0
  | p :: ps => max p.height (Pattern.heights ps)

end

namespace Store

/-- Assigns to variables visible in the scope, one after another. -/
def assignAll (s : Store) (scope : ScopeId) (bs : List (String × Value)) : Store :=
  { s with scopes := bs.foldl (fun ss b => Scopes.set ss scope b.1 b.2) s.scopes }

theorem assignAll_append (s : Store) (scope : ScopeId) (bs cs : List (String × Value)) :
    s.assignAll scope (bs ++ cs) = (s.assignAll scope bs).assignAll scope cs := by
  simp only [assignAll, List.foldl_append]

end Store

namespace Eval

variable {n : Nat} {e : Engine} {s u : Store} {scope : ScopeId} {v x : Value}

theorem destructure_run (hu : s.Keeps u) (hs : s.Grounded) (hx : s.Listed x) :
    (destructure x).run e u = .ok (s.elements x) u := by
  obtain ⟨hlt, hplain⟩ := hx
  rw [destructure, Act.run_bind, run_view, Ending.andThen_ok, hu.array? hlt, Store.elements]
  cases harray : s.array? x with
  | some xs => rfl
  | none =>
    have hskip : (!x.isNil && u.respondsTo x "to_ary" .all) = false := by
      rcases hplain harray with rfl | hno
      · rfl
      · rw [(hu.noConversion hs hlt hno).respondsTo, Bool.and_false]
    simp only [Act.run_bind, respondsTo, run_view, Ending.andThen_ok, if_true, hskip]
    rfl

theorem store_run (t : Target Expr) :
    (perform (.store t v) : Eval Value).run (.ofFuel (n + 1)) u =
      ((storeIn t v).run (.ofFuel n) u).andThen fun _ => .ok .nil := by
  have hrun : (Engine.ofFuel (n + 1)).perform (.store t v) u =
      (do storeIn t v; pure .nil : Call Value).run (.ofFuel n) u := rfl
  refine (run_perform _ _).trans ?_
  rw [hrun, Act.run_bind]
  rfl

mutual

/-- To store a value in the target of a pattern is to assign to the variables that it binds. -/
theorem store_target (hs : s.Grounded) (hnil : s.Plain .nil) : ∀ (q : Pattern) (x : Value)
    (u : Store) (n : Nat), s.Keeps u → u.scopeId = scope → s.Plain x → q.height ≤ n →
    (perform (.store q.target x) : Eval Value).run (.ofFuel n) u =
      .ok .nil (u.assignAll scope (q.bindings s.elements x))
  | .name m, x, u, n, _, hscope, _, hn => by
    rw [Pattern.height] at hn
    obtain ⟨n, rfl⟩ := Nat.exists_eq_add_of_le' hn
    subst hscope
    rw [Pattern.target, Pattern.bindings, store_run]
    rfl
  | .nested ps, x, u, n, hu, hscope, hx, hn => by
    rw [Pattern.height] at hn
    obtain ⟨n, rfl⟩ := Nat.exists_eq_add_of_le' (Nat.le_of_add_left_le hn)
    have hheights : Pattern.heights ps ≤ n := Nat.le_of_add_le_add_right hn
    have hslots (leading trailing : Nat) :=
      storeSlots_slots hs hnil ps (s.elements x) leading trailing [] 0 u n hu hscope hx.elements
        hheights
    simp only [List.append_nil] at hslots
    rw [Pattern.target, Pattern.bindings, store_run, storeIn, storeMany, Act.run_bind,
      Act.run_liftM, destructure_run hu hs (hx x .refl), Ending.andThen_ok, hslots]
    rfl

/-- Targets without a rest take values in order, from a position on. -/
theorem storeSlots_slots (hs : s.Grounded) (hnil : s.Plain .nil) : ∀ (ps : List Pattern)
    (values : List Value) (leading trailing : Nat) (slots : List (Slot (Target Expr))) (i : Nat)
    (u : Store) (n : Nat), s.Keeps u → u.scopeId = scope → (∀ x ∈ values, s.Plain x) →
    Pattern.heights ps ≤ n →
    (storeSlots values leading trailing (Pattern.slots ps ++ slots) i).run (.ofFuel n) u =
      (storeSlots values leading trailing slots (i + ps.length)).run (.ofFuel n)
        (u.assignAll scope (Pattern.bindingsAll s.elements ps (values.drop i)))
  | [], values, leading, trailing, slots, i, u, n, _, _, _, _ => by
    rw [Pattern.bindingsAll]
    rfl
  | q :: ps, values, leading, trailing, slots, i, u, n, hu, hscope, hvalues, hn => by
    rw [Pattern.heights] at hn
    have hvalue : s.Plain (values[i]?.getD .nil) := by
      cases hi : values[i]? with
      | none => exact hnil
      | some x => exact hvalues x (List.mem_of_getElem? hi)
    have hfirst := store_target hs hnil q (values[i]?.getD .nil) u n hu hscope hvalue (by omega)
    have hrest := storeSlots_slots hs hnil ps values leading trailing slots (i + 1)
      (u.assignAll scope (q.bindings s.elements (values[i]?.getD .nil))) n
      (hu.trans (.of_objects rfl)) hscope hvalues (by omega)
    rw [Pattern.slots, List.cons_append, storeSlots, Act.run_bind, Act.run_discard, hfirst,
      Ending.andThen_ok, Ending.andThen_ok, hrest, Pattern.bindingsAll, Store.assignAll_append,
      List.tail_drop, List.headD_eq_head?_getD, List.head?_drop, List.length_cons, Nat.add_assoc,
      Nat.add_comm 1]

end

/-! ## Shapes -/

end Eval

/-- What may stand on the left of a multiple assignment and between the bars of a block alike:
patterns, a splat that may have a name, and patterns after it. -/
structure Shape where
  leading : List Pattern
  splat : Option (Option String)
  trailing : List Pattern
  trailing_eq_nil : splat = none → trailing = []
  fixed_pos : 0 < leading.length + trailing.length
  /-- A single place would take the array as it is. -/
  several : 1 < leading.length + trailing.length ∨ splat.isSome = true

namespace Shape

variable (h : Shape)

/-- The places of a multiple assignment. -/
def slots : List (Slot (Target Expr)) :=
  Pattern.slots h.leading ++ (h.splat.toList.map (fun n => Slot.rest (n.map .localVar)) ++
    Pattern.slots h.trailing)

/-- The parameters of a block. -/
def params : Params Expr :=
  { required := h.leading
    rest := h.splat.join
    anonymousRest := h.splat == some none
    post := h.trailing }

def height : Nat := Pattern.heights (h.leading ++ h.trailing)

/-- Where the values of the trailing places begin. -/
def trailingStart (vs : List Value) : Nat :=
  max h.leading.length (vs.length - h.trailing.length)

/-- The values that the splat takes. -/
def middle (vs : List Value) : List Value := (vs.take (h.trailingStart vs)).drop h.leading.length

/-- The variables with their values, where `rest` is an array of what the splat takes. -/
def bindings (elements : Value → List Value) (vs : List Value) (rest : Value) :
    List (String × Value) :=
  Pattern.bindingsAll elements h.leading vs ++ (h.splat.join.toList.map (·, rest) ++
    Pattern.bindingsAll elements h.trailing (vs.drop (h.trailingStart vs)))

end Shape

namespace Eval

variable {n : Nat} {e : Engine} {s u : Store} {v : Value}

theorem isRest_slots {ps : List Pattern} : ∀ slot ∈ Pattern.slots ps, (!isRest slot) = true := by
  induction ps with
  | nil => exact nofun
  | cons p ps ih =>
    rw [Pattern.slots]
    exact List.forall_mem_cons.mpr ⟨rfl, ih⟩

theorem length_slots (ps : List Pattern) : (Pattern.slots ps).length = ps.length := by
  induction ps with
  | nil => rfl
  | cons p ps ih => rw [Pattern.slots, List.length_cons, ih, List.length_cons]

theorem heights_append (ps qs : List Pattern) :
    Pattern.heights (ps ++ qs) = max (Pattern.heights ps) (Pattern.heights qs) := by
  induction ps with
  | nil => exact (Nat.zero_max _).symm
  | cons p ps ih => rw [List.cons_append, Pattern.heights, Pattern.heights, ih, Nat.max_assoc]

theorem heights_pos {ps : List Pattern} (h : 0 < ps.length) : 0 < Pattern.heights ps := by
  cases ps with
  | nil => cases h
  | cons p ps =>
    have hp : 0 < p.height := by cases p <;> exact Nat.succ_pos _
    exact Nat.lt_of_lt_of_le hp (Nat.le_max_left ..)

/-- The place of the splat takes what the other places leave over. -/
theorem storeSlots_rest (values : List Value) (leading trailing i : Nat) (name : Option String)
    (slots : List (Slot (Target Expr))) :
    (storeSlots values leading trailing (.rest (name.map .localVar) :: slots) i).run
        (.ofFuel (n + 1)) u =
      (storeSlots values leading trailing slots trailing).run (.ofFuel (n + 1))
        ((if name.isSome then u.addList ((values.take trailing).drop leading) else u).assignAll
          u.scopeId (name.toList.map (·, ⟨u.objects.size⟩))) := by
  cases name with
  | none => rfl
  | some m =>
    have hlist : (newList ((values.take trailing).drop leading)).run (.ofFuel (n + 1)) u =
        .ok ⟨u.objects.size⟩ (u.addList ((values.take trailing).drop leading)) := rfl
    rw [Option.map_some, storeSlots, Act.run_bind, Act.run_liftM, hlist, Ending.andThen_ok,
      Act.run_bind, Act.run_discard, store_run]
    rfl

/-- How a multiple assignment to a shape goes. -/
theorem storeMany_run (h : Shape) (hs : s.Grounded) (hnil : s.Plain .nil) (hv : s.Plain v)
    (hn : h.height ≤ n) :
    (storeMany h.slots v).run (.ofFuel n) s =
      .ok () ((if h.splat.join.isSome then s.addList (h.middle (s.elements v)) else s).assignAll
        s.scopeId (h.bindings s.elements (s.elements v) ⟨s.objects.size⟩)) := by
  have hpos : 0 < n := Nat.lt_of_lt_of_le (heights_pos (List.length_append ▸ h.fixed_pos)) hn
  rw [Shape.height, heights_append] at hn
  have hfirst (leading trailing : Nat) (slots : List (Slot (Target Expr))) :=
    storeSlots_slots hs hnil h.leading (s.elements v) leading trailing slots 0 s n (.refl s) rfl
      hv.elements (by omega)
  rw [storeMany, Act.run_bind, Act.run_liftM, destructure_run (.refl s) hs (hv v .refl),
    Ending.andThen_ok, Shape.slots, hfirst, Nat.zero_add, List.drop_zero, Shape.bindings]
  cases hsplat : h.splat with
  | none =>
    rw [h.trailing_eq_nil hsplat]
    simp [Pattern.slots, storeSlots, Pattern.bindingsAll]
  | some name =>
    obtain ⟨n, rfl⟩ := Nat.exists_eq_add_of_le' hpos
    have hleading : ((Pattern.slots h.leading ++ Slot.rest (name.map .localVar) ::
        Pattern.slots h.trailing).takeWhile (!isRest ·)).length = h.leading.length := by
      rw [List.takeWhile_append_of_pos isRest_slots, List.takeWhile_cons_of_neg (by simp [isRest]),
        List.append_nil, length_slots]
    have hafter : (Pattern.slots h.leading ++ Slot.rest (name.map .localVar) ::
        Pattern.slots h.trailing).length - h.leading.length - 1 = h.trailing.length := by
      rw [List.length_append, List.length_cons, length_slots, length_slots]
      omega
    simp only [Option.toList_some, List.map_cons, List.map_nil, List.cons_append, List.nil_append,
      storeSlots_rest, hleading, hafter]
    have hlast {u : Store} (hu : s.Keeps u) (hscope : u.scopeId = s.scopeId) (k : Nat) :
        (storeSlots (s.elements v) h.leading.length k (Pattern.slots h.trailing) k).run
            (.ofFuel (n + 1)) u =
          .ok () (u.assignAll s.scopeId
            (Pattern.bindingsAll s.elements h.trailing ((s.elements v).drop k))) := by
      have := storeSlots_slots hs hnil h.trailing (s.elements v) h.leading.length k [] k u (n + 1)
        hu hscope hv.elements (by omega)
      rwa [List.append_nil] at this
    cases name with
    | none =>
      refine (hlast ?_ ?_ _).trans ?_
      · exact .of_objects rfl
      · rfl
      · rw [Store.assignAll_append, Store.assignAll_append]
        rfl
    | some m =>
      refine (hlast ?_ ?_ _).trans ?_
      · exact .trans (.of_objects rfl) ((Store.Keeps.addList _).trans (.of_objects rfl))
      · rfl
      · rw [Store.assignAll_append, Store.assignAll_append]
        rfl

/-! ## Patterns as parameters -/

mutual

/-- What a pattern binds is the same as long as the arrays stay as they are. -/
theorem bindings_congr (hu : s.Keeps u) : ∀ (q : Pattern) (x : Value), s.Plain .nil → s.Plain x →
    q.bindings u.elements x = q.bindings s.elements x
  | .name _, _, _, _ => rfl
  | .nested ps, x, hnil, hx => by
    rw [Pattern.bindings, Pattern.bindings, hu.elements (hx x .refl).1]
    exact bindingsAll_congr hu ps _ hnil hx.elements

theorem bindingsAll_congr (hu : s.Keeps u) : ∀ (ps : List Pattern) (vs : List Value),
    s.Plain .nil → (∀ x ∈ vs, s.Plain x) →
    Pattern.bindingsAll u.elements ps vs = Pattern.bindingsAll s.elements ps vs
  | [], _, _, _ => rfl
  | q :: ps, vs, hnil, hvs => by
    have hfirst : s.Plain (vs.headD .nil) := by
      cases vs with
      | nil => exact hnil
      | cons x vs => exact hvs x List.mem_cons_self
    rw [Pattern.bindingsAll, Pattern.bindingsAll, bindings_congr hu q _ hnil hfirst,
      bindingsAll_congr hu ps _ hnil fun x hx => hvs x (List.mem_of_mem_tail hx)]

end

theorem bindingsAll_take {elements : Value → List Value} (ps : List Pattern) (vs : List Value) :
    Pattern.bindingsAll elements ps (vs.take ps.length) = Pattern.bindingsAll elements ps vs := by
  induction ps generalizing vs with
  | nil => rfl
  | cons q ps ih =>
    rw [Pattern.bindingsAll, Pattern.bindingsAll, ← ih vs.tail]
    cases vs with
    | nil => rw [List.take_nil, List.tail_nil, List.take_nil]
    | cons v vs => rfl

/-- Each pattern takes the value at its own position, or nil. -/
theorem bindingsAll_eq_flatMap {elements : Value → List Value} (ps : List Pattern)
    (vs : List Value) (i : Nat) :
    Pattern.bindingsAll elements ps (vs.drop i) =
      (ps.zipIdx i).flatMap fun q => q.1.bindings elements (vs[q.2]?.getD .nil) := by
  induction ps generalizing i with
  | nil => rfl
  | cons q ps ih =>
    rw [Pattern.bindingsAll, List.zipIdx_cons, List.flatMap_cons, List.tail_drop, ih,
      List.headD_eq_head?_getD, List.head?_drop]

theorem hasRest_params (h : Shape) : h.params.hasRest = h.splat.isSome := by
  rw [Params.hasRest, Shape.params]
  match h.splat with
  | none | some none | some (some _) => rfl

/-- A block with parameters of this shape takes a lone array apart. -/
theorem spreads_params (h : Shape) : h.params.spreads = true := by
  have hcount : h.params.requiredCount = h.leading.length + h.trailing.length := rfl
  have hoptional : h.params.optional.length = 0 := rfl
  have hsingle : h.params.single = false := rfl
  have hpos := h.fixed_pos
  rw [Params.spreads, hasRest_params, hcount, hoptional, hsingle]
  rcases h.several with hmany | hsplat
  · simp [hmany]
  · simp only [hsplat, Bool.not_false, Bool.true_and, Bool.and_true, Bool.or_eq_true,
      decide_eq_true_eq, beq_iff_eq]
    omega

/-- How the arguments are shared out among parameters with a splat. -/
theorem allot_params (h : Shape) (hsplat : h.splat.isSome = true) (vs : List Value) :
    (h.params.allot vs).rest = h.middle vs ∧
      (h.params.allot vs).post = vs.drop (h.trailingStart vs) := by
  have hcount : h.params.requiredCount = h.leading.length + h.trailing.length := rfl
  have hrequired : h.params.required = h.leading := rfl
  have hoptional : h.params.optional = [] := rfl
  have hstart : h.leading.length + (vs.length - (h.leading.length + h.trailing.length)) =
      h.trailingStart vs := by
    rw [Shape.trailingStart]
    omega
  simp only [Params.allot, hasRest_params, hsplat, hcount, hrequired, hoptional, if_true,
    List.length_nil, Nat.min_zero, Nat.add_zero, Nat.sub_zero, Shape.middle, List.drop_take,
    List.drop_drop, hstart, and_true]
  rw [← hstart, Nat.add_sub_cancel_left]

/-- How parameters of a shape are bound to one array. -/
theorem bindParams_shape_run (h : Shape) (hnil : s.Plain .nil) (hv : s.Plain v)
    (block : Option Value) :
    (bindParams h.params [v] block false).run e s =
      .ok () ((if h.splat.isSome then s.addList (h.middle (s.elements v)) else s).bindAll
        s.scopeId (h.bindings s.elements (s.elements v) ⟨s.objects.size⟩)) := by
  have hspread : h.params.spreadOut s [v] false = s.elements v := by
    rw [Params.spreadOut, spreads_params]
    simp
  have hoptional : h.params.optional = [] := rfl
  have hleading : h.params.firstBindings s.elements (h.params.allot (s.elements v)) =
      Pattern.bindingsAll s.elements h.leading (s.elements v) :=
    (List.append_nil _).trans (bindingsAll_take h.leading _)
  rw [bindParams_run hspread (fun hstrict => by cases hstrict), hoptional, List.drop_nil,
    bindOptional, hleading, Act.run_pure, Ending.andThen_ok, Params.bindLast, Params.bindRest,
    hasRest_params, Shape.bindings, Store.bindAll_append, Store.bindAll_append]
  cases hsplat : h.splat with
  | none =>
    have hpost : h.params.post = [] := h.trailing_eq_nil hsplat
    rw [hpost, h.trailing_eq_nil hsplat]
    rfl
  | some name =>
    obtain ⟨hrest, hpost⟩ := allot_params h (hsplat ▸ rfl) (s.elements v)
    have hrestName : h.params.rest = (some name).join := congrArg Option.join hsplat
    have hkeeps : s.Keeps (s.addList (h.middle (s.elements v))) := .addList _
    have htrailing := bindingsAll_congr hkeeps h.trailing
      ((s.elements v).drop (h.trailingStart (s.elements v))) hnil
      fun x hx => hv.elements x (List.mem_of_mem_drop hx)
    rw [hrest, hpost, hrestName, ← htrailing]
    rfl

/-- A multiple assignment from an array to a shape of variables assigns the values that a block with
parameters of this shape binds when it is called with the array: to each leading place the value at
its position or nil, and with values for all places exactly those left over to the splat and the
last ones to the trailing places. The requests of the assignment nest as deep as its patterns. -/
theorem storeMany_bindParams (h : Shape) (hs : s.Grounded) (hnil : s.payload .nil = .nil)
    {xs : Array Value} (hxs : s.array? v = some xs)
    (hlisted : ∀ x, TransGen s.Contains v x → s.Listed x) (hn : h.height ≤ n) (e : Engine)
    (block : Option Value) :
    (storeMany h.slots v).run (.ofFuel n) s =
      .ok () ((if h.splat.join.isSome then s.addList (h.middle xs.toList) else s).assignAll
        s.scopeId (h.bindings s.elements xs.toList ⟨s.objects.size⟩)) ∧
    (bindParams h.params [v] block false).run e s =
      .ok () ((if h.splat.isSome then s.addList (h.middle xs.toList) else s).bindAll
        s.scopeId (h.bindings s.elements xs.toList ⟨s.objects.size⟩)) ∧
    (s.addList (h.middle xs.toList)).array? ⟨s.objects.size⟩ = some (h.middle xs.toList).toArray ∧
    Pattern.bindingsAll s.elements h.leading xs.toList =
      (h.leading.zipIdx.flatMap fun q => q.1.bindings s.elements (xs[q.2]?.getD .nil)) ∧
    (h.leading.length + h.trailing.length ≤ xs.size →
      h.middle xs.toList =
        (xs.toList.drop h.leading.length).take
          (xs.size - h.leading.length - h.trailing.length) ∧
      Pattern.bindingsAll s.elements h.trailing (xs.toList.drop (h.trailingStart xs.toList)) =
        (h.trailing.zipIdx (xs.size - h.trailing.length)).flatMap fun q =>
          q.1.bindings s.elements (xs[q.2]?.getD .nil)) := by
  have helements : s.elements v = xs.toList := by rw [Store.elements, hxs]; rfl
  have hplain : s.Plain v := by
    intro x hx
    rcases Relation.reflTransGen_iff_eq_or_transGen.mp hx with rfl | hx
    · refine ⟨Store.index_lt_of_array? hxs, fun hnone => ?_⟩
      cases hnone.symm.trans hxs
    · exact hlisted x hx
  have hplainNil : s.Plain .nil := by
    intro x hx
    rcases ReflTransGen.cases_head hx with rfl | ⟨y, ⟨ys, hys, _⟩, _⟩
    · exact ⟨Store.index_lt_of_nil hnil, fun _ => .inl rfl⟩
    · cases hnil.symm.trans (Store.array?_eq_some.mp hys)
  have hrun := storeMany_run h hs hplainNil hplain hn
  have hbind := bindParams_shape_run (e := e) h hplainNil hplain block
  have hpositions (ps : List Pattern) (i : Nat) :
      Pattern.bindingsAll s.elements ps (xs.toList.drop i) = _ :=
    bindingsAll_eq_flatMap ps xs.toList i
  simp only [Array.getElem?_toList] at hpositions
  rw [helements] at hrun hbind
  refine ⟨hrun, hbind, ?_, hpositions h.leading 0, fun hmany => ?_⟩
  · exact Store.array?_eq_some.mpr (congrArg Object.payload (Store.object_alloc s _))
  · have hstart : h.trailingStart xs.toList = xs.size - h.trailing.length := by
      rw [Shape.trailingStart, Array.length_toList]
      omega
    refine ⟨?_, by rw [hstart, hpositions]⟩
    rw [Shape.middle, hstart, List.drop_take, Nat.sub_right_comm]

/-- The places `a, *b, (c, d)`. -/
def sampleShape : Shape :=
  { leading := [.name "a"]
    splat := some (some "b")
    trailing := [.nested [.name "c", .name "d"]]
    trailing_eq_nil := nofun
    fixed_pos := by decide
    several := by decide }

section Sample

variable (s : Store)

/-- The first new array: of nil. -/
def sampleInner : Value := ⟨s.objects.size⟩

/-- The second new array. -/
def sampleOuter : Value := ⟨(s.addList [.nil]).objects.size⟩

/-- A store with an array of nil, and an array that has it at three of four places. -/
def sampleArrays : Store :=
  (s.addList [.nil]).addList [sampleInner s, sampleInner s, .nil, sampleInner s]

theorem sampleArrays_inner : (sampleArrays s).array? (sampleInner s) = some #[.nil] := by
  have hlt : (sampleInner s).index < (s.addList [.nil]).objects.size := Store.size_alloc _
  rw [sampleArrays, (Store.Keeps.addList _).array? hlt, Store.array?_eq_some]
  exact congrArg Object.payload (Store.object_alloc _ _)

theorem sampleArrays_outer : (sampleArrays s).array? (sampleOuter s) =
    some #[sampleInner s, sampleInner s, .nil, sampleInner s] :=
  Store.array?_eq_some.mpr (congrArg Object.payload (Store.object_alloc _ _))

variable {s}

theorem sampleArrays_grounded (hs : s.Grounded) : (sampleArrays s).Grounded := by
  have hadd {s : Store} (hs : s.Grounded) (vs : List Value) : (s.addList vs).Grounded :=
    Store.Grounded.lasting.change (ℓ := .library) (.alloc .array (.array vs.toArray) {}) s rfl hs
  exact hadd (hadd hs _) _

theorem sampleArrays_nil (hnil : s.payload .nil = .nil) : (sampleArrays s).payload .nil = .nil := by
  have hkeeps : s.Keeps (sampleArrays s) := (Store.Keeps.addList _).trans (.addList _)
  rw [Store.payload, hkeeps.object _ (Store.index_lt_of_nil hnil)]
  exact hnil

theorem sampleArrays_listed (hnil : s.payload .nil = .nil) {x : Value}
    (hx : TransGen (sampleArrays s).Contains (sampleOuter s) x) : (sampleArrays s).Listed x := by
  have hinner : (sampleArrays s).Listed (sampleInner s) := by
    refine ⟨?_, fun h => ?_⟩
    · exact Store.index_lt_of_array? (sampleArrays_inner s)
    · cases h.symm.trans (sampleArrays_inner s)
  have hnil' : (sampleArrays s).payload .nil = .nil := sampleArrays_nil hnil
  have hlisted : (sampleArrays s).Listed .nil :=
    ⟨Store.index_lt_of_nil hnil', fun _ => .inl rfl⟩
  suffices h : x = sampleInner s ∨ x = .nil by rcases h with rfl | rfl <;> assumption
  induction hx with
  | single h =>
    obtain ⟨xs, hxs, hmem⟩ := h
    cases hxs.symm.trans (sampleArrays_outer s)
    simp at hmem
    tauto
  | tail _ h ih =>
    obtain ⟨xs, hxs, hmem⟩ := h
    rcases ih with rfl | rfl
    · cases hxs.symm.trans (sampleArrays_inner s)
      exact .inr (by simpa using hmem)
    · cases hnil'.symm.trans (Store.array?_eq_some.mp hxs)

theorem sampleShape_bindings (rest : Value) :
    sampleShape.bindings (sampleArrays s).elements
        [sampleInner s, sampleInner s, .nil, sampleInner s] rest =
      [("a", sampleInner s), ("b", rest), ("c", .nil), ("d", .nil)] := by
  have helements : (sampleArrays s).elements (sampleInner s) = [.nil] := by
    rw [Store.elements, sampleArrays_inner]
    rfl
  simp [Shape.bindings, sampleShape, Pattern.bindingsAll, Pattern.bindings, Shape.trailingStart,
    helements]

end Sample

/-- The splat takes the two values in the middle, and the last array is taken apart. -/
theorem storeMany_bindParams_sample :
    ∃ (s : Store) (v inner rest : Value), s.Grounded ∧
      s.array? v = some #[inner, inner, .nil, inner] ∧
      (storeMany sampleShape.slots v).run (.ofFuel 2) s =
        .ok () ((s.addList [inner, .nil]).assignAll s.scopeId
          [("a", inner), ("b", rest), ("c", .nil), ("d", .nil)]) ∧
      (bindParams sampleShape.params [v] none false).run (.ofFuel 0) s =
        .ok () ((s.addList [inner, .nil]).bindAll s.scopeId
          [("a", inner), ("b", rest), ("c", .nil), ("d", .nil)]) := by
  have hstart : (Store.start {} []).Grounded := .start {} []
  have hnil : (Store.start {} []).payload .nil = .nil :=
    (Store.start_interned {} [] .nil .nil trivial).mpr rfl
  generalize Store.start {} [] = s at hstart hnil
  obtain ⟨hstore, hbind, -⟩ := storeMany_bindParams (n := 2) sampleShape
    (sampleArrays_grounded hstart) (sampleArrays_nil hnil) (sampleArrays_outer s)
    (fun _ => sampleArrays_listed hnil) (by decide) (.ofFuel 0) none
  rw [sampleShape_bindings] at hstore hbind
  exact ⟨_, _, _, _, sampleArrays_grounded hstart, sampleArrays_outer s, hstore, hbind⟩

end Eval

end Garnet
