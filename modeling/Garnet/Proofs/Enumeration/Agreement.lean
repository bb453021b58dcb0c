import Garnet.Proofs.Enumeration.Methods
import Garnet.Proofs.Enumeration.Sources
import Garnet.Proofs.Ranges.ClosedForms

/-!
# Operations over `each` and over an array

The operations of anything with `each`, called on a source and on an array of what it yields, end
alike and call the block alike.
-/

namespace Garnet

open Eval Library

/-- The name that an operation goes by. It may have others. -/
def Entry.name (e : Entry) : String := e.names.headD ""

namespace Comparison

/-- The messages that an operation sends to elements and to what it has found so far. -/
def asked (name : String) (t : Store) (args : List Value) (block : Option Value) : List String :=
  match name with
  | "find_index" | "count" | "include?" => ["=="]
  | "any?" | "all?" | "none?" => ["==="]
  | "sum" => ["+"]
  | "inject" => (foldOperator? t args block).toList
  | "min" | "max" | "minmax" | "min_by" | "max_by" | "sort" | "sort_by" => ["<=>", "inspect"]
  | _ => []

/-- The walk of an operation that may end before the last element. -/
def searchVisit? (name : String) : Option (Store → List Value → Option Value → Option Visit) :=
  match name with
  | "find" => some findVisit
  | "find_index" => some findIndexVisit
  | "include?" => some includesVisit
  | "first" | "take" => some firstVisit
  | "any?" | "none?" => some (untilVisit true)
  | "all?" => some (untilVisit false)
  | _ => none

variable {c : Comparison} {w : Pairing} {s t : Store} {whole : Prop} {m : Nat} {name : String}
  {args args' : List Value}

/-- The elements of the array are the whole of what the source yields, or a search comes to its end
on the way. -/
def Suffice (c : Comparison) (whole : Prop) (name : String) (args : List Value) (t : Store) :
    Prop :=
  whole ∨ ∃ visit, searchVisit? name = some visit ∧
    ∀ v, visit t args c.block' = some v → c.Decides v c.elements.toList {} t

theorem Suffice.of_none (h : c.Suffice whole name args t) (hname : searchVisit? name = none) :
    whole := by
  refine h.resolve_right ?_
  rintro ⟨_, hvisit, -⟩
  cases hname.symm.trans hvisit

theorem Suffice.enough {visit : Store → List Value → Option Value → Option Visit}
    (h : c.Suffice whole name args t) (hname : searchVisit? name = some visit) :
    c.Enough whole visit args t := by
  intro v hv
  refine h.imp_right ?_
  rintro ⟨_, hvisit, hdecides⟩
  cases hname.symm.trans hvisit
  exact hdecides v hv

/-- What an operation rests on beside the source and its arguments. -/
structure Suited (c : Comparison) (whole : Prop) (name : String) (w : Pairing) (t : Store)
    (args args' : List Value) : Prop where
  sends : ∀ message ∈ asked name t args' c.block', c.sends message
  suffice : c.Suffice whole name args' t
  /-- These two make hashes of hashes, and of nothing else. -/
  unhashed : name = "select" ∨ name = "reject" → c.unhashed
  gathers : name = "zip" → ∀ a ∈ args, ∀ a', w a a' → c.Gathers w a a'

/-- An operation called on the source and on the array, each with its block. -/
def Agree (c : Comparison) (m : Nat) (w : Pairing) (s t : Store) (args args' : List Value)
    (e : Entry) : Prop :=
  c.AlikeAt False c.Returned m w s t (e.run c.source args c.block) (e.run c.array args' c.block')

theorem agreement (hc : c.Answers) (hm : c.level ≤ m) (h : c.Holds w s t)
    (hr : c.Ready whole m w s t) (hargs : List.Forall₂ w args args') :
    ∀ e ∈ Enumerable.entries, c.Suited whole e.name w t args args' →
      c.Agree m w s t args args' e := by
  have value {x y : Op Value} (hxy : c.AlikeAt False id m w s t x y) :
      c.AlikeAt False c.Returned m w s t x y := hxy.imp fun _ _ _ => .inl
  simp only [Enumerable.entries, List.forall_mem_cons, List.not_mem_nil, false_implies,
    implies_true, and_true, Agree, Entry.methods]
  refine ⟨?map, ?flatMap, ?select, ?reject, ?filterMap, ?find, ?findIndex, ?eachWithIndex,
    ?eachWithObject, ?eachSlice, ?eachCons, ?inject, ?sum, ?count, ?toArray, ?includes, ?first,
    ?take, ?min, ?max, ?minBy, ?maxBy, ?minmax, ?sort, ?sortBy, ?any, ?all, ?none, ?groupBy,
    ?partition, ?tally, ?uniq, ?zip, ?toHash, ?eachEntry⟩ <;> rintro ⟨hsends, hend, hhash, hgather⟩
  case map => exact value (map_alike hc hm h hr (hend.of_none rfl))
  case flatMap => exact value (flatMap_alike hc hm h hr (hend.of_none rfl))
  case select => exact value (filterBy_alike hc hm h hr (hend.of_none rfl) (hhash (.inl rfl)))
  case reject => exact value (filterBy_alike hc hm h hr (hend.of_none rfl) (hhash (.inr rfl)))
  case filterMap => exact value (filterMap_alike hc hm h hr (hend.of_none rfl))
  case find => exact value (find_alike hc hm h hr (hend.enough rfl))
  case findIndex =>
    exact value (findIndex_alike hc hm h hr hargs (hsends _ (.head _)) (hend.enough rfl))
  case eachWithIndex => exact eachWithIndex_alike hc hm h hr (hend.of_none rfl)
  case eachWithObject => exact value (eachWithObject_alike hc hm h hr (hend.of_none rfl) hargs)
  case eachSlice => exact chunked_alike hc hm h hr (hend.of_none rfl) hargs
  case eachCons => exact chunked_alike hc hm h hr (hend.of_none rfl) hargs
  case inject =>
    exact value (inject_alike hc hm h hr (hend.of_none rfl) hargs fun name hname =>
      hsends _ (Option.mem_toList.mpr hname))
  case sum => exact value (sum_alike hc hm h hr (hend.of_none rfl) hargs (hsends _ (.head _)))
  case count => exact value (count_alike hc hm h hr (hend.of_none rfl) hargs (hsends _ (.head _)))
  case toArray => exact value (toArray_alike hc hm h hr (hend.of_none rfl))
  case includes =>
    exact value (includes_alike hc hm h hr hargs (hsends _ (.head _)) (hend.enough rfl))
  case first => exact value (first_alike hc hm h hr hargs (hend.enough rfl))
  case take => exact value (take_alike hc hm h hr hargs (hend.enough rfl))
  case min =>
    exact value (minMax_alike hc hm h hr (hsends _ (.head _)) (hsends _ (.tail _ (.head _)))
      (hend.of_none rfl) hargs)
  case max =>
    exact value (minMax_alike hc hm h hr (hsends _ (.head _)) (hsends _ (.tail _ (.head _)))
      (hend.of_none rfl) hargs)
  case minBy =>
    exact value (extremeBy_alike hc hm h hr (hsends _ (.head _)) (hsends _ (.tail _ (.head _)))
      (hend.of_none rfl))
  case maxBy =>
    exact value (extremeBy_alike hc hm h hr (hsends _ (.head _)) (hsends _ (.tail _ (.head _)))
      (hend.of_none rfl))
  case minmax =>
    exact value (minmax_alike hc hm h hr (hsends _ (.head _)) (hsends _ (.tail _ (.head _)))
      (hend.of_none rfl))
  case sort =>
    exact value (sort_alike hc hm h hr (hsends _ (.head _)) (hsends _ (.tail _ (.head _)))
      (hend.of_none rfl))
  case sortBy =>
    exact value (sortByKey_alike hc hm h hr (hsends _ (.head _)) (hsends _ (.tail _ (.head _)))
      (hend.of_none rfl))
  case any => exact value (any_alike hc hm h hr hargs (hsends _ (.head _)) (hend.enough rfl))
  case all => exact value (all_alike hc hm h hr hargs (hsends _ (.head _)) (hend.enough rfl))
  case none => exact value (none_alike hc hm h hr hargs (hsends _ (.head _)) (hend.enough rfl))
  case groupBy => exact value (groupBy_alike hc hm h hr (hend.of_none rfl))
  case partition => exact value (partition_alike hc hm h hr (hend.of_none rfl))
  case tally => exact value (tally_alike hc hm h hr (hend.of_none rfl))
  case uniq => exact value (uniq_alike hc hm h hr (hend.of_none rfl))
  case zip => exact value (zip_alike hc hm h hr (hend.of_none rfl) hargs (hgather rfl))
  case toHash => exact value (toHash_alike hc hm h hr (hend.of_none rfl))
  case eachEntry => exact eachEntry_alike hc hm h hr (hend.of_none rfl)

/-- The operations on top of `each` do the same for a source as for the array of what it yields,
with the same calls of the block; an operation that gives its receiver gives its own. A search that
is over after some of the elements takes no further one. The source may hand its block on to a walk
over another source of this kind. -/
theorem each_agrees_with_array (hc : c.Answers) (hm : c.level ≤ m) (h : c.Holds w s t)
    (hargs : List.Forall₂ w args args') :
    (c.Ready whole m w s t → ∀ e ∈ Enumerable.entries, c.Suited whole e.name w t args args' →
      c.Agree m w s t args args' e) ∧
    ∀ site b, (c.inside site).Ready whole m w s t →
      c.Yields whole b site s.cells.size c.elements.toList w s t
        ((Enumerable.eachEntry c.source [] (some b)).run (.ofFuel m) s)
        ((Enumerable.eachEntry c.source [] (some b)).log (Engine.calls c.block m) (.ofFuel m) s) :=
  ⟨fun hr => agreement hc hm h hr hargs, fun _ b hr => hr.eachEntry h b⟩

end Comparison

/-! ## The range from 1 to 3 -/

/-- The range `1..3`, the array `[1, 2, 3]` and the block `{ |x| x }`, behind the class of ranges
and the integers. -/
def rangeAndArray : Store where
  config := { cacheMin := 1, cacheMax := 3 }
  objects :=
    let plain (p : Payload) : Object := { cls := CoreClass.object.value, payload := p }
    let integer (i : Int) : Object := { cls := CoreClass.integer.value, payload := .integer i }
    (List.replicate 16 default ++ Ranges.classWith [("each", 417)] :: List.replicate 16 default ++
      [plain .nil, plain .true, plain .false, default, default, integer 1, integer 2, integer 3,
       { cls := CoreClass.range.value, payload := .range ⟨38⟩ ⟨40⟩ false },
       { cls := CoreClass.array.value, payload := .array #[⟨38⟩, ⟨39⟩, ⟨40⟩] },
       { cls := CoreClass.proc.value, payload := .proc ⟨.closure .echo, false⟩ }]).toArray
  scopes := #[]
  frames := []
  scopeStack := []

namespace rangeAndArray

/-- All but the array stand for themselves. -/
def standing : Pairing := fun v v' => v' = v ∧ v.index < 44 ∧ v ≠ ⟨42⟩

/-- The range against the array. -/
def comparison (known : Nat → Prop) (level : Nat) : Comparison :=
  .counting rangeAndArray.config ⟨41⟩ ⟨42⟩ ⟨43⟩ ⟨⟨38⟩, ⟨40⟩, false⟩ 1 3 known level 4

theorem like {v : Value} (hlt : v.index < 44) (hne : v ≠ ⟨42⟩) :
    (rangeAndArray.object v).Like standing (rangeAndArray.object v) := by
  obtain ⟨i⟩ := v
  have hrange : Payload.Like standing (.range ⟨38⟩ ⟨40⟩ false) (.range ⟨38⟩ ⟨40⟩ false) :=
    .range ⟨rfl, by decide, by decide⟩ ⟨rfl, by decide, by decide⟩
  interval_cases i <;> first
    | exact absurd rfl hne
    | exact ⟨.object, .nil⟩
    | exact ⟨.integer, .nil⟩
    | exact ⟨.nil, .nil⟩
    | exact ⟨.true, .nil⟩
    | exact ⟨.false, .nil⟩
    | exact ⟨.proc, .nil⟩
    | exact ⟨.module rfl, .nil⟩
    | exact ⟨hrange, .nil⟩

theorem interns_iff {i : Int} : rangeAndArray.config.interns i = true ↔ 1 ≤ i ∧ i ≤ 3 := by
  rw [Config.interns, Bool.and_eq_true, decide_eq_true_iff, decide_eq_true_iff]
  exact Iff.rfl

theorem place_lt {i : Int} (hi : rangeAndArray.config.interns i = true) :
    (rangeAndArray.config.place i).index < 41 := by
  have hrange := interns_iff.mp hi
  have hindex : (rangeAndArray.config.place i).index = 38 + (i - 1).toNat := rfl
  omega

theorem stands : RangeStands ⟨41⟩ ⟨⟨38⟩, ⟨40⟩, false⟩ 1 3 rangeAndArray where
  range := rfl
  first := rfl
  last := rfl
  nil := rfl
  own := rfl
  extended := rfl
  each := ⟨_, _, _, 417, rfl, rfl, rfl, Ranges.run_eq_of_all rfl⟩

theorem holds (known : Nat → Prop) (level : Nat) :
    (comparison known level).Holds standing rangeAndArray rangeAndArray where
  config := rfl
  left hv := hv.2.1
  right hv := hv.1 ▸ hv.2.1
  single hv ha := by rw [hv.1, ha.1]
  object hv := by
    rw [hv.1]
    exact like hv.2.1 hv.2.2
  className hv := by rw [hv.1]
  core _ := rfl
  nil := ⟨rfl, by decide, by decide⟩
  true := ⟨rfl, by decide, by decide⟩
  false := ⟨rfl, by decide, by decide⟩
  interned hi := by
    have hindex := place_lt hi
    exact ⟨rfl, by omega, fun heq => by rw [heq] at hindex; exact absurd hindex (by decide)⟩
  rest := ⟨stands, ⟨rfl, by decide, rfl⟩, rfl, by decide, rfl⟩
  source_lt := (by decide : 41 < rangeAndArray.objects.size)
  source := rfl
  hash _ := rfl
  array := rfl
  apart _ hv := hv.2.2 (hv.1 ▸ rfl)
  block := .some ⟨rfl, by decide, by decide⟩

theorem ready {known : Nat → Prop} {level : Nat} (hlevel : level ≤ 4)
    (hfresh : ¬known rangeAndArray.nextStop) :
    (comparison known level).Ready True 7 standing rangeAndArray rangeAndArray :=
  Comparison.counting_ready (by omega) (by decide) (by decide) (by decide) rfl
    (fun i hlow hhigh => interns_iff.mpr ⟨hlow, hhigh⟩) (by decide) (by decide) hfresh (by decide)

/-- The operations that send nothing to the elements. -/
theorem each_agrees_with_array_range :
    (∀ e ∈ Enumerable.entries, Comparison.asked e.name rangeAndArray [] (some ⟨43⟩) = [] →
      (comparison (fun _ => False) 3).Agree 7 standing rangeAndArray rangeAndArray [] [] e) ∧
    (comparison (fun _ => False) 3).Yields True ⟨43⟩ 0 rangeAndArray.cells.size [⟨38⟩, ⟨39⟩, ⟨40⟩]
      standing rangeAndArray rangeAndArray
      ((Enumerable.eachEntry ⟨41⟩ [] (some ⟨43⟩)).run (.ofFuel 7) rangeAndArray)
      ((Enumerable.eachEntry ⟨41⟩ [] (some ⟨43⟩)).log (Engine.calls (some ⟨43⟩) 7) (.ofFuel 7)
        rangeAndArray) := by
  obtain ⟨hagree, hnested⟩ := @Comparison.each_agrees_with_array (comparison (fun _ => False) 3)
    standing rangeAndArray rangeAndArray True 7 [] []
    (Comparison.counting_answers (by decide) (by decide)) (by decide) (holds _ _) .nil
  refine ⟨fun e he hasked => hagree (ready (by decide) id) e he
    ⟨?_, .inl trivial, fun _ => trivial, ?_⟩, hnested 0 ⟨43⟩ (ready (by decide) ?_)⟩
  · exact fun message hmessage => absurd (hasked ▸ hmessage) List.not_mem_nil
  · exact fun _ _ ha => by cases ha
  · rintro (h | h)
    · exact h
    · cases h

end rangeAndArray

end Garnet
