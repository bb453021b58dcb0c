import Garnet.Library.All
import Garnet.Proofs.InPlace.Parts

/-!
# All or nothing

The operations that change an array, a hash or a text in place make one write, at their end.
Whatever stops one of them before, be it an exception, a jump out of the block, a wrong argument or
the end of the fuel, the receiver then holds what it held, apart from what the block or a method has
written there while it was asked.
-/

namespace Garnet

open Eval
open Act (Calm Careful Sure)
open Library

variable {v : Value}

namespace Library

/-! ## Arrays -/

namespace Arrays

theorem setItems_sure (x : Value) (items : List Value) : (setItems x items).Sure := .update _ _

theorem shrinkTo_sure (x : Value) (n : Nat) (items : List Value) : (shrinkTo x n items).Sure :=
  .bind (setItems_sure x items) fun _ => .pure _

theorem assign_careful (recv : Value) (part : Part) (x : Value) :
    (assign recv part x).Careful v := by
  refine .calm (.view _) fun new => ?_
  cases new with
  | none => exact .of_calm trivial
  | some items => exact (Sure.bind (.update _ _) fun _ => .pure _).careful

variable (recv : Value) (args : List Value) (block : Option Value)

/-- A write behind calm parts. -/
theorem setThen_sure (items : List Value) :
    (setItems recv items >>= fun _ => pure recv : Op Value).Sure :=
  .bind (setItems_sure recv items) fun _ => .pure _

theorem construct_length_careful (x y : Value) :
    (needWord x >>= fun n =>
      if n < 0 then argumentError "negative array size" >>= fun _ : PUnit => pure .nil
      else repeatLength 1 n >>= fun n => filled n block y >>= fun items =>
        setItems recv items >>= fun _ => pure .nil : Op Value).Careful v := by
  refine .calm (needWord_calm _) fun n => .ite (.of_calm (.bind trivial fun _ => trivial)) ?_
  exact .calm (repeatLength_calm 1 n) fun n => .write (filled_calm n block _) fun _ =>
    .bind (setItems_sure recv _) fun _ => .pure _

theorem construct_careful : (construct recv args block).Careful v := by
  refine .calm (checkArity_calm args 0 2) fun _ => ?_
  obtain _ | ⟨x, _ | ⟨y, args⟩⟩ := args
  · exact .of_calm (.bind trivial fun _ => trivial)
  · refine .calm (.view _) fun source => ?_
    cases source with
    | some items => exact (Sure.bind (.update _ _) fun _ => .pure _).careful
    | none => exact construct_length_careful recv block x _
  · refine .calm (x := pure none) trivial fun source => ?_
    cases source with
    | some items => exact (Sure.bind (.update _ _) fun _ => .pure _).careful
    | none => exact construct_length_careful recv block x _

theorem insert_careful : (insert recv args block).Careful v := by
  unfold insert
  split
  · exact .of_calm (arityError_calm _ _)
  · exact .calm (needWord_calm _) fun i => .calm (itemsOf_calm recv) fun items =>
      .ite (.of_calm trivial) (Sure.bind (.update _ _) fun _ => .pure _).careful

theorem concat_careful : (concat recv args block).Careful v :=
  .write (.mapM needArray_calm args) fun _ => .bind (.update _ _) fun _ => .pure _

theorem replace_careful : (replace recv args block).Careful v :=
  .write (.bind (oneArg_calm args) fun _ => .bind (needArray_calm _) fun _ => trivial) fun _ =>
    setThen_sure recv _

theorem fill_careful : (fill recv args block).Careful v := by
  refine .calm (atMostOneArg_calm args) fun x => ?_
  split
  · exact .of_calm trivial
  · exact .calm (itemsOf_calm recv) fun items =>
      .write (filled_calm _ block _) fun _ => setThen_sure recv _

theorem delete_careful : (delete recv args block).Careful v := by
  refine .calm (oneArg_calm args) fun target => .calm (listOf_calm recv) fun items =>
    .write (.foldlM (fun found x => ?_) _ _) fun _ =>
      .bind (setItems_sure recv _) fun _ => .pure _
  refine .bind (equals_calm x target) fun hit => ?_
  split <;> trivial

theorem uniqInPlace_careful : (uniqInPlace recv args block).Careful v :=
  .calm (listOf_calm recv) fun items =>
    .write (distinct_calm block items {}) fun _ => shrinkTo_sure recv _ _

theorem sortInPlace_careful : (sortInPlace recv args block).Careful v :=
  .calm (listOf_calm recv) fun items =>
    .write (sorted_calm items block) fun _ => setThen_sure recv _

theorem mapInPlace_careful : (mapInPlace recv args block).Careful v :=
  .calm (needBlock_calm block) fun b => .calm (listOf_calm recv) fun items =>
    .write (.mapM (fun x => callBlock_calm b [x]) items) fun _ => setThen_sure recv _

theorem keepIf_careful (keep : Bool) : (keepIf keep recv args block).Careful v := by
  refine .calm (needBlock_calm block) fun b => .calm (listOf_calm recv) fun items =>
    .write (.filterM (fun x => ?_) items) fun _ => setThen_sure recv _
  exact .bind (callBlock_calm b [x]) fun _ => trivial

theorem countedPart_calm (size : Nat) (key count : Value) :
    (countedPart size key count).Calm v :=
  .bind (needWord_calm key) fun _ => .bind (needWord_calm count) fun _ => .ite trivial trivial

theorem rangePart_calm (size : Nat) (first last : Value) (exclusive : Bool) :
    (rangePart size first last exclusive).Calm v :=
  .bind (needWord_calm first) fun _ => .ite (.bind trivial fun _ => .ite trivial trivial)
    (.bind (needWord_calm last) fun _ => .ite trivial trivial)

theorem singlePart_calm (size : Nat) (key : Value) : (singlePart size key).Calm v :=
  .bind (needWord_calm key) fun _ => .ite trivial trivial

theorem indexSet_careful : (indexSet recv args block).Careful v := by
  refine .calm (itemsOf_calm recv) fun items => ?_
  split
  · exact .calm (countedPart_calm ..) fun part => assign_careful recv part _
  · refine .calm (.view _) fun range => ?_
    split
    · exact .calm (rangePart_calm ..) fun part => assign_careful recv part _
    · exact .calm (singlePart_calm ..) fun part => assign_careful recv part _
  · exact .of_calm (arityError_calm _ _)

end Arrays

/-! ## Hashes -/

namespace Hashes

variable (recv : Value) (args : List Value) (block : Option Value) {out : Value}

theorem newHash_spares : newHash.Spares v (· ≠ v) :=
  ⟨nofun, fun _ hs h => Nat.lt_irrefl _ (h ▸ hs)⟩

theorem edit_calm (hout : out ≠ v) (e : HashEdit) : (edit out e).Calm v :=
  .update fun h => hout (Option.some.inj h)

theorem fill_calm (hout : out ≠ v) {change : Value × Value → Op (Value × Value)}
    (hchange : ∀ entry, (change entry).Calm v) (entries : List (Value × Value)) :
    (fill out change entries).Calm v :=
  .forM (fun entry => .bind (hchange entry) fun _ => edit_calm hout _) entries

theorem resolved_calm (out : Value) (entry : Value × Value) :
    (resolved block out entry).Calm v := by
  refine .bind (.view _) fun old => ?_
  split
  · exact .bind (callBlock_calm ..) fun _ => trivial
  · trivial

theorem mergeInto_calm (hout : out ≠ v) (other : Value) : (mergeInto block out other).Calm v := by
  refine .bind (.view _) fun h => ?_
  split
  · exact noConversion_calm other _
  · exact fill_calm hout (resolved_calm block out) _

/-- What is merged goes into a hash of its own. -/
theorem merged_calm : (merged recv args block).Calm v :=
  Act.Spares.bind newHash_spares fun _ hout => Calm.bind (edit_calm hout _) fun _ =>
    .bind (.forM (mergeInto_calm block hout) args) fun _ => trivial

theorem mergeInPlace_careful : (mergeInPlace recv args block).Careful v :=
  .write (merged_calm recv args block) fun _ => .bind (.update _ _) fun _ => .pure _

theorem keepIf_careful (keep : Bool) : (keepIf keep recv args block).Careful v := by
  refine .calm (needBlock_calm block) fun b => .bind newHash_spares fun kept hkept =>
    .calm (pairsOf_calm recv) fun entries => .write (.forM (fun entry => ?_) entries) fun _ =>
      .bind (.update _ _) fun _ => .pure _
  refine .bind newObject_calm fun pair => .bind (callBlock_calm b _) fun _ => ?_
  exact .ite (edit_calm hkept _) trivial

end Hashes

/-! ## Texts -/

namespace Strings

variable (recv : Value) (args : List Value) (block : Option Value)

theorem setText_sure (t : String) : (setText recv t >>= fun _ => pure recv : Op Value).Sure :=
  .bind (.update _ _) fun _ => .pure _

theorem mutate_sure (t : String) : (mutate recv t).Sure := by
  refine .bind (.view _) fun old => ?_
  cases old with
  | none => exact .pure _
  | some old => exact .ite (.pure _) (setText_sure recv t)

theorem construct_careful : (construct recv args block).Careful v := by
  refine .calm (atMostOneArg_calm args) fun x => ?_
  cases x with
  | none => exact .of_calm trivial
  | some x =>
    exact .calm (.view _) fun _ => .ite
      (.write (needText_calm x) fun _ => .bind (.update _ _) fun _ => .pure _) (.of_calm trivial)

theorem append_careful : (append recv args block).Careful v := by
  refine .write (.foldlM (fun out x => ?_) args "") fun tail =>
    .bind (.bind (.view _) fun _ => .pure _) fun _ => setText_sure recv _
  refine .bind (.view _) fun n => ?_
  cases n with
  | some n => trivial
  | none => exact .bind (needText_calm x) fun _ => trivial

theorem replace_careful : (replace recv args block).Careful v := by
  refine .write ?_ fun t => setText_sure recv t
  cases args with
  | nil => trivial
  | cons x _ => exact needText_calm x

theorem assignBounds_calm (cs : List Char) (key : Value) (count : Option Value) :
    (assignBounds cs key count).Calm v := by
  cases count with
  | some n => exact .bind (needWord_calm key) fun _ => .bind (needWord_calm n) fun _ => trivial
  | none =>
    refine .bind (.view _) fun p => ?_
    split
    · exact boundsOf_calm ..
    · trivial
    · exact .bind (needWord_calm key) fun _ => trivial

theorem assignPart_careful (key : Value) (count : Option Value) (x : Value) :
    (assignPart recv key count x).Careful v := by
  refine .calm (needText_calm x) fun new => .calm (charsOf_calm recv) fun cs =>
    .calm (assignBounds_calm cs key count) fun bounds => ?_
  cases bounds with
  | some bounds => exact (Sure.bind (.update _ _) fun _ => .pure _).careful
  | none => exact .calm (.view _) fun _ => .of_calm trivial

theorem indexSet_careful : (indexSet recv args block).Careful v := by
  unfold indexSet
  split
  · exact assignPart_careful recv _ none _
  · exact assignPart_careful recv _ (some _) _
  · exact .of_calm (arityError_calm _ _)

theorem substituteInPlace_careful (all : Bool) :
    (substituteInPlace all recv args block).Careful v :=
  .write (substituted_calm all recv args block) fun _ => mutate_sure recv _

end Strings

/-! ## All of them -/

/-- The operations that change their receiver after work that can fail. -/
def inPlace : List (CoreClass × List String) :=
  [(.array, ["initialize", "[]=", "collect!", "concat", "delete", "delete_if", "fill", "filter!",
    "insert", "keep_if", "map!", "reject!", "replace", "select!", "sort!", "uniq!"]),
   (.hash, ["delete_if", "keep_if", "merge!", "reject!", "select!", "update"]),
   (.string, ["initialize", "<<", "[]=", "concat", "gsub!", "replace", "sub!"])]

end Library

/-- Whether an operation is one of those in place. -/
def Entry.isInPlace (entry : Entry) : Bool :=
  inPlace.any fun (c, names) => entry.home == .instances c.value && entry.names.any names.contains

open Entry in
set_option maxRecDepth 8000 in
theorem filter_isInPlace : all.toList.filter (·.isInPlace) =
    [method .string "initialize" Strings.construct, method .string "[]=" Strings.indexSet,
     methods .string ["<<", "concat"] Strings.append, method .string "replace" Strings.replace,
     method .string "sub!" (Strings.substituteInPlace false),
     method .string "gsub!" (Strings.substituteInPlace true),
     method .array "initialize" Arrays.construct, method .array "insert" Arrays.insert,
     method .array "concat" Arrays.concat, method .array "[]=" Arrays.indexSet,
     method .array "uniq!" Arrays.uniqInPlace, method .array "sort!" Arrays.sortInPlace,
     methods .array ["map!", "collect!"] Arrays.mapInPlace,
     methods .array ["select!", "keep_if", "filter!"] (Arrays.keepIf true),
     methods .array ["reject!", "delete_if"] (Arrays.keepIf false),
     method .array "delete" Arrays.delete, method .array "replace" Arrays.replace,
     method .array "fill" Arrays.fill, methods .hash ["delete_if", "reject!"] (Hashes.keepIf false),
     methods .hash ["keep_if", "select!"] (Hashes.keepIf true),
     methods .hash ["merge!", "update"] Hashes.mergeInPlace] := rfl

theorem Entry.careful_of_isInPlace {entry : Entry} (hentry : entry ∈ all.toList)
    (hplace : entry.isInPlace) (recv : Value) (args : List Value) (block : Option Value) :
    (entry.run recv args block).Careful recv := by
  have hall : ∀ entry ∈ all.toList.filter (·.isInPlace),
      (entry.run recv args block).Careful recv := by
    rw [filter_isInPlace]
    simp only [List.forall_mem_cons]
    exact ⟨Strings.construct_careful recv args block, Strings.indexSet_careful recv args block,
      Strings.append_careful recv args block, Strings.replace_careful recv args block,
      Strings.substituteInPlace_careful recv args block false,
      Strings.substituteInPlace_careful recv args block true,
      Arrays.construct_careful recv args block, Arrays.insert_careful recv args block,
      Arrays.concat_careful recv args block, Arrays.indexSet_careful recv args block,
      Arrays.uniqInPlace_careful recv args block, Arrays.sortInPlace_careful recv args block,
      Arrays.mapInPlace_careful recv args block, Arrays.keepIf_careful recv args block true,
      Arrays.keepIf_careful recv args block false, Arrays.delete_careful recv args block,
      Arrays.replace_careful recv args block, Arrays.fill_careful recv args block,
      Hashes.keepIf_careful recv args block false, Hashes.keepIf_careful recv args block true,
      Hashes.mergeInPlace_careful recv args block, nofun⟩
  exact hall entry (List.mem_filter.mpr ⟨hentry, hplace⟩)

/-- When an operation in place stops, for whatever reason, its receiver holds something else than at
the beginning only by what was requested on the way, of the block or of a method. -/
theorem inPlace_all_or_nothing {entry : Entry} (hentry : entry ∈ all.toList)
    (hplace : entry.isInPlace) (recv : Value) (args : List Value) (block : Option Value) (n : Nat)
    {s t : Store} {stop : Stop} (hrecv : recv.index < s.objects.size)
    (hstop : (entry.run recv args block).run (.ofFuel n) s = .error stop t) :
    Store.OnlyByRequests (.ofFuel n) recv ((entry.run recv args block).asks (.ofFuel n) s) s t :=
  entry.careful_of_isInPlace hentry hplace recv args block _ s (Engine.ofFuel_grows n) hrecv stop t
    hstop

/-- An array of a text, and a block that sends its argument a message. -/
def unanswered : Store where
  config := {}
  objects :=
    let plain : ModuleInfo := { name := "Plain", isModule := false, base := none, alloc := .none }
    #[{ cls := ⟨3⟩, payload := .array #[⟨1⟩] }, { cls := ⟨3⟩, payload := .text "a" },
      { cls := ⟨3⟩, payload := .proc ⟨.native (.message "b"), false⟩ },
      { cls := ⟨3⟩, payload := .module plain }]
  scopes := #[]
  frames := []
  scopeStack := []

/-- The text does not answer the message, and the array that is mapped in place holds something else
only by the call of the block. -/
theorem inPlace_all_or_nothing_unanswered :
    ∃ exc t, (Arrays.mapInPlace ⟨0⟩ [] (some ⟨2⟩)).run (.ofFuel 3) unanswered =
        .error (.signal (.raise exc)) t ∧
      Store.OnlyByRequests (.ofFuel 3) ⟨0⟩ [(.callProc ⟨2⟩ [⟨1⟩] none none, unanswered)]
        unanswered t := by
  have hentry : Entry.methods .array ["map!", "collect!"] Arrays.mapInPlace ∈
      all.toList.filter (·.isInPlace) := by
    rw [filter_isInPlace]
    simp only [List.mem_cons, true_or, or_true]
  have hrun : ∃ exc t, (Arrays.mapInPlace ⟨0⟩ [] (some ⟨2⟩)).run (.ofFuel 3) unanswered =
      .error (.signal (.raise exc)) t := ⟨_, _, rfl⟩
  obtain ⟨exc, t, hrun⟩ := hrun
  exact ⟨exc, t, hrun, inPlace_all_or_nothing (List.mem_filter.mp hentry).1 rfl ⟨0⟩ []
    (some ⟨2⟩) 3 (by decide) hrun⟩

end Garnet
