import Garnet.Library.Hashes
import Garnet.Library.Strings
import Garnet.Proofs.Hashes.Data
import Garnet.Proofs.Requests

/-!
# What operations in place are made of

An action spares an object when it makes no change that writes into it. What is asked for may still
write there, so that while such an action runs the object holds something else only by what is
requested. An operation that works in place is careful when it spares its receiver as long as it can
stop: it writes once, after everything that can go wrong.

Checks and conversions of arguments, comparisons, calls of a block and matches write into no object
that is there already.
-/

namespace Garnet

/-! ## Actions that spare an object -/

section Spares

variable {ℓ : Layer} {α β : Type} {v : Value} {e : Engine} {s t u : Store}

namespace Store

/-- From `s` to `t`, an object holds something else only by the requests that are made on the
way. -/
def OnlyByRequests (e : Engine) (v : Value) : List (Request × Store) → Store → Store → Prop
  | [], s, t => (t.payload v).data = (s.payload v).data
  | (r, u) :: rest, s, t =>
    (u.payload v).data = (s.payload v).data ∧ OnlyByRequests e v rest (e.perform r u).store t

namespace OnlyByRequests

variable {as bs : List (Request × Store)}

theorem append (h : OnlyByRequests e v as s t) (h' : OnlyByRequests e v bs t u) :
    OnlyByRequests e v (as ++ bs) s u := by
  induction as generalizing s with
  | nil =>
    cases bs with
    | nil => exact Eq.trans h' h
    | cons b bs => exact ⟨h'.1.trans h, h'.2⟩
  | cons a as ih => exact ⟨h.1, ih h.2⟩

end OnlyByRequests

end Store

open Store

/-- No request leaves fewer objects. -/
def Engine.Grows (e : Engine) : Prop :=
  ∀ r s, s.objects.size ≤ (e.perform r s).store.objects.size

theorem Engine.ofFuel_grows (n : Nat) : (Engine.ofFuel n).Grows := fun r s => by
  have h := (Lasting.kind.kept.outcome ⟨n, (.perform r id rfl : Call Value), s⟩).1
  simp only [Point.outcome, Act.run] at h
  cases hr : (Engine.ofFuel n).perform r s <;> rw [hr] at h <;> exact h

/-- An action makes no change that writes into `v`, and gives values that satisfy `Q`. The library
works in place with the plain actions only: it catches nothing meanwhile. -/
def Act.Spares (v : Value) {ℓ : Layer} {α : Type} (Q : α → Prop) : Act ℓ α → Prop
  | .pure a => Q a
  | .bind x f => ∃ P, x.Spares v P ∧ ∀ a, P a → (f a).Spares v Q
  | .lift x _ => x.Spares v Q
  | .fuel f => ∀ n, Q (f n)
  | .view f => ∀ s, Q (f s)
  | .change c f _ => c.target? ≠ some v ∧ ∀ s, v.index < s.objects.size → Q (f s)
  | .exhausted | .fail .. | .signal .. | .leave _ => True
  | .perform _ f _ => ∀ a, Q (f a)
  | .inspected _ f => ∀ out, Q (f out)
  | .rescue .. | .ensure .. | .within .. | .activate .. | .catchNext .. | .catchBreak ..
  | .handling .. => False

/-- An action that spares `v`, whatever values it gives. -/
abbrev Act.Calm (v : Value) {ℓ : Layer} {α : Type} (x : Act ℓ α) : Prop := x.Spares v fun _ => True

/-- What a run from `s` has made of an object: it has asked for `as` and ended with `out`. -/
structure Ending.Spared (v : Value) (Q : α → Prop) (e : Engine) (s : Store)
    (as : List (Request × Store)) (out : Ending α) : Prop where
  size_le : s.objects.size ≤ out.store.objects.size
  only : OnlyByRequests e v as s out.store
  ok : ∀ a t, out = .ok a t → Q a

namespace Ending.Spared

variable {P : β → Prop} {Q : α → Prop} {as : List (Request × Store)}

theorem of_ok {a : α} (hsize : s.objects.size ≤ t.objects.size)
    (honly : OnlyByRequests e v as s t) (ha : Q a) : (Ending.ok a t).Spared v Q e s as :=
  ⟨hsize, honly, fun _ _ h => by cases h; exact ha⟩

theorem of_error {stop : Stop} (hsize : s.objects.size ≤ t.objects.size)
    (honly : OnlyByRequests e v as s t) : (Ending.error stop t).Spared v Q e s as :=
  ⟨hsize, honly, nofun⟩

theorem bind {out : Ending β} {f : β → Run α} {bs : β → Store → List (Request × Store)}
    (h : out.Spared v P e s as)
    (hf : ∀ b t, P b → s.objects.size ≤ t.objects.size → (f b t).Spared v Q e t (bs b t)) :
    (out.andThen f).Spared v Q e s (as ++ out.after bs) := by
  cases out with
  | error stop t =>
    rw [after_error, List.append_nil]
    exact of_error h.size_le h.only
  | ok b t =>
    have hrest := hf b t (h.ok b t rfl) h.size_le
    exact ⟨Nat.le_trans h.size_le hrest.size_le, h.only.append hrest.only, hrest.ok⟩

end Ending.Spared

open Ending.Spared in
theorem Act.Spares.run {x : Act ℓ α} {Q : α → Prop} (h : x.Spares v Q) (he : e.Grows)
    (hv : v.index < s.objects.size) : (x.run e s).Spared v Q e s (x.asks e s) := by
  induction x generalizing s with
  | pure a => exact of_ok (Nat.le_refl _) rfl h
  | bind x f ihx ihf =>
    obtain ⟨P, hx, hf⟩ := h
    have hrun := run_bind (e := e) (s := s) x f
    exact hrun ▸ (ihx hx hv).bind fun b t hb hsize =>
      ihf b (hf b hb) (Nat.lt_of_lt_of_le hv hsize)
  | lift x _ ih => exact ih h hv
  | fuel f | view f => exact of_ok (Nat.le_refl _) rfl (h _)
  | change c f hc =>
    have hdata := c.sameData hc s
    exact of_ok hdata.size_le (hdata.data v hv h.1) (h.2 s hv)
  | fail c message =>
    have hdata : SameData none s (s.newException c.value message).2 := .newException _ _
    exact of_error hdata.size_le (hdata.data v hv (Option.some_ne_none v).symm)
  | exhausted | signal | leave => exact of_error (Nat.le_refl _) rfl
  | perform r f =>
    simp only [Act.run]
    have hsize := he r s
    have honly : OnlyByRequests e v [(r, s)] s (e.perform r s).store := ⟨rfl, rfl⟩
    cases hr : e.perform r s <;> rw [hr] at hsize honly
    · exact of_ok hsize honly (h _)
    · exact of_error hsize honly
  | inspected w f =>
    -- a request for numbers and nil, and none for other values
    simp only [Act.run, asks, log]
    split
    · have hsize := he (.inspection w) s
      have honly : OnlyByRequests e v [(.inspection w, s)] s (e.perform (.inspection w) s).store :=
        ⟨rfl, rfl⟩
      split <;> rename_i hr <;> rw [hr] at hsize honly
      · exact of_ok hsize honly (h _)
      · exact of_ok hsize honly (h _)
      · exact of_error hsize honly
    · exact of_ok (Nat.le_refl _) rfl (h _)
  | rescue | ensure | within | activate | catchNext | catchBreak | handling => exact h.elim

namespace Act

/-! ### Calm actions -/

theorem Spares.bind {P : β → Prop} {Q : α → Prop} {x : Act ℓ β} {f : β → Act ℓ α}
    (hx : x.Spares v P) (hf : ∀ a, P a → (f a).Spares v Q) : (x >>= f).Spares v Q :=
  ⟨P, hx, hf⟩

namespace Calm

variable {x : Act ℓ β} {f : β → Act ℓ α}

theorem bind (hx : x.Calm v) (hf : ∀ a, (f a).Calm v) : (x >>= f).Calm v :=
  Spares.bind hx fun a _ => hf a

theorem ite {c : Prop} [Decidable c] {x y : Act ℓ α} (hx : x.Calm v) (hy : y.Calm v) :
    (if c then x else y).Calm v := by
  split <;> assumption

theorem map {g : β → α} (hx : x.Calm v) : (g <$> x).Calm v := bind hx fun _ => trivial

theorem discard (hx : x.Calm v) : (discard x).Calm v := map hx

theorem view (f : Store → α) : (Eval.view f : Act ℓ α).Calm v := fun _ => trivial

theorem update {c : Change} {h : c.allowed ℓ = true} (hc : c.target? ≠ some v) :
    (Eval.update c h : Act ℓ Unit).Calm v :=
  ⟨hc, fun _ _ => trivial⟩

theorem mapM (hf : ∀ b, (f b).Calm v) (bs : List β) : (bs.mapM f).Calm v := by
  have loop (seen : List α) : (List.mapM.loop f bs seen).Calm v := by
    induction bs generalizing seen with
    | nil => trivial
    | cons b bs ih => exact bind (hf b) fun a => ih (a :: seen)
  exact loop []

theorem filterM {f : β → Act ℓ Bool} (hf : ∀ b, (f b).Calm v) (bs : List β) :
    (bs.filterM f).Calm v := by
  have loop (seen : List β) : (bs.filterAuxM f seen).Calm v := by
    induction bs generalizing seen with
    | nil => trivial
    | cons b bs ih => exact bind (hf b) fun a => ih _
  exact bind (loop []) fun _ => trivial

theorem foldlM {f : α → β → Act ℓ α} (hf : ∀ a b, (f a b).Calm v) (bs : List β) (a : α) :
    (bs.foldlM f a).Calm v := by
  induction bs generalizing a with
  | nil => trivial
  | cons b bs ih => exact bind (hf a b) fun a => ih a

theorem forM {f : β → Act ℓ PUnit} (hf : ∀ b, (f b).Calm v) (bs : List β) :
    (bs.forM f).Calm v := by
  induction bs with
  | nil => trivial
  | cons b bs ih => exact bind (hf b) fun _ => ih

end Calm

/-! ### Careful actions -/

/-- An action that always ends with a value. -/
def Sure (x : Act ℓ α) : Prop := ∀ e s, ∃ a t, x.run e s = .ok a t

/-- When an action stops, `v` holds something else than at the beginning only by what has been
requested on the way. -/
def Careful (v : Value) (x : Act ℓ α) : Prop :=
  ∀ e s, e.Grows → v.index < s.objects.size → ∀ stop t, x.run e s = .error stop t →
    OnlyByRequests e v (x.asks e s) s t

namespace Sure

theorem pure (a : α) : (Pure.pure a : Act ℓ α).Sure := fun _ s => ⟨a, s, rfl⟩

theorem view (f : Store → α) : (Eval.view f : Act ℓ α).Sure := fun _ s => ⟨f s, s, rfl⟩

theorem update (c : Change) (h : c.allowed ℓ = true) : (Eval.update c h : Act ℓ Unit).Sure :=
  fun _ s => ⟨(), c.apply s, rfl⟩

theorem bind {x : Act ℓ β} {f : β → Act ℓ α} (hx : x.Sure) (hf : ∀ a, (f a).Sure) :
    (x >>= f).Sure := fun e s => by
  obtain ⟨a, t, hrun⟩ := hx e s
  rw [run_bind, hrun, Ending.andThen_ok]
  exact hf a e t

theorem ite {c : Prop} [Decidable c] {x y : Act ℓ α} (hx : x.Sure) (hy : y.Sure) :
    (if c then x else y).Sure := by
  split <;> assumption

theorem careful {x : Act ℓ α} (h : x.Sure) : x.Careful v := fun e s _ _ stop t hstop => by
  obtain ⟨a, u, hrun⟩ := h e s
  rw [hrun] at hstop
  cases hstop

end Sure

theorem Spares.careful {x : Act ℓ α} {Q : α → Prop} (h : x.Spares v Q) : x.Careful v :=
  fun e s he hv stop t hstop => by
    have honly := (h.run he hv).only
    rwa [hstop] at honly

/-- What is done with care after something that spares `v` is careful with it. -/
theorem Careful.bind {P : β → Prop} {x : Act ℓ β} {f : β → Act ℓ α} (hx : x.Spares v P)
    (hf : ∀ a, P a → (f a).Careful v) : (x >>= f).Careful v := fun e s he hv stop t hstop => by
  have hspared := hx.run he hv
  rw [run_bind] at hstop
  rw [asks, log_bind]
  cases hrun : x.run e s with
  | error stop' u =>
    rw [hrun] at hspared hstop
    cases hstop
    rw [Ending.after_error, List.append_nil]
    exact hspared.only
  | ok a u =>
    rw [hrun] at hspared hstop
    exact hspared.only.append
      (hf a (hspared.ok a u rfl) e u he (Nat.lt_of_lt_of_le hv hspared.size_le) stop t hstop)

theorem Careful.of_calm {x : Act ℓ α} (h : x.Calm v) : x.Careful v := Spares.careful h

theorem Careful.ite {c : Prop} [Decidable c] {x y : Act ℓ α} (hx : x.Careful v)
    (hy : y.Careful v) : (if c then x else y).Careful v := by
  split <;> assumption

theorem Careful.calm {x : Act ℓ β} {f : β → Act ℓ α} (hx : x.Calm v)
    (hf : ∀ a, (f a).Careful v) : (x >>= f).Careful v :=
  .bind hx fun a _ => hf a

/-- What cannot stop, such as one write, after a calm action. -/
theorem Careful.write {x : Act ℓ β} {f : β → Act ℓ α} (hx : x.Calm v) (hf : ∀ a, (f a).Sure) :
    (x >>= f).Careful v :=
  .calm hx fun a => (hf a).careful

end Act

end Spares

/-! ## Checks, conversions and calls -/

open Eval
open Act (Calm)
open Library

variable {α : Type} {v : Value}

namespace Eval

/-! ### Arguments -/

theorem arityError_calm (given : Nat) (expected : String) :
    (arityError given expected : Op α).Calm v := trivial

theorem checkArity_calm (args : List Value) (min max : Nat) : (checkArity args min max).Calm v := by
  unfold checkArity
  dsimp only
  split <;> trivial

theorem oneArg_calm (args : List Value) : (oneArg args).Calm v := by
  unfold oneArg
  split <;> trivial

theorem atMostOneArg_calm (args : List Value) : (atMostOneArg args).Calm v := by
  unfold atMostOneArg
  split <;> trivial

theorem oneOrTwoArgs_calm (args : List Value) : (oneOrTwoArgs args).Calm v := by
  unfold oneOrTwoArgs
  split <;> trivial

theorem needBlock_calm (block : Option Value) : (needBlock block).Calm v := by
  cases block <;> trivial

theorem typeLabel_calm (x : Value) : (typeLabel x).Calm v := by
  refine .bind (.view _) fun p => ?_
  split
  · trivial
  · trivial
  · trivial
  · exact .view _

theorem noConversion_calm (x : Value) (kind : String) : (noConversion x kind : Op α).Calm v :=
  .bind (typeLabel_calm x) fun _ => trivial

theorem needWord_calm (x : Value) : (needWord x).Calm v := by
  refine .bind (.view _) fun p => ?_
  split
  · split <;> trivial
  · trivial
  · exact noConversion_calm x _

theorem needText_calm (x : Value) : (needText x).Calm v := by
  refine .bind (.view _) fun p => ?_
  split
  · trivial
  · exact noConversion_calm x _

theorem needArray_calm (x : Value) : (needArray x).Calm v := by
  refine .bind (.view _) fun p => ?_
  split
  · trivial
  · exact noConversion_calm x _

theorem rangeEnd_calm (x : Value) : (rangeEnd x).Calm v := by
  unfold rangeEnd
  split
  · trivial
  · exact .map (needWord_calm x)

theorem boundsOf_calm (first last : Value) (exclusive : Bool) (len : Nat) :
    (boundsOf first last exclusive len).Calm v :=
  .bind (rangeEnd_calm first) fun _ => .bind (rangeEnd_calm last) fun _ => trivial

theorem repeatLength_calm (unit : Nat) (n : Int) : (repeatLength unit n).Calm v := by
  unfold repeatLength
  split <;> trivial

/-! ### Requests -/

theorem send_calm (recv : Value) (name : String) (args : List Value) (block : Option Value) :
    (send recv name args block).Calm v :=
  fun _ => trivial

theorem callBlock_calm (b : Value) (args : List Value) : (callBlock b args).Calm v :=
  fun _ => trivial

theorem toText_calm (x : Value) : (toText x).Calm v := by
  refine .bind (.view _) fun p => ?_
  split
  · trivial
  · exact .bind (send_calm ..) fun _ => .view _

theorem newNat_calm (n : Nat) : (newNat n).Calm v := by
  refine .bind (.view _) fun c => ?_
  split
  · trivial
  · exact ⟨nofun, fun _ _ => trivial⟩

theorem newObject_calm {c : CoreClass} {p : Payload} {h : p.isNew = true} :
    (newObject c p h).Calm v :=
  ⟨nofun, fun _ _ => trivial⟩

/-! ### Contents -/

theorem itemsOf_calm (x : Value) : (Arrays.itemsOf x).Calm v := .bind (.view _) fun _ => trivial

theorem listOf_calm (x : Value) : (Arrays.listOf x).Calm v :=
  .bind (itemsOf_calm x) fun _ => trivial

theorem textOf_calm (x : Value) : (Strings.textOf x).Calm v := .bind (.view _) fun _ => trivial

theorem charsOf_calm (x : Value) : (Strings.charsOf x).Calm v :=
  .bind (textOf_calm x) fun _ => trivial

theorem pairsOf_calm (x : Value) : (Hashes.pairsOf x).Calm v := .bind (.view _) fun _ => trivial

theorem filled_calm (n : Nat) (block : Option Value) (x : Value) :
    (Arrays.filled n block x).Calm v := by
  cases block with
  | none => trivial
  | some b =>
    exact .mapM (fun i => .bind (newNat_calm i) fun _ => callBlock_calm b _) _

/-! ### Comparing -/

theorem equals_calm (a b : Value) : (equals a b).Calm v := by
  unfold equals
  split
  · trivial
  · refine .bind (.view _) fun p => .bind (.view _) fun q => ?_
    split
    all_goals first
      | trivial
      | exact .bind (send_calm ..) fun _ => trivial

theorem order_calm (a b : Value) : (order a b).Calm v := by
  refine .bind (.view _) fun o => ?_
  split
  · trivial
  · refine .bind (send_calm ..) fun r => .bind (.view _) fun n => ?_
    split
    · trivial
    · refine .bind ?_ fun _ => .bind (.view _) fun _ => trivial
      refine .bind (fun _ => trivial) fun out => ?_
      split
      · exact .view _
      · exact .view _

theorem blockOrder_calm (b x y : Value) : (blockOrder b x y).Calm v := by
  refine .bind (callBlock_calm ..) fun r => .bind (.view _) fun n => ?_
  split
  · trivial
  · exact .bind (.view _) fun _ => .bind (.view _) fun _ => trivial

theorem orderBy_calm (block : Option Value) (x y : Value) : (orderBy block x y).Calm v := by
  cases block with
  | some b => exact blockOrder_calm b x y
  | none => exact order_calm x y

theorem mergeBy_calm {less : Value → Value → Op Bool} (h : ∀ x y, (less x y).Calm v)
    (n : Nat) (as bs out : List Value) : (mergeBy less n as bs out).Calm v := by
  fun_induction mergeBy less n as bs out with
  | case1 | case3 => trivial
  | case2 n a as b bs out ih_right ih_left =>
    refine .bind (h b a) fun hit => ?_
    split
    · exact ih_right
    · exact ih_left

theorem sortBy_calm {less : Value → Value → Op Bool} (h : ∀ x y, (less x y).Calm v)
    (n : Nat) (xs : List Value) : (sortBy less n xs).Calm v := by
  induction n generalizing xs with
  | zero => trivial
  | succ n ih =>
    unfold sortBy
    split
    · trivial
    · exact .bind (ih _) fun _ => .bind (ih _) fun _ => mergeBy_calm h ..

theorem sorted_calm (items : List Value) (block : Option Value) : (sorted items block).Calm v := by
  refine sortBy_calm (fun x y => ?_) _ _
  exact .bind (orderBy_calm block x y) fun _ => trivial

theorem distinct_calm (block : Option Value) (xs : List Value) (seen : Table) :
    (distinct block xs seen).Calm v := by
  induction xs generalizing seen with
  | nil => trivial
  | cons x xs ih =>
    have rest (key : Value) : (tableGet? seen key >>= fun found =>
        if found.isSome = true then distinct block xs seen
        else tableInsert seen key .nil >>= fun seen =>
          distinct block xs seen >>= fun rest => pure (x :: rest)).Calm v := by
      refine .bind (.view _) fun found => ?_
      split
      · exact ih seen
      · exact .bind (.view _) fun seen => .bind (ih seen) fun _ => trivial
    cases block with
    | some b => exact .bind (callBlock_calm b _) rest
    | none => exact .bind trivial rest

/-! ### Matching -/

theorem pattern_calm (x : Value) : (pattern x).Calm v := by
  refine .bind (.view _) fun p => ?_
  split
  · trivial
  · trivial
  · exact .bind (typeLabel_calm x) fun _ => trivial

theorem replacementOf_calm (x block : Option Value) : (Strings.replacementOf x block).Calm v := by
  unfold Strings.replacementOf
  split
  · refine .bind (.view _) fun found => ?_
    split
    · trivial
    · exact .bind (needText_calm _) fun _ => trivial
  · exact .map (needBlock_calm block)

theorem replacementText_calm (r : Strings.Replacement) (groups : List (Option String)) :
    (r.text groups).Calm v := by
  cases r with
  | template cs => trivial
  | table h =>
    exact .bind newObject_calm fun _ => .bind (send_calm ..) fun _ => toText_calm _
  | block b =>
    exact .bind newObject_calm fun _ => .bind (callBlock_calm ..) fun _ => toText_calm _

theorem substituted_calm (all : Bool) (recv : Value) (args : List Value) (block : Option Value) :
    (Strings.substituted all recv args block).Calm v := by
  refine .bind (oneOrTwoArgs_calm args) fun (p, x) => .bind (pattern_calm p) fun re =>
    .bind (replacementOf_calm x block) fun r => .bind (charsOf_calm recv) fun cs =>
    .bind (.foldlM (fun _ m => ?_) _ _) fun _ => trivial
  exact .bind (.update nofun) fun _ => .bind (replacementText_calm r _) fun _ => trivial

end Eval

end Garnet
