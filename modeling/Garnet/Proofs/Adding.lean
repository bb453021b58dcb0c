import Garnet.Library.Integers
import Garnet.Library.Strings
import Garnet.Proofs.Endings
import Garnet.Proofs.Interning
import Garnet.Proofs.Texts.Inspection

/-!
# Runs that add objects

A run that ends with a value and does nothing to the store but add objects to it.
-/

namespace Garnet

open Eval

variable {α β : Type} {e : Engine} {s t : Store} {x y : Op α} {f : α → Op β}
  {P P' : α → Store → Prop} {Q : β → Store → Prop} {i : Int} {text : String} {v : Value}

namespace Store.Continues

theorem payload {p : Payload} (h : s.Continues t) (hp : s.payload v = p) (hne : p ≠ .object) :
    t.payload v = p :=
  (h.toKeeps.payload (index_lt_of_payload s hp hne)).trans hp

theorem integer (h : s.Continues t) (hv : s.payload v = .integer i) : t.payload v = .integer i :=
  h.payload hv nofun

theorem integersCached (h : s.Continues t) (hs : s.IntegersCached) : t.IntegersCached := by
  intro i hi
  rw [h.config] at hi ⊢
  exact h.integer (hs i hi)

end Store.Continues

/-- The run ends with a value of which `P` holds, and only adds objects. -/
def Adds (x : Op α) (e : Engine) (s : Store) (P : α → Store → Prop) : Prop :=
  ∃ a t, x.run e s = .ok a t ∧ s.Continues t ∧ P a t

namespace Adds

theorem of_run {a : α} (hrun : x.run e s = .ok a s) (ha : P a s) : Adds x e s P :=
  ⟨a, s, hrun, .refl s, ha⟩

theorem congr (h : x.run e s = y.run e s) (hy : Adds y e s P) : Adds x e s P := by
  rwa [Adds, h]

theorem mono (hx : Adds x e s P) (h : ∀ a t, s.Continues t → P a t → P' a t) : Adds x e s P' := by
  obtain ⟨a, t, hrun, hst, ha⟩ := hx
  exact ⟨a, t, hrun, hst, h a t hst ha⟩

theorem bind (hx : Adds x e s P) (hf : ∀ a t, s.Continues t → P a t → Adds (f a) e t Q) :
    Adds (x >>= f) e s Q := by
  obtain ⟨a, t, hrun, hst, ha⟩ := hx
  obtain ⟨b, u, hrun', htu, hb⟩ := hf a t hst ha
  refine ⟨b, u, ?_, hst.trans htu, hb⟩
  rw [Act.run_bind, hrun, Ending.andThen_ok, hrun']

end Adds

theorem newInt_adds (hs : s.IntegersCached) (i : Int) :
    Adds (newInt i) e s fun v t => t.payload v = .integer i := by
  cases hi : s.config.interns i with
  | true => exact .of_run (Store.newInt_run_interned hi e) (hs i hi)
  | false =>
    exact ⟨_, _, Store.newInt_run_fresh hi e, .alloc _,
      congrArg Object.payload (Store.object_alloc s _)⟩

theorem newText_adds (text : String) :
    Adds (newText text) e s fun v t => t.payload v = .text text :=
  ⟨_, _, rfl, .alloc _, congrArg Object.payload (Store.object_alloc s _)⟩

theorem newFloat_adds (x : Float) :
    Adds (newFloat x) e s fun v t => t.payload v = .float x :=
  ⟨_, _, rfl, .alloc _, congrArg Object.payload (Store.object_alloc s _)⟩

theorem newList_adds (vs : List Value) :
    Adds (newList vs) e s fun v t => t.payload v = .array vs.toArray :=
  ⟨_, _, rfl, .alloc _, congrArg Object.payload (Store.object_alloc s _)⟩

/-- A text for each one of a list, all of them there at the end. -/
theorem newTexts_adds (texts : List String) : Adds (texts.mapM newText) e s fun vs t =>
    List.Forall₂ (fun v text => t.payload v = .text text) vs texts := by
  induction texts generalizing s with
  | nil => exact .of_run rfl .nil
  | cons text texts ih =>
    refine .congr (Act.run_mapM_cons newText text texts) ?_
    refine (newText_adds text).bind fun v t _ hv => ?_
    refine ih.bind fun vs u htu hvs => .of_run rfl ?_
    exact .cons (htu.payload hv nofun) hvs

end Garnet

/-! ## Texts as receivers and arguments -/

namespace Garnet

open Eval

variable {e : Engine} {s : Store} {v : Value} {text : String} {i : Int}

theorem Library.Strings.textOf_run (h : s.payload v = .text text) :
    (textOf v).run e s = .ok text s := by
  simp only [textOf, view, bind, pure, Act.run, Store.text?, h, Option.getD_some]

theorem Library.Strings.charsOf_run (h : s.payload v = .text text) :
    (charsOf v).run e s = .ok text.toList s := by
  simp only [charsOf, Act.run_bind, textOf_run h, Ending.andThen_ok, Act.run_pure]

namespace Eval

theorem needText_run (h : s.payload v = .text text) : (needText v).run e s = .ok text s := by
  simp only [needText, payload, view, bind, pure, Act.run, h]

/-- A text stands for itself as a pattern. -/
theorem pattern_run (h : s.payload v = .text text) :
    (pattern v).run e s = .ok (Regex.Compiled.literal text) s := by
  simp only [pattern, payload, view, bind, pure, Act.run, h]

/-- An integer of more than 64 bits is refused. -/
theorem needWord_refused (h : s.payload v = .integer i) (hi : Number.isWord i = false) :
    (needWord v).run e s = (argumentError "integer out of range" : Op Int).run e s := by
  simp only [needWord, payload, view, bind, Act.run, h, hi, Bool.false_eq_true, if_false]

end Eval

/-! ## Integers as receivers and arguments -/

namespace Library.Integers

variable {w : Value} {j : Int} {f : Int → Int → Op Value} {g : Float → Float → Op Value}

theorem intOf_run (h : s.payload v = .integer i) : (intOf v).run e s = .ok i s := by
  simp only [intOf, view, bind, pure, Act.run, Store.integer?, h, Option.getD_some]

theorem operand_run (h : s.payload v = .integer i) :
    (operand v).run e s = .ok (.integer i) s := by
  simp only [operand, payload, view, bind, pure, Act.run, h]

/-- An operation of two numbers is that of integers when both are. -/
theorem binary_run (hv : s.payload v = .integer i) (hw : s.payload w = .integer j) :
    (binary f g v [w] none).run e s = (f i j).run e s := by
  simp only [binary, oneArg, Act.run_bind, Act.run_pure, operand_run hw, intOf_run hv,
    Ending.andThen_ok]

end Library.Integers

end Garnet
