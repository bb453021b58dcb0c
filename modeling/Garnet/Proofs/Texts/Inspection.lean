import Garnet.Proofs.Equality.Answers
import Garnet.Proofs.Lookup.Local
import Garnet.Proofs.Ranges.Overrides
import Garnet.Proofs.Texts.Shown

/-!
# Inspection

To inspect a value that stands for a datum gives the text of the datum, when the fuel and the depth
of calls are enough for the levels that the datum has, and fails otherwise. As no two data are
written alike, values that are inspected alike stand for the same datum.
-/

namespace Garnet

open Relation Eval Library
open Library.Ranges (called deeper_ok deeper_error)

/-- The operation of the library that inspects the values that stand for a datum. -/
def Datum.inspector : Datum → Native
  | .nil => Truth.text "nil"
  | .bool _ => Truth.truthText
  | .integer _ => Integers.toS
  | .text _ => Strings.inspectText
  | .symbol _ => Symbols.inspectSymbol
  | .list _ => Arrays.inspectArray

namespace Store

variable {s t u : Store} {v w : Value} {name : String} {f : Native}

/-- The library inspects the value and all that it holds, also when more objects have been made. -/
def InspectsAll (s : Store) (v : Value) : Prop :=
  ∀ w d, ReflTransGen s.Contains v w → s.Denotes w d → ∀ t, s.Keeps t →
    t.AnswersWith w "inspect" d.inspector

theorem InspectsAll.element (h : s.InspectsAll v) (hvw : s.Contains v w) :
    s.InspectsAll w :=
  fun x d hx => h x d (hx.head hvw)

/-- More objects have been made, and as many calls are open as before. -/
structure Continues (s t : Store) : Prop extends Keeps s t where
  depth : t.depth = s.depth
  config : t.config = s.config

namespace Continues

theorem refl (s : Store) : Continues s s := ⟨.refl s, rfl, rfl⟩

theorem trans (h : Continues s t) (h' : Continues t u) : Continues s u :=
  ⟨h.toKeeps.trans h'.toKeeps, h'.depth.trans h.depth, h'.config.trans h.config⟩

theorem alloc (o : Object) : Continues s (s.alloc o).2 := ⟨.alloc o, rfl, rfl⟩

/-- A call has been made and is over. -/
theorem of_called (h : Continues (called s) t) : Continues s { t with depth := t.depth - 1 } where
  size_le := h.size_le
  object := h.object
  depth := congrArg (· - 1) h.depth
  config := h.config

end Continues

/-- So many levels of calls can be made within the fuel and the depth that are left. -/
def Room (s : Store) (n levels : Nat) : Prop :=
  2 * levels ≤ n ∧ s.depth + levels ≤ s.config.maxDepth

variable {n j k : Nat}

theorem Continues.room_iff (h : s.Continues t) : t.Room n k ↔ s.Room n k := by
  rw [Room, Room, h.depth, h.config]

theorem room_zero : s.Room n 0 ↔ s.depth ≤ s.config.maxDepth :=
  and_iff_right (Nat.zero_le n)

theorem room_called :
    (called s).Room n k ∧ s.depth < s.config.maxDepth ↔ s.Room (n + 2) (k + 1) := by
  simp only [Room, called]
  omega

theorem room_max : s.Room n (max j k) ↔ s.Room n j ∧ s.Room n k := by
  unfold Room
  omega

end Store

open Store

/-! ## Outcomes -/

section Outcomes

variable {α β : Type} {s : Store} {p q : Prop} {P : α → Store → Prop} {Q : β → Store → Prop}

/-- A run comes to its end exactly if `p` holds. Then it gives a value for which `P` holds, having
made no more than new objects. -/
inductive Settles (s : Store) (p : Prop) (P : α → Store → Prop) : Ending α → Prop
  | ok {a : α} {t : Store} (h : p) (hst : s.Continues t) (ha : P a t) : Settles s p P (.ok a t)
  | error {stop : Stop} {t : Store} (h : ¬p) : Settles s p P (.error stop t)

namespace Settles

theorem of_iff {out : Ending α} (h : Settles s p P out) (hpq : p ↔ q) : Settles s q P out := by
  cases h with
  | ok h hst ha => exact .ok (hpq.mp h) hst ha
  | error h => exact .error fun hq => h (hpq.mpr hq)

theorem of_ok {a : α} {t : Store} (h : Settles s p P (.ok a t)) : p ∧ s.Continues t ∧ P a t := by
  cases h with
  | ok h hst ha => exact ⟨h, hst, ha⟩

theorem exists_ok_iff {out : Ending α} (h : Settles s p P out) : (∃ a t, out = .ok a t) ↔ p := by
  cases h with
  | @ok a t h => exact iff_of_true ⟨a, t, rfl⟩ h
  | error h => exact iff_of_false (by rintro ⟨_, _, ⟨⟩⟩) h

theorem andThen {out : Ending α} {f : α → Run β} (h : Settles s p P out)
    (hf : ∀ a t, s.Continues t → P a t → Settles t q Q (f a t)) :
    Settles s (p ∧ q) Q (out.andThen f) := by
  cases h with
  | error h => exact .error fun hpq => h hpq.1
  | @ok a t h hst ha =>
    rw [Ending.andThen_ok]
    have hout := hf a t hst ha
    generalize f a t = out at hout
    cases hout with
    | ok h' htu hb => exact .ok ⟨h, h'⟩ (hst.trans htu) hb
    | error h' => exact .error fun hpq => h' hpq.2

end Settles

end Outcomes

namespace Eval

variable {s s₀ : Store} {v recv out : Value} {f : Native} {d : Datum} {ds : List Datum}
  {vs : List Value} {n levels : Nat} {text name : String} {e : Engine}

/-- The text that an operation has made. -/
def MakesText (text : String) (out : Value) (t : Store) : Prop := t.text? out = some text

theorem newText_settles : Settles s True (MakesText text) ((newText text).run e s) := by
  have hmade : MakesText text ⟨s.objects.size⟩
      (s.alloc { cls := CoreClass.string.value, payload := .text text }).2 := by
    rw [MakesText, Store.text?, Store.payload, Store.object_alloc]
  exact .ok trivial (.alloc _) hmade

theorem deeper_settles {p : Prop} {x : Run Value}
    (hx : s.depth < s.config.maxDepth → Settles (called s) p (MakesText text) (x (called s))) :
    Settles s (p ∧ s.depth < s.config.maxDepth) (MakesText text) (Engine.deeper x s) := by
  by_cases hdepth : s.depth < s.config.maxDepth
  · have hout := hx hdepth
    cases hrun : x (called s) with
    | ok out t =>
      rw [deeper_ok hdepth hrun]
      rw [hrun] at hout
      cases hout with
      | ok h hst ha => exact .ok ⟨h, hdepth⟩ hst.of_called ha
    | error stop t =>
      rw [deeper_error hdepth hrun]
      rw [hrun] at hout
      cases hout with
      | error h => exact .error fun hp => h hp.1
  · rw [Engine.deeper, if_pos (Nat.le_of_not_lt hdepth)]
    exact .error fun hp => hdepth hp.2

/-- To send a message takes a request and another one in it. -/
theorem send_run_of_fuel_lt {r : Resolved} (hfind : s.findMethod v name .all = .ok r)
    (args : List Value) (hn : n < 2) :
    (send v name args none).run (.ofFuel n) s = .error .exhausted s := by
  obtain rfl | rfl : n = 0 ∨ n = 1 := by omega
  · rfl
  · have hanswer : (Engine.ofFuel 1).perform (.send .all v name args none) s =
        (answer .all v name args none).run (.ofFuel 0) s := rfl
    simp only [send, sendWith, perform, Act.run, hanswer]
    simp only [answer, view, invoke, perform, bind, Act.run, hfind]
    rfl

/-- A message that the library answers takes one level of calls. -/
theorem send_settles (hanswers : s.AnswersWith v name f) (args : List Value)
    (hf : ∀ k, s.depth < s.config.maxDepth → Settles (called s) ((called s).Room k levels)
      (MakesText text) ((f v args none).run (.ofFuel k) (called s))) :
    Settles s (s.Room n (levels + 1)) (MakesText text)
      ((send v name args none).run (.ofFuel n) s) := by
  obtain ⟨r, i, hfind, hm, hrun⟩ := hanswers
  rcases Nat.lt_or_ge n 2 with hn | hn
  · rw [send_run_of_fuel_lt hfind args hn]
    refine .error fun h => ?_
    have hfuel := h.1
    omega
  · obtain ⟨k, rfl⟩ := Nat.exists_eq_add_of_le' hn
    rw [send_run hfind hm hrun]
    exact (deeper_settles (hf k)).of_iff room_called

/-- The text of a value is what the message answers. -/
theorem inspect_settles (h : Settles s (s.Room n levels) (MakesText text)
    ((send v "inspect" [] none).run (.ofFuel n) s)) :
    Settles s (s.Room n levels) (fun shown _ => shown = text) ((inspect v).run (.ofFuel n) s) := by
  rw [inspect, Act.run_bind]
  refine (h.andThen fun out t _ ht => ?_).of_iff (iff_of_eq (and_true _))
  rw [run_view, ht]
  exact .ok trivial (.refl t) rfl

/-! ## Scalars -/

theorem inspector_run (hd : d.scalar? = some d) (hv : s.Denotes v d) :
    (d.inspector v [] none).run e s = (newText d.shown).run e s := by
  cases d with
  | nil => rfl
  | bool b =>
    rw [Datum.inspector, Truth.truthText, hv.1, truthy_ofBool]
    rfl
  | integer i =>
    have hinteger : s.payload v = .integer i := hv
    have hint : (Integers.intOf v).run e s = .ok i s := by
      rw [Integers.intOf, Act.run_bind, run_view, Ending.andThen_ok, Store.integer?, hinteger]
      rfl
    simp only [Datum.inspector, Integers.toS, atMostOneArg, Act.run_bind, Act.run_pure,
      Ending.andThen_ok]
    rw [if_neg (by decide), Act.run_bind, hint]
    rfl
  | text t =>
    have htext : (Strings.textOf v).run e s = .ok t s := by
      rw [Strings.textOf, Act.run_bind, run_view, Ending.andThen_ok, Store.text?_eq_some.mpr hv]
      rfl
    rw [Datum.inspector, Strings.inspectText, Act.run_bind, htext]
    rfl
  | symbol t =>
    have hname : (Symbols.symbolName v).run e s = .ok t s := by
      rw [Symbols.symbolName, Act.run_bind, run_view, Ending.andThen_ok,
        Store.symbol?_eq_some.mpr hv]
      rfl
    rw [Datum.inspector, Symbols.inspectSymbol, Act.run_bind, hname]
    rfl
  | list => cases hd

/-! ## Arrays -/

/-- Whenever a value that stands for the datum is inspected, this settles with the text of the
datum. -/
def Inspected (s₀ : Store) (d : Datum) : Prop :=
  ∀ v s n, s₀.InspectsAll v → s₀.Denotes v d → s₀.Keeps s → Settles s (s.Room n d.depth)
    (fun shown _ => shown = d.shown) ((inspect v).run (.ofFuel n) s)

theorem inspected_scalar (hd : d.scalar? = some d) : Inspected s₀ d := by
  intro v s n hplain hv hk
  have hdepth : d.depth = 0 + 1 := by cases d <;> first | rfl | cases hd
  rw [hdepth]
  refine inspect_settles (send_settles (hplain v d .refl hv s hk) [] fun k h => ?_)
  have hcalled : s₀.Keeps (called s) := hk.trans (.of_objects rfl)
  rw [inspector_run hd (hcalled.denotes hv)]
  exact newText_settles.of_iff (iff_of_true trivial (room_zero.mpr h))

/-- The text of an element. -/
def inspectElement (recv v : Value) : Op String :=
  if v == recv then pure "[...]" else inspect v

theorem inspectElements_settle (hds : ∀ d ∈ ds, Inspected s₀ d)
    (hplain : ∀ v ∈ vs, s₀.InspectsAll v) (hrecv : ∀ d ∈ ds, ¬s₀.Denotes recv d)
    (hvs : s₀.DenoteAll vs ds) (hk : s₀.Keeps s) (hdepth : s.depth ≤ s.config.maxDepth) :
    Settles s (s.Room n (Datum.depthAll ds)) (fun texts _ => texts = Datum.shownAll ds)
      ((vs.mapM (inspectElement recv)).run (.ofFuel n) s) := by
  induction ds generalizing vs s with
  | nil =>
    cases vs with
    | nil => exact .ok (room_zero.mpr hdepth) (.refl s) rfl
    | cons => exact hvs.elim
  | cons d ds ih =>
    cases vs with
    | nil => exact hvs.elim
    | cons v vs =>
      obtain ⟨hd, hds⟩ := List.forall_mem_cons.mp hds
      obtain ⟨hplainv, hplain⟩ := List.forall_mem_cons.mp hplain
      obtain ⟨hv, hvs⟩ := hvs
      have hne : (v == recv) = false :=
        beq_false_of_ne fun h => hrecv d List.mem_cons_self (h ▸ hv)
      have hfirst : Settles s (s.Room n d.depth) (fun shown _ => shown = d.shown)
          ((inspectElement recv v).run (.ofFuel n) s) := by
        rw [inspectElement, hne]
        exact hd v s n hplainv hv hk
      rw [Act.run_mapM_cons_andThen]
      refine (hfirst.andThen fun text t hst htext => ?_).of_iff room_max.symm
      have hrest := ih hds hplain (fun d hd => hrecv d (List.mem_cons_of_mem _ hd)) hvs
        (hk.trans hst.toKeeps) (hst.depth.trans_le (hdepth.trans_eq (congrArg _ hst.config.symm)))
      refine (hrest.andThen (q := True) fun texts u _ htexts => ?_).of_iff ?_
      · rw [htext, htexts]
        exact .ok trivial (.refl u) rfl
      · rw [and_true, hst.room_iff]

theorem inspected_list (hds : ∀ d ∈ ds, Inspected s₀ d) : Inspected s₀ (.list ds) := by
  intro v s n hplain hv hk
  have hrecv : ∀ d ∈ ds, ¬s₀.Denotes v d := by
    intro d hd hvd
    have hdepth := Datum.depth_le_depthAll hd
    rw [hvd.unique hv, Datum.depth] at hdepth
    omega
  rw [Datum.depth]
  refine inspect_settles (send_settles (hplain v _ .refl hv s hk) [] fun k h => ?_)
  obtain ⟨xs, hxs, hvs⟩ := hv
  have hcalled : s₀.Keeps (called s) := hk.trans (.of_objects rfl)
  have hpayload : (called s).payload v = .array xs.toList.toArray :=
    (hcalled.payload (index_lt_of_payload s₀ hxs Payload.noConfusion)).trans hxs
  have hplain : ∀ w ∈ xs.toList, s₀.InspectsAll w := fun w hw =>
    hplain.element ⟨xs, array?_eq_some.mpr hxs, Array.mem_def.mpr hw⟩
  have helements := inspectElements_settle (n := k) hds hplain hrecv hvs hcalled h
  rw [Datum.inspector, Arrays.inspectArray, Act.run_bind, listOf_run hpayload,
    Ending.andThen_ok, Act.run_bind]
  refine (helements.andThen fun texts t _ htexts => ?_).of_iff (iff_of_eq (and_true _))
  rw [htexts]
  exact newText_settles

theorem inspected (d : Datum) : Inspected s₀ d := by
  induction d with
  | nil | bool | integer | text | symbol => exact inspected_scalar rfl
  | list ds ih => exact inspected_list ih

/-! ## Texts and data -/

/-- Values that stand for data are inspected alike exactly when they stand for the same datum, and
to inspect such a value comes to its end exactly when the fuel and the depth of calls are enough for
the levels that the datum has. No two texts are written alike, and no two names of symbols are. -/
theorem inspect_injective :
    (∀ (s s' : Store) (v v' : Value) (d d' : Datum), s.InspectsAll v → s'.InspectsAll v' →
      s.Denotes v d → s'.Denotes v' d' →
      (∀ n, (∃ text t, (inspect v).run (.ofFuel n) s = .ok text t) ↔ s.Room n d.depth) ∧
      ∀ n n' text text' t t', (inspect v).run (.ofFuel n) s = .ok text t →
        (inspect v').run (.ofFuel n') s' = .ok text' t' → (text = text' ↔ d = d')) ∧
    Function.Injective Text.inspectText ∧ Function.Injective Text.inspectSymbol := by
  refine ⟨fun s s' v v' d d' hs hs' hv hv' => ⟨fun n => ?_, ?_⟩, Text.inspectText_injective,
    Text.inspectSymbol_injective⟩
  · exact (inspected d v s n hs hv (.refl s)).exists_ok_iff
  · intro n n' text text' t t' hrun hrun'
    have hout := inspected d v s n hs hv (.refl s)
    have hout' := inspected d' v' s' n' hs' hv' (.refl s')
    rw [hrun] at hout
    rw [hrun'] at hout'
    rw [hout.of_ok.2.2, hout'.of_ok.2.2]
    exact Datum.shown_injective.eq_iff

/-- The arrays `[:[], "]"]` and `[:"[], \"]\""]` behind the classes of texts, symbols and arrays. -/
def lookalikes : Store where
  config := {}
  objects := #[Ranges.classWith [("inspect", 300)], Ranges.classWith [("inspect", 307)],
    Ranges.classWith [("inspect", 379)], { cls := ⟨0⟩, payload := .text "]" },
    { cls := ⟨1⟩, payload := .symbol "[]" }, { cls := ⟨1⟩, payload := .symbol "[], \"]\"" },
    { cls := ⟨2⟩, payload := .array #[⟨4⟩, ⟨3⟩] }, { cls := ⟨2⟩, payload := .array #[⟨5⟩] }]
  scopes := #[]
  frames := []
  scopeStack := []

theorem lookalikes_inspectsAll (v : Value) : lookalikes.InspectsAll v := by
  intro v d _ hv t ht
  have hlt : v.index < 8 := hv.index_lt
  have hmodule (c : Value) (hc : c.index < 8) : t.module? c = lookalikes.module? c := by
    rw [Store.module?, Store.module?, ht.payload hc]
  have hanswers {c : Value} {m : ModuleInfo} {def' : MethodDef} {visibility : Visibility} {i : Nat}
      {f : Native} (hown : (lookalikes.object v).own = {})
      (hextended : (lookalikes.object v).extended = []) (hclass : lookalikes.isClass v = false)
      (hcls : lookalikes.classOf v = c) (hc : c.index < 8) (hm : lookalikes.module? c = some m)
      (hd : m.methods.lookup "inspect" = some (def', visibility)) (hbody : def'.body = .builtin i)
      (hf : Library.run i = f) : t.AnswersWith v "inspect" f := by
    have ho := ht.object v hlt
    refine Store.answersWith_of_class (Nat.lt_of_lt_of_le hlt ht.size_le) (ho ▸ hown)
      (ho ▸ hextended) ?_ ?_ hd hbody hf
    · rw [Store.isClass, hmodule v hlt]
      exact hclass
    · rw [Store.classOf, ho, ← Store.classOf, hcls, hmodule c hc, hm]
  obtain ⟨k⟩ := v
  have hk : k < 8 := hlt
  have hscalar {d' : Datum} (h : (lookalikes.payload ⟨k⟩).scalar? = some d') : d = d' :=
    Datum.eq_of_scalar? (hv.scalar?.symm.trans h)
  have harray (h : (lookalikes.payload ⟨k⟩).scalar? = none) :
      ∃ xs ds, lookalikes.payload ⟨k⟩ = .array xs ∧ d = .list ds := by
    obtain ⟨xs, ds, hxs, hd, -⟩ := hv.array_of_scalar? h
    exact ⟨xs, ds, hxs, hd⟩
  interval_cases k
  iterate 3
    · obtain ⟨_, _, hclass, -⟩ := harray rfl
      cases hclass
  iterate 3
    · obtain rfl := hscalar rfl
      exact hanswers rfl rfl rfl rfl (by decide) rfl rfl rfl (Ranges.run_eq_of_all rfl)
  iterate 2
    · obtain ⟨_, ds, -, rfl⟩ := harray rfl
      exact hanswers rfl rfl rfl rfl (by decide) rfl rfl rfl (Ranges.run_eq_of_all rfl)

theorem inspect_injective_lookalikes :
    lookalikes.InspectsAll ⟨6⟩ ∧ lookalikes.InspectsAll ⟨7⟩ ∧
      lookalikes.Denotes ⟨6⟩ (.list [.symbol "[]", .text "]"]) ∧
      lookalikes.Denotes ⟨7⟩ (.list [.symbol "[], \"]\""]) ∧
      ∃ text text' t t', (inspect ⟨6⟩).run (.ofFuel 4) lookalikes = .ok text t ∧
        (inspect ⟨7⟩).run (.ofFuel 4) lookalikes = .ok text' t' ∧ text ≠ text' := by
  have hv : lookalikes.Denotes ⟨6⟩ (.list [.symbol "[]", .text "]"]) :=
    ⟨_, rfl, rfl, rfl, trivial⟩
  have hv' : lookalikes.Denotes ⟨7⟩ (.list [.symbol "[], \"]\""]) := ⟨_, rfl, rfl, trivial⟩
  have hs := lookalikes_inspectsAll ⟨6⟩
  have hs' := lookalikes_inspectsAll ⟨7⟩
  obtain ⟨hends, hsame⟩ := inspect_injective.1 _ _ _ _ _ _ hs hs' hv hv'
  obtain ⟨hends', -⟩ := inspect_injective.1 _ _ _ _ _ _ hs' hs hv' hv
  obtain ⟨text, t, hrun⟩ := (hends 4).mpr ⟨by decide, by decide⟩
  obtain ⟨text', t', hrun'⟩ := (hends' 4).mpr ⟨by decide, by decide⟩
  refine ⟨hs, hs', hv, hv', text, text', t, t', hrun, hrun', ?_⟩
  rw [Ne, hsame _ _ _ _ _ _ hrun hrun']
  intro h
  cases (List.cons.inj (Datum.list.inj h)).2

end Eval

end Garnet
