import Garnet.Library.Modules
import Garnet.Proofs.Bodies.Operations
import Garnet.Proofs.Endings
import Garnet.Proofs.Hierarchy.Order

/-!
# Class variables

A class variable is looked for in a class and in what is above it, and kept by the first of these
that has it. An assignment in a class writes to the one that keeps the variable, and to the class
itself when there is none. The operation `class_variable_set` always writes to the class itself.
-/

namespace Garnet

namespace Store

variable {s : Store} {c d x v : Value} {name n : String}

/-- The class variables that a class or module keeps itself. -/
def cvars (s : Store) (c : Value) : Dict Value := ((s.module? c).map (·.cvars)).getD {}

/-- Looked for from `d`, the variable is found in `c` as soon as it is there: nothing has it that
comes before `c`. -/
def ComesTo (s : Store) (name : String) (d c : Value) : Prop :=
  ∃ before after, s.ancestors d = before ++ c :: after ∧ ∀ x ∈ before, (s.cvars x).get? name = none

theorem cvar?_eq : s.cvar? d name = (s.ancestors d).findSome? fun c => (s.cvars c).get? name := by
  unfold cvar? cvars
  congr 1
  funext c
  cases s.module? c <;> rfl

theorem cvarOwner?_eq :
    s.cvarOwner? d name = (s.ancestors d).find? fun c => ((s.cvars c).get? name).isSome := by
  unfold cvarOwner? cvars
  congr 1
  funext c
  cases s.module? c <;> rfl

/-- The lookup from a class comes to the one that keeps the variable, which has it. -/
theorem cvarOwner?_eq_some (h : s.cvarOwner? d name = some c) :
    s.ComesTo name d c ∧ ((s.cvars c).get? name).isSome := by
  rw [cvarOwner?_eq, List.find?_eq_some_iff_append] at h
  obtain ⟨hc, before, after, hsplit, hbefore⟩ := h
  refine ⟨⟨before, after, hsplit, fun x hx => ?_⟩, hc⟩
  simpa using hbefore x hx

/-- A class comes first among its ancestors. -/
theorem comesTo_self (hc : s.isModuleLike c) (name : String) : s.ComesTo name c c := by
  have htable : s.HasTable (.instances c) := by rwa [HasTable, ← isModuleLike_eq_link?]
  obtain ⟨rest, hrest⟩ := instanceSteps_head htable
  have hfirst : addNew #[] c = #[c] := by simp [addNew]
  obtain ⟨tail, htail⟩ := prefix_foldl_addNew (rest.map (·.holder.value)) #[c]
  refine ⟨[], tail, ?_, List.forall_mem_nil _⟩
  rw [ancestors_eq, hrest, List.map_cons, List.foldl_cons, Holder.value, hfirst, ← htail]
  rfl

/-- What a class keeps itself is what is found from there. -/
theorem cvarOwner?_self (hc : s.isModuleLike c) (h : ((s.cvars c).get? name).isSome) :
    s.cvarOwner? c name = some c := by
  obtain ⟨before, after, hsplit, hbefore⟩ := comesTo_self hc name
  rw [cvarOwner?_eq, List.find?_eq_some_iff_append]
  exact ⟨h, before, after, hsplit, fun x hx => by simp [hbefore x hx]⟩

/-! ## Writing one variable -/

theorem findSome?_overwritten {f : Value → Option Value} (v : Value) (before after : List Value)
    (h : ∀ x ∈ before, f x = none) :
    (before ++ c :: after).findSome? (fun x => if x = c then some v else f x) = some v := by
  induction before with
  | nil => simp
  | cons x before ih =>
    obtain ⟨hx, hbefore⟩ := List.forall_mem_cons.mp h
    by_cases hc : x = c
    · simp [hc]
    · simpa [hc, hx] using ih hbefore

/-- A value that the search does not come to makes no difference to it. -/
theorem findSome?_overwritten_of_not {f : Value → Option Value} (v : Value) (xs : List Value)
    (h : ¬∃ before after, xs = before ++ c :: after ∧ ∀ x ∈ before, f x = none) :
    xs.findSome? (fun x => if x = c then some v else f x) = xs.findSome? f := by
  induction xs with
  | nil => rfl
  | cons x xs ih =>
    have hc : x ≠ c := by
      rintro rfl
      exact h ⟨[], xs, rfl, List.forall_mem_nil _⟩
    rw [List.findSome?_cons, List.findSome?_cons, if_neg hc]
    cases hx : f x with
    | some y => rfl
    | none =>
      refine ih fun ⟨before, after, hxs, hbefore⟩ => h ⟨x :: before, after, by rw [hxs]; rfl, ?_⟩
      exact List.forall_mem_cons.mpr ⟨hx, hbefore⟩

/-- The store after a class variable of `c` has been written. -/
def writeCvar (s : Store) (c : Value) (name : String) (v : Value) : Store :=
  (Change.setCvar c name v).apply s

section Write

variable (s) (c) (name) (v)

theorem cvars_writeCvar (hc : s.isModuleLike c) :
    (s.writeCvar c name v).cvars d =
      if d = c then (s.cvars c).insert name v else s.cvars d := by
  rw [cvars, writeCvar, Change.apply, module?_modifyModule]
  split
  · obtain ⟨m, hm⟩ := Option.isSome_iff_exists.mp hc
    rw [cvars, hm]
    rfl
  · rfl

theorem sameLinks_writeCvar : SameLinks s (s.writeCvar c name v) where
  link := fun _ => link?_modifyModule fun _ => rfl
  extended := fun _ => keep_modifyObject (·.extended) (by split <;> rfl)

theorem ancestors_writeCvar : (s.writeCvar c name v).ancestors d = s.ancestors d := by
  have hsize : (s.writeCvar c name v).objects.size = s.objects.size := size_modifyObject
  have hlinks := s.sameLinks_writeCvar c v name
  rw [ancestors_eq, ancestors_eq, hsize, hlinks.instanceSteps fun m => ?_]
  rw [hsize]
  exact hlinks.moduleSteps false _ m

theorem isModuleLike_writeCvar : (s.writeCvar c name v).isModuleLike d = s.isModuleLike d := by
  rw [isModuleLike_eq_link?, isModuleLike_eq_link?, (s.sameLinks_writeCvar c v name).link]

variable {s c name}

/-- A variable that is written is found from wherever a lookup comes to it, and no other lookup
notices. -/
theorem cvar?_writeCvar (hc : s.isModuleLike c) (d : Value) :
    (s.ComesTo name d c → (s.writeCvar c name v).cvar? d name = some v) ∧
    (¬s.ComesTo name d c → (s.writeCvar c name v).cvar? d name = s.cvar? d name) ∧
    ∀ n, n ≠ name → (s.writeCvar c name v).cvar? d n = s.cvar? d n := by
  have hget (x : Value) (n : String) : ((s.writeCvar c name v).cvars x).get? n =
      if x = c ∧ n = name then some v else (s.cvars x).get? n := by
    rw [cvars_writeCvar s c v name hc]
    by_cases hx : x = c
    · simp [hx, Dict.get?_insert]
    · simp [hx]
  have hread (n : String) : (s.writeCvar c name v).cvar? d n =
      (s.ancestors d).findSome? fun x =>
        if x = c ∧ n = name then some v else (s.cvars x).get? n := by
    simp only [cvar?_eq, ancestors_writeCvar, hget]
  refine ⟨fun ⟨before, after, hsplit, hbefore⟩ => ?_, fun h => ?_, fun n hn => ?_⟩
  · simp only [hread, and_true, hsplit]
    exact findSome?_overwritten v before after hbefore
  · simp only [hread, and_true, cvar?_eq]
    exact findSome?_overwritten_of_not v _ h
  · simp only [hread, hn, and_false, if_false, cvar?_eq]

end Write

end Store

/-! ## Reading and writing -/

namespace Eval

open Store Library

variable {e : Engine} {s : Store} {c d n v : Value} {name : String}

theorem moduleFor_self (hc : s.isModuleLike c) (hself : s.self = c) : s.moduleFor s.self = c := by
  rw [moduleFor, hself, if_pos hc]

/-- The operation and the expression read alike. -/
theorem cvarGet_run (hn : s.payload n = .symbol name ∨ s.payload n = .text name)
    (hself : s.moduleFor s.self = c) :
    (Modules.cvarGet c [n] none).run e s = (getCvar name).run e s := by
  simp only [Modules.cvarGet, getCvar, oneArg, Act.run_bind, Act.run_pure, nameOf_run hn, run_view,
    Ending.andThen_ok, hself]
  cases s.cvar? c name with
  | some v => rfl
  | none => simp only [Act.run_bind, run_view, hself]

theorem getCvar_run (hself : s.moduleFor s.self = c) (h : s.cvar? c name = some v) :
    (getCvar name).run e s = .ok v s := by
  simp only [getCvar, Act.run_bind, run_view, Ending.andThen_ok, hself, h, Act.run_pure]

theorem cvarGet_ok (hn : s.payload n = .symbol name ∨ s.payload n = .text name)
    (h : s.cvar? d name = some v) : (Modules.cvarGet d [n] none).run e s = .ok v s := by
  simp only [Modules.cvarGet, oneArg, Act.run_bind, Act.run_pure, nameOf_run hn, run_view,
    Ending.andThen_ok, h]

theorem cvarSet_run (hn : s.payload n = .symbol name ∨ s.payload n = .text name) :
    (Modules.cvarSet c [n, v] none).run e s = .ok v (s.writeCvar c name v) := by
  simp only [Modules.cvarSet, twoArgs, Act.run_bind, Act.run_pure, nameOf_run hn, Ending.andThen_ok]
  rfl

theorem setCvar_run (hself : s.moduleFor s.self = c) :
    (setCvar name v).run e s = .ok () (s.writeCvar ((s.cvarOwner? c name).getD c) name v) := by
  simp only [setCvar, Act.run_bind, run_view, Ending.andThen_ok, hself]
  rfl

theorem name_writeCvar {x : Value} (hx : s.isModuleLike x)
    (hn : s.payload n = .symbol name ∨ s.payload n = .text name) :
    (s.writeCvar x name v).payload n = .symbol name ∨
      (s.writeCvar x name v).payload n = .text name := by
  have hne : n ≠ x := by
    rintro rfl
    rw [isModuleLike, module?] at hx
    rcases hn with hn | hn <;> simp [hn] at hx
  have hsame : (s.writeCvar x name v).object n = s.object n := by
    rw [writeCvar, Change.apply, modifyModule, object_modifyObject, if_neg fun h => hne h.1]
  rwa [Store.payload, hsame]

/-- Where the variable of a class is written: a lookup from the class comes there. -/
theorem comesTo_owner (hc : s.isModuleLike c) (name : String) :
    s.ComesTo name c ((s.cvarOwner? c name).getD c) ∧
      s.isModuleLike ((s.cvarOwner? c name).getD c) := by
  cases howner : s.cvarOwner? c name with
  | none => exact ⟨comesTo_self hc name, hc⟩
  | some o =>
    obtain ⟨hcomes, hkeeps⟩ := cvarOwner?_eq_some howner
    refine ⟨hcomes, ?_⟩
    by_contra hplain
    rw [isModuleLike, Bool.not_eq_true, Option.isSome_eq_false_iff, Option.isNone_iff_eq_none]
      at hplain
    rw [Option.getD_some] at hplain
    simp [cvars, hplain, Dict.get?] at hkeeps

/-- The two ways of writing leave the same variables if they write to the same class or module. -/
theorem cvars_writeCvar_iff (hc : s.isModuleLike c) :
    (∀ d, (s.writeCvar c name v).cvars d =
        (s.writeCvar ((s.cvarOwner? c name).getD c) name v).cvars d) ↔
      ∀ o, s.cvarOwner? c name = some o → o = c := by
  constructor
  · intro h o howner
    by_contra hne
    have hthere : ((s.cvars c).get? name).isSome := by
      have hsame := h c
      rw [howner, Option.getD_some, cvars_writeCvar s c v name hc, if_pos rfl, cvars_writeCvar,
        if_neg (Ne.symm hne)] at hsame
      · rw [← hsame, Dict.get?_insert, if_pos rfl, Option.isSome_some]
      · simpa [howner] using (comesTo_owner hc name).2
    exact hne (Option.some.inj (howner.symm.trans (cvarOwner?_self hc hthere)))
  · intro h d
    cases howner : s.cvarOwner? c name with
    | none => rfl
    | some o => rw [h o howner, Option.getD_some]

/-- In a class `c` the operation and the expression read alike. The assignment writes to `owner`,
which is the class or module that keeps the variable, or `c` itself when there is none, and everyone
who has the variable from there sees the new value. The operation always writes to `c`. After either
of them both ways of reading give the new value in `c`; it is seen from wherever a lookup comes to
the one that was written to, and from nowhere else, and other variables stay as they are. Both leave
the same variables exactly when no other one than `c` keeps the variable. -/
theorem class_variable_paths (hself : s.self = c) (hc : s.isModuleLike c)
    (hn : s.payload n = .symbol name ∨ s.payload n = .text name) (v : Value) :
    let owner := (s.cvarOwner? c name).getD c
    (Modules.cvarGet c [n] none).run e s = (getCvar name).run e s ∧
    (setCvar name v).run e s = .ok () (s.writeCvar owner name v) ∧
    (Modules.cvarSet c [n, v] none).run e s = .ok v (s.writeCvar c name v) ∧
    (∀ x t, x = owner ∨ x = c → t = s.writeCvar x name v →
      (Modules.cvarGet c [n] none).run e t = .ok v t ∧ (getCvar name).run e t = .ok v t ∧
      ∀ d, (s.ComesTo name d x → t.cvar? d name = some v) ∧
        (¬s.ComesTo name d x → t.cvar? d name = s.cvar? d name) ∧
        ∀ m, m ≠ name → t.cvar? d m = s.cvar? d m) ∧
    (∀ d, s.cvarOwner? d name = some owner →
      (Modules.cvarGet d [n] none).run e (s.writeCvar owner name v) =
        .ok v (s.writeCvar owner name v)) ∧
    ((∀ d, (s.writeCvar c name v).cvars d = (s.writeCvar owner name v).cvars d) ↔
      ∀ o, s.cvarOwner? c name = some o → o = c) := by
  intro owner
  obtain ⟨hcomes, howner⟩ := comesTo_owner hc name
  have hhere : s.moduleFor s.self = c := moduleFor_self hc hself
  refine ⟨cvarGet_run hn hhere, setCvar_run hhere, cvarSet_run hn, ?_, fun d hd => ?_,
    cvars_writeCvar_iff hc⟩
  · intro x t hx ht
    obtain ⟨hreaches, hmodule⟩ : s.ComesTo name c x ∧ s.isModuleLike x := by
      rcases hx with rfl | rfl
      · exact ⟨hcomes, howner⟩
      · exact ⟨comesTo_self hc name, hc⟩
    have hc' : t.isModuleLike c := by rwa [ht, isModuleLike_writeCvar]
    have hhere' : t.moduleFor t.self = c := moduleFor_self hc' (by rw [ht]; exact hself)
    have hread : t.cvar? c name = some v := by
      rw [ht]
      exact (cvar?_writeCvar v hmodule c).1 hreaches
    have hname := ht ▸ name_writeCvar hmodule hn
    refine ⟨cvarGet_ok hname hread, getCvar_run hhere' hread, fun d => ?_⟩
    rw [ht]
    exact cvar?_writeCvar v hmodule d
  · obtain ⟨hshares, -⟩ := cvarOwner?_eq_some hd
    exact cvarGet_ok (name_writeCvar howner hn) ((cvar?_writeCvar v howner d).1 hshares)

/-- A class that keeps a class variable, two classes below it, and a symbol. -/
def keptAbove : Store :=
  let cls := fun name base cvars =>
    ({ name, isModule := false, base, alloc := .object, cvars } : ModuleInfo)
  { config := {}
    objects :=
      #[{ cls := ⟨0⟩, payload := .module (cls "A" none (({} : Dict Value).insert "@@x" .nil)) },
        { cls := ⟨0⟩, payload := .module (cls "B" (some ⟨0⟩) {}) },
        { cls := ⟨0⟩, payload := .module (cls "C" (some ⟨0⟩) {}) },
        { cls := ⟨0⟩, payload := .symbol "@@x" }]
    scopes := #[]
    frames := [⟨⟨1⟩, none, ⟨0⟩, none⟩]
    scopeStack := [] }

/-- An assignment in one of the two classes is seen in the other; what the operation writes is not,
and leaves other variables. -/
theorem class_variable_paths_keptAbove :
    (Modules.cvarGet ⟨2⟩ [⟨3⟩] none).run (.ofFuel 0) (keptAbove.writeCvar ⟨0⟩ "@@x" .true) =
      .ok .true (keptAbove.writeCvar ⟨0⟩ "@@x" .true) ∧
    (setCvar "@@x" .true).run (.ofFuel 0) keptAbove =
      .ok () (keptAbove.writeCvar ⟨0⟩ "@@x" .true) ∧
    (Modules.cvarSet ⟨1⟩ [⟨3⟩, .true] none).run (.ofFuel 0) keptAbove =
      .ok .true (keptAbove.writeCvar ⟨1⟩ "@@x" .true) ∧
    ¬∀ d, (keptAbove.writeCvar ⟨1⟩ "@@x" .true).cvars d =
      (keptAbove.writeCvar ⟨0⟩ "@@x" .true).cvars d := by
  have howner : keptAbove.cvarOwner? ⟨1⟩ "@@x" = some ⟨0⟩ := by decide +kernel
  have hshares : keptAbove.cvarOwner? ⟨2⟩ "@@x" = some ⟨0⟩ := by decide +kernel
  have hname : keptAbove.payload ⟨3⟩ = .symbol "@@x" ∨ keptAbove.payload ⟨3⟩ = .text "@@x" :=
    .inl rfl
  obtain ⟨-, hassign, hset, -, hsees, hsame⟩ :=
    class_variable_paths (e := .ofFuel 0) (c := ⟨1⟩) rfl rfl hname .true
  rw [howner, Option.getD_some] at hassign hsees hsame
  refine ⟨hsees ⟨2⟩ hshares, hassign, hset, fun h => ?_⟩
  exact absurd (hsame.mp h ⟨0⟩ rfl) (by decide)

end Eval

end Garnet
