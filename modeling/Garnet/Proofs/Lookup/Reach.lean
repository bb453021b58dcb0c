import Garnet.Proofs.Lookup.Flat
import Garnet.Proofs.Lookup.Tables

/-!
# The tables that a lookup comes to

A lookup on a receiver comes to its own table, for a class also to those of the classes above it,
to the extensions of these, and to the tables of its class and of what is above. What it answers
depends on these tables and on where they lead, and on nothing else.
-/

namespace Garnet.Store

open Relation

variable {s t u : Store} {recv v c d m : Value} {holder : Holder} {name : String} {access : Access}
  {n k : Nat}

/-! ## Walks with one bound -/

/-- Goes up from `v` by `next`, at most `n` values. -/
def climb (next : Value → Option Value) : Nat → Value → List Value
  | 0, _ => []
  | n + 1, v =>
    v :: match next v with
      | some b => climb next n b
      | none => []

/-- Where a lookup goes on to from the own table of a value. -/
def ownBase? (s : Store) (v : Value) : Option Value := if s.isClass v then s.base? v else none

/-- The own table of a value, and those of its extensions. -/
def ownTables (s : Store) (n : Nat) (v : Value) : List Step :=
  ⟨.own v, false⟩ :: (s.object v).extended.flatMap (s.moduleSteps true n)

/-- The tables that a lookup on `recv` visits, in order, when no walk goes deeper than `n`. -/
def chainWithin (s : Store) (n : Nat) (recv : Value) : List Step :=
  (climb s.ownBase? n recv).flatMap (s.ownTables n) ++
    (climb s.base? n (s.classOf recv)).flatMap (s.moduleSteps false n)

/-- The answer of a lookup that visits these tables. -/
def answerOf (s : Store) (name : String) (access : Access) (steps : List Step) :
    Except Miss Resolved :=
  match steps.findSome? (s.shown name access) with
  | some r => .ok r
  | none =>
    match steps.findSome? (s.visibilityAt name) with
    | some v => .error (.hidden v)
    | none => .error .undefined

/-- The method that `name` denotes on `recv` when no walk goes deeper than `n`. -/
def findMethodWithin (s : Store) (n : Nat) (recv : Value) (name : String) (access : Access) :
    Except Miss Resolved :=
  s.answerOf name access (s.chainWithin n recv)

/-- A lookup on `recv` comes to the table of `holder`. -/
def Looks (s : Store) (recv : Value) (holder : Holder) : Prop :=
  ∃ n, ∃ step ∈ s.chainWithin n recv, step.holder = holder

/-! ## The walks of a lookup are bounded by the size of the heap -/

theorem instanceSteps_eq_climb (n : Nat) (c : Value) :
    s.instanceSteps n c =
      (climb s.base? n c).flatMap (s.moduleSteps false s.objects.size) := by
  induction n generalizing c with
  | zero => rfl
  | succ n ih =>
    rw [instanceSteps, climb, List.flatMap_cons]
    cases s.base? c with
    | none => rfl
    | some b => exact congrArg _ (ih b)

theorem ownSteps_eq_climb (n : Nat) (v : Value) :
    s.ownSteps n v = (climb s.ownBase? n v).flatMap (s.ownTables s.objects.size) := by
  induction n generalizing v with
  | zero => rfl
  | succ n ih =>
    rw [ownSteps, climb, List.flatMap_cons, ← ownBase?, ownTables, List.cons_append]
    cases s.ownBase? v with
    | none => rfl
    | some b => exact congrArg (fun l => _ :: (_ ++ l)) (ih b)

theorem chain_eq_chainWithin : s.chain recv = s.chainWithin s.objects.size recv := by
  rw [chain, chainWithin, ownSteps_eq_climb, instanceSteps_eq_climb]

theorem findMethod_eq_within :
    s.findMethod recv name access = s.findMethodWithin s.objects.size recv name access := by
  rw [findMethod_eq, chain_eq_chainWithin]
  rfl

/-- Where no class or module is above itself, a larger bound makes no difference. -/
theorem chainWithin_of_size_le (hs : s.Hierarchy) (ha : s.Acyclic) (hn : s.objects.size ≤ n) :
    s.chainWithin n recv = s.chain recv := by
  have hmodules (extended : Bool) :
      s.moduleSteps extended n = s.moduleSteps extended s.objects.size :=
    funext fun m => moduleSteps_of_size_le hs ha hn
  have hown : s.ownTables n = s.ownTables s.objects.size := by
    funext v
    rw [ownTables, ownTables, hmodules]
  rw [chainWithin, hown, hmodules, ← ownSteps_eq_climb, ← instanceSteps_eq_climb,
    ownSteps_of_size_le hs ha hn, instanceSteps_of_size_le hs ha hn, chain]

/-! ## What a lookup comes to -/

theorem climb_subset (next : Value → Option Value) (h : n ≤ k) :
    climb next n v ⊆ climb next k v := by
  induction n generalizing v k with
  | zero => exact List.nil_subset _
  | succ n ih =>
    obtain ⟨k, rfl⟩ := Nat.exists_eq_add_of_lt h
    rw [climb, climb]
    refine List.cons_subset_cons _ ?_
    cases next v with
    | none => exact List.nil_subset _
    | some b => exact ih (by omega)

theorem exists_mem_climb {next : Value → Option Value} :
    (∃ n, d ∈ climb next n v) ↔ ReflTransGen (fun v b => next v = some b) v d := by
  constructor
  · rintro ⟨n, hd⟩
    induction n generalizing v with
    | zero => cases hd
    | succ n ih =>
      rcases List.mem_cons.mp hd with rfl | hd
      · exact .refl
      · cases hb : next v with
        | none => rw [hb] at hd; cases hd
        | some b =>
          rw [hb] at hd
          exact .head hb (ih hd)
  · intro h
    induction h using ReflTransGen.head_induction_on with
    | refl => exact ⟨1, List.mem_cons_self⟩
    | head hb _ ih =>
      obtain ⟨n, hd⟩ := ih
      refine ⟨n + 1, List.mem_cons_of_mem _ ?_⟩
      rw [hb]
      exact hd

theorem moduleSteps_subset {extended : Bool} (h : n ≤ k) :
    s.moduleSteps extended n m ⊆ s.moduleSteps extended k m := by
  induction n generalizing m k with
  | zero => exact List.nil_subset _
  | succ n ih =>
    obtain ⟨k, rfl⟩ := Nat.exists_eq_add_of_lt h
    rw [moduleSteps, moduleSteps]
    refine List.cons_subset_cons _ fun step hstep => ?_
    obtain ⟨d, hd, hstep⟩ := List.mem_flatMap.mp hstep
    exact List.mem_flatMap.mpr ⟨d, hd, ih (by omega) hstep⟩

/-- The tables of a module are those of the modules that inclusions lead to. -/
theorem exists_mem_moduleSteps (extended : Bool) :
    (∃ n, ∃ step ∈ s.moduleSteps extended n m, step.holder = holder) ↔
      ∃ d, holder = .instances d ∧ ReflTransGen s.Includes m d := by
  constructor
  · rintro ⟨n, step, hstep, rfl⟩
    induction n generalizing m with
    | zero => cases hstep
    | succ n ih =>
      rw [moduleSteps] at hstep
      rcases List.mem_cons.mp hstep with rfl | hstep
      · exact ⟨m, rfl, .refl⟩
      · obtain ⟨d, hd, hstep⟩ := List.mem_flatMap.mp hstep
        obtain ⟨x, hx, hdx⟩ := ih hstep
        exact ⟨x, hx, .head (List.mem_reverse.mp hd) hdx⟩
  · rintro ⟨d, rfl, h⟩
    induction h using ReflTransGen.head_induction_on with
    | refl => exact ⟨1, ⟨.instances d, extended⟩, List.mem_cons_self, rfl⟩
    | head hmx _ ih =>
      obtain ⟨n, step, hstep, hd⟩ := ih
      refine ⟨n + 1, step, List.mem_cons_of_mem _ ?_, hd⟩
      exact List.mem_flatMap.mpr ⟨_, List.mem_reverse.mpr hmx, hstep⟩

theorem base?_of_ownBase? (h : s.ownBase? v = some d) : s.base? v = some d := by
  unfold ownBase? at h
  split at h
  · exact h
  · cases h

/-- The own tables that a lookup comes to are those of the receiver and, where that is a class, of
the classes above it. -/
theorem looks_own :
    s.Looks recv (.own v) ↔ ReflTransGen (fun v b => s.ownBase? v = some b) recv v := by
  rw [← exists_mem_climb]
  refine exists_congr fun n => ?_
  have hmodules {extended : Bool} {m : Value} {step : Step}
      (h : step ∈ s.moduleSteps extended n m) : step.holder ≠ .own v := by
    obtain ⟨d, hd, -⟩ := (exists_mem_moduleSteps _).mp ⟨n, step, h, rfl⟩
    rw [hd]
    exact nofun
  constructor
  · rintro ⟨step, hstep, hv⟩
    rcases List.mem_append.mp hstep with hstep | hstep
    · obtain ⟨w, hw, hstep⟩ := List.mem_flatMap.mp hstep
      rcases List.mem_cons.mp hstep with rfl | hstep
      · cases hv
        exact hw
      · obtain ⟨m, _, hstep⟩ := List.mem_flatMap.mp hstep
        exact absurd hv (hmodules hstep)
    · obtain ⟨c, _, hstep⟩ := List.mem_flatMap.mp hstep
      exact absurd hv (hmodules hstep)
  · intro hv
    refine ⟨⟨.own v, false⟩, List.mem_append_left _ ?_, rfl⟩
    exact List.mem_flatMap.mpr ⟨v, hv, List.mem_cons_self⟩

/-- The tables of instance methods that a lookup comes to are those that inclusions lead to, from
the extensions of the receiver and the classes above it, or from the classes of the receiver. -/
theorem looks_instances :
    s.Looks recv (.instances d) ↔
      (∃ v m, ReflTransGen (fun v b => s.ownBase? v = some b) recv v ∧
        m ∈ (s.object v).extended ∧ ReflTransGen s.Includes m d) ∨
      ∃ c, ReflTransGen (fun c b => s.base? c = some b) (s.classOf recv) c ∧
        ReflTransGen s.Includes c d := by
  constructor
  · rintro ⟨n, step, hstep, hd⟩
    have hmodules {extended : Bool} {m : Value} (h : step ∈ s.moduleSteps extended n m) :
        ReflTransGen s.Includes m d := by
      obtain ⟨x, hx, hmx⟩ := (exists_mem_moduleSteps _).mp ⟨n, step, h, rfl⟩
      cases hd.symm.trans hx
      exact hmx
    rcases List.mem_append.mp hstep with hstep | hstep
    · obtain ⟨v, hv, hstep⟩ := List.mem_flatMap.mp hstep
      rcases List.mem_cons.mp hstep with rfl | hstep
      · cases hd
      · obtain ⟨m, hm, hstep⟩ := List.mem_flatMap.mp hstep
        exact .inl ⟨v, m, exists_mem_climb.mp ⟨n, hv⟩, hm, hmodules hstep⟩
    · obtain ⟨c, hc, hstep⟩ := List.mem_flatMap.mp hstep
      exact .inr ⟨c, exists_mem_climb.mp ⟨n, hc⟩, hmodules hstep⟩
  · -- the larger of the two bounds serves for both walks
    rintro (⟨v, m, hv, hm, hmd⟩ | ⟨c, hc, hcd⟩)
    · obtain ⟨i, hv⟩ := exists_mem_climb.mpr hv
      obtain ⟨j, step, hstep, hd⟩ :=
        (exists_mem_moduleSteps true).mpr ⟨d, rfl, hmd⟩
      refine ⟨max i j, step, List.mem_append_left _ ?_, hd⟩
      refine List.mem_flatMap.mpr ⟨v, climb_subset _ (Nat.le_max_left i j) hv, ?_⟩
      refine List.mem_cons_of_mem _ (List.mem_flatMap.mpr ⟨m, hm, ?_⟩)
      exact moduleSteps_subset (Nat.le_max_right i j) hstep
    · obtain ⟨i, hc⟩ := exists_mem_climb.mpr hc
      obtain ⟨j, step, hstep, hd⟩ :=
        (exists_mem_moduleSteps false).mpr ⟨d, rfl, hcd⟩
      refine ⟨max i j, step, List.mem_append_right _ ?_, hd⟩
      refine List.mem_flatMap.mpr ⟨c, climb_subset _ (Nat.le_max_left i j) hc, ?_⟩
      exact moduleSteps_subset (Nat.le_max_right i j) hstep

/-! ## Stores that are alike where a lookup comes to -/

/-- The modules that a lookup goes on to from a table. -/
def leadsTo (s : Store) : Holder → List Value
  | .own v => (s.object v).extended
  | .instances m => s.included m

/-- A lookup of the name finds the same at a table, and goes on from there to the same ones. -/
structure Alike (s t : Store) (name : String) (h : Holder) : Prop where
  base : t.base? h.value = s.base? h.value
  isClass : t.isClass h.value = s.isClass h.value
  leadsTo : t.leadsTo h = s.leadsTo h
  entry : (t.tableOf h).lookup name = (s.tableOf h).lookup name

theorem Alike.rfl : Alike s s name holder := ⟨.refl _, .refl _, .refl _, .refl _⟩

theorem Alike.trans (h : Alike s t name holder) (h' : Alike t u name holder) :
    Alike s u name holder :=
  ⟨h'.base.trans h.base, h'.isClass.trans h.isClass, h'.leadsTo.trans h.leadsTo,
    h'.entry.trans h.entry⟩

theorem climb_congr {next next' : Value → Option Value}
    (h : ∀ d ∈ climb next n v, next' d = next d) : climb next' n v = climb next n v := by
  induction n generalizing v with
  | zero => rfl
  | succ n ih =>
    have hv : next' v = next v := h v List.mem_cons_self
    rw [climb, climb, hv]
    refine congrArg _ ?_
    cases hb : next v with
    | none => rfl
    | some b =>
      refine ih fun d hd => h d (List.mem_cons_of_mem _ ?_)
      rw [hb]
      exact hd

theorem moduleSteps_congr {extended : Bool}
    (h : ∀ step ∈ s.moduleSteps extended n m, t.leadsTo step.holder = s.leadsTo step.holder) :
    t.moduleSteps extended n m = s.moduleSteps extended n m := by
  induction n generalizing m with
  | zero => rfl
  | succ n ih =>
    have hm : t.included m = s.included m := h _ List.mem_cons_self
    rw [moduleSteps, moduleSteps, hm]
    refine congrArg _ (List.flatMap_congr fun d hd => ih fun step hstep => ?_)
    exact h step (List.mem_cons_of_mem _ (List.mem_flatMap.mpr ⟨d, hd, hstep⟩))

/-- Stores that are alike at every table that a lookup comes to have the same chains. -/
theorem chainWithin_congr (hclass : t.classOf recv = s.classOf recv)
    (h : ∀ holder, s.Looks recv holder → Alike s t name holder) (n : Nat) :
    t.chainWithin n recv = s.chainWithin n recv := by
  have hstep {step : Step} (hstep : step ∈ s.chainWithin n recv) : Alike s t name step.holder :=
    h _ ⟨n, step, hstep, rfl⟩
  have hown {v : Value} (hv : v ∈ climb s.ownBase? n recv) : Alike s t name (.own v) :=
    h _ (looks_own.mpr (exists_mem_climb.mp ⟨n, hv⟩))
  have hclimb : climb t.ownBase? n recv = climb s.ownBase? n recv := by
    refine climb_congr fun v hv => ?_
    have hbase : t.base? v = s.base? v := (hown hv).base
    have hkind : t.isClass v = s.isClass v := (hown hv).isClass
    rw [ownBase?, ownBase?, hbase, hkind]
  have hclasses : climb t.base? n (s.classOf recv) = climb s.base? n (s.classOf recv) := by
    refine climb_congr fun c hc => ?_
    have hlooks : s.Looks recv (.instances c) :=
      looks_instances.mpr (.inr ⟨c, exists_mem_climb.mp ⟨n, hc⟩, .refl⟩)
    exact (h _ hlooks).base
  rw [chainWithin, chainWithin, hclass, hclimb, hclasses]
  congr 1
  · refine List.flatMap_congr fun v hv => ?_
    have hextended : (t.object v).extended = (s.object v).extended := (hown hv).leadsTo
    rw [ownTables, ownTables, hextended]
    refine congrArg _ (List.flatMap_congr fun m hm => moduleSteps_congr fun step hm' => ?_)
    refine (hstep (List.mem_append_left _ (List.mem_flatMap.mpr ⟨v, hv, ?_⟩))).leadsTo
    exact List.mem_cons_of_mem _ (List.mem_flatMap.mpr ⟨m, hm, hm'⟩)
  · refine List.flatMap_congr fun c hc => moduleSteps_congr fun step hc' => ?_
    exact (hstep (List.mem_append_right _ (List.mem_flatMap.mpr ⟨c, hc, hc'⟩))).leadsTo

theorem looks_congr (hclass : t.classOf recv = s.classOf recv)
    (h : ∀ holder, s.Looks recv holder → Alike s t name holder) :
    t.Looks recv holder ↔ s.Looks recv holder := by
  simp only [Looks, chainWithin_congr hclass h]

theorem findSome?_congr {α β : Type} {f g : α → Option β} {xs : List α}
    (h : ∀ x ∈ xs, f x = g x) : xs.findSome? f = xs.findSome? g := by
  induction xs with
  | nil => rfl
  | cons x xs ih =>
    obtain ⟨hx, hxs⟩ := List.forall_mem_cons.mp h
    rw [List.findSome?_cons, List.findSome?_cons, hx, ih hxs]

/-- What a name denotes depends on the tables that a lookup comes to. -/
theorem findMethodWithin_congr (hclass : t.classOf recv = s.classOf recv)
    (h : ∀ holder, s.Looks recv holder → Alike s t name holder) (n : Nat) (access : Access) :
    t.findMethodWithin n recv name access = s.findMethodWithin n recv name access := by
  have hentry {step : Step} (hstep : step ∈ s.chainWithin n recv) :
      (t.tableOf step.holder).lookup name = (s.tableOf step.holder).lookup name :=
    (h _ ⟨n, step, hstep, rfl⟩).entry
  have hshown : (s.chainWithin n recv).findSome? (t.shown name access) =
      (s.chainWithin n recv).findSome? (s.shown name access) :=
    findSome?_congr fun step hstep => by rw [shown, shown, hentry hstep]
  have hvisibility : (s.chainWithin n recv).findSome? (t.visibilityAt name) =
      (s.chainWithin n recv).findSome? (s.visibilityAt name) :=
    findSome?_congr fun step hstep => by rw [visibilityAt, visibilityAt, hentry hstep]
  rw [findMethodWithin, findMethodWithin, chainWithin_congr hclass h n, answerOf, answerOf, hshown,
    hvisibility]

end Garnet.Store
