import Garnet.Proofs.Hierarchy.Order
import Garnet.Proofs.Requests

/-!
# Exceptions and the order of classes

A clause of an exception handler asks each class that it names by the message `===`. As long as
these classes have the `===` of the library, a clause takes the exceptions of the classes it names
and of all that is below them.
-/

namespace Garnet

open Relation

/-- The message `===` to `c` asks for the kind of a value, as the library has it. -/
def Store.TestsKind (s : Store) (c : Value) : Prop :=
  ∃ r i, s.findMethod c "===" .all = .ok r ∧ r.method.body = .builtin i ∧
    Library.run i = Library.Modules.caseEqual

/-- The clause names these classes; the evaluation of their names leaves the second store. -/
def Clause.Names (k : Clause Expr) (e : Engine) (s : Store) (cs : List Value) (t : Store) : Prop :=
  match k.classes with
  | none => cs = [CoreClass.standardError.value] ∧ t = s
  | some items => (Eval.evalItems items).run e s = .ok cs t

namespace Eval

variable {n : Nat} {s t u : Store} {c exc : Value} {bs cs : List Value} {k : Clause Expr}

/-! ## The test of one class -/

theorem caseEqual_run (c v : Value) (e : Engine) (s : Store) :
    (Library.Modules.caseEqual c [v] none).run e s = .ok (.ofBool (s.isA v c)) s :=
  rfl

theorem caseEquals_run (hc : s.TestsKind c) (hdepth : s.depth < s.config.maxDepth) (v : Value) :
    (caseEquals c v).run (.ofFuel (n + 2)) s = .ok (s.isA v c) s := by
  obtain ⟨r, i, hfind, hm, hf⟩ := hc
  have hsend : (send c "===" [v] none).run (.ofFuel (n + 2)) s = .ok (.ofBool (s.isA v c)) s := by
    have hisA : Store.isA { s with depth := s.depth + 1 } v c = s.isA v c :=
      Store.isA_of_objects rfl
    rw [send_run hfind hm hf, Engine.deeper, if_neg (Nat.not_le_of_lt hdepth), caseEqual_run, hisA]
    rfl
  simp only [caseEquals, bind, pure, Act.run, hsend]
  cases s.isA v c <;> rfl

/-- A test that has ended was made within the depth of calls and had the fuel for it. -/
theorem caseEquals_ok {hit : Bool} {v : Value} (hc : s.TestsKind c)
    (h : (caseEquals c v).run (.ofFuel n) s = .ok hit t) :
    2 ≤ n ∧ s.depth < s.config.maxDepth := by
  match n, h with
  | 0, h => cases h
  | 1, h =>
    obtain ⟨r, _, hfind, _⟩ := hc
    have hsend : (send c "===" [v] none).run (.ofFuel 1) s = .error .exhausted s := by
      have hanswer : (Engine.ofFuel 1).perform (.send .all c "===" [v] none) s =
          (answer .all c "===" [v] none).run (.ofFuel 0) s := rfl
      simp only [send, sendWith, perform, Act.run, hanswer]
      simp only [answer, view, invoke, perform, bind, Act.run, hfind]
      rfl
    simp only [caseEquals, bind, Act.run, hsend] at h
    cases h
  | n + 2, h =>
    refine ⟨Nat.le_add_left 2 n, Nat.lt_of_not_le fun hdeep => ?_⟩
    obtain ⟨r, i, hfind, hm, hf⟩ := hc
    simp only [caseEquals, bind, Act.run, send_run hfind hm hf, Engine.deeper, ge_iff_le, hdeep,
      if_true] at h
    cases h

/-! ## The test of a clause -/

theorem anyTakes_run (hcs : ∀ c ∈ cs, s.TestsKind c) (hdepth : s.depth < s.config.maxDepth)
    (v : Value) : (anyTakes (some v) cs).run (.ofFuel (n + 2)) s = .ok (cs.any (s.isA v ·)) s := by
  induction cs with
  | nil => rfl
  | cons c cs ih =>
    obtain ⟨hc, hcs⟩ := List.forall_mem_cons.mp hcs
    simp only [anyTakes, bind, Act.run, caseEquals_run hc hdepth, List.any_cons]
    cases s.isA v c with
    | true => rfl
    | false => exact ih hcs

theorem anyTakes_ok {v : Value} (hcs : ∀ c ∈ cs, s.TestsKind c)
    (h : (anyTakes (some v) cs).run (.ofFuel n) s = .ok true t) :
    2 ≤ n ∧ s.depth < s.config.maxDepth := by
  match cs, h with
  | [], h => cases h
  | c :: cs, h =>
    have hc := hcs c List.mem_cons_self
    simp only [anyTakes, bind, Act.run] at h
    cases hrun : (caseEquals c v).run (.ofFuel n) s with
    | ok hit u => exact caseEquals_ok hc hrun
    | error stop u =>
      rw [hrun] at h
      cases h

theorem clauseTakes_run {e : Engine} (hk : k.Names e s cs t) :
    (clauseTakes k exc).run e s = (anyTakes (some exc) cs).run e t := by
  unfold Clause.Names at hk
  cases hclasses : k.classes with
  | none =>
    rw [hclasses] at hk
    obtain ⟨rfl, rfl⟩ := hk
    simp only [clauseTakes, hclasses, anyTakes, bind, pure, liftM, monadLift, MonadLift.monadLift,
      Act.run]
    cases (caseEquals CoreClass.standardError.value exc).run e t with
    | error stop u => rfl
    | ok hit u => cases hit <;> rfl
  | some items =>
    rw [hclasses] at hk
    simp only [clauseTakes, hclasses, bind, liftM, monadLift, MonadLift.monadLift, Act.run, hk]

/-- A clause takes an exception when it names its class, or something above it. -/
theorem clauseTakes_iff (hk : k.Names (.ofFuel n) s cs t) (hcs : ∀ c ∈ cs, t.TestsKind c) :
    (clauseTakes k exc).run (.ofFuel n) s = .ok true u ↔
      u = t ∧ 2 ≤ n ∧ t.depth < t.config.maxDepth ∧ ∃ c ∈ cs, t.isA exc c := by
  rw [clauseTakes_run hk]
  constructor
  · intro h
    obtain ⟨hn, hdepth⟩ := anyTakes_ok hcs h
    obtain ⟨n, rfl⟩ := Nat.exists_eq_add_of_le' hn
    rw [anyTakes_run hcs hdepth] at h
    obtain ⟨hany, rfl⟩ := Ending.ok.inj h
    exact ⟨rfl, hn, hdepth, List.any_eq_true.mp hany⟩
  · rintro ⟨rfl, hn, hdepth, hany⟩
    obtain ⟨n, rfl⟩ := Nat.exists_eq_add_of_le' hn
    rw [anyTakes_run hcs hdepth, List.any_eq_true.mpr hany]

end Eval

/-! ## Classes, their ancestors and the exceptions they take -/

namespace Store

variable {s : Store}

/-- Where no module leads back to itself, to inherit is a partial order, the ancestors of a class
or module are what it inherits from, each once and itself first, and a value that is of one kind is
of every kind above it. A clause that names what is above the classes of another clause then takes
every exception that the other one takes, as long as all of them have the `===` of the library. -/
theorem inherits_order (hs : s.Hierarchy) (hi : ∀ m, ¬TransGen s.Includes m m) :
    (∀ a b, s.inherits a b ↔ ReflTransGen s.Above a b) ∧
    (∀ a, s.inherits a a) ∧
    (∀ a b c, s.inherits a b → s.inherits b c → s.inherits a c) ∧
    (∀ a b, s.inherits a b → s.inherits b a → a = b) ∧
    (∀ c, (∃ rest, s.ancestors c = c :: rest) ∧ (s.ancestors c).Nodup ∧
      ∀ d, d ∈ s.ancestors c ↔ ReflTransGen s.Above c d) ∧
    (∀ v b c, s.isA v b → s.inherits b c → s.isA v c) ∧
    (∀ n exc (k k' : Clause Expr) s₁ s₂ bs cs,
      k.Names (.ofFuel n) s₁ bs s → k'.Names (.ofFuel n) s₂ cs s →
      (∀ b ∈ bs, s.TestsKind b) → (∀ c ∈ cs, s.TestsKind c) →
      (∀ b ∈ bs, ∃ c ∈ cs, s.inherits b c) →
      (Eval.clauseTakes k exc).run (.ofFuel n) s₁ = .ok true s →
      (Eval.clauseTakes k' exc).run (.ofFuel n) s₂ = .ok true s) := by
  have ha : s.Acyclic := hs.acyclic_of_includes hi
  have hiff (a b : Value) : s.inherits a b ↔ ReflTransGen s.Above a b := inherits_iff hs ha
  refine ⟨hiff, fun a => ?_, fun a b c hab hbc => ?_, fun a b => inherits_antisymm hs ha,
    fun c => ⟨ancestors_head hs ha, nodup_ancestors, fun d => mem_ancestors hs ha⟩,
    fun v b c => isA_of_inherits hs ha, ?_⟩
  · exact (hiff a a).mpr .refl
  · exact (hiff a c).mpr (((hiff a b).mp hab).trans ((hiff b c).mp hbc))
  · intro n exc k k' s₁ s₂ bs cs hk hk' hbs hcs habove htakes
    obtain ⟨-, hn, hdepth, b, hb, hisA⟩ := (Eval.clauseTakes_iff hk hbs).mp htakes
    obtain ⟨c, hc, hbc⟩ := habove b hb
    exact (Eval.clauseTakes_iff hk' hcs).mpr
      ⟨rfl, hn, hdepth, c, hc, isA_of_inherits hs ha hisA hbc⟩

/-- A class `B` below a class `A`, and a class `C` beside them; an instance of `B` and one of `C`.
The class `B` has methods of its own. -/
def guarded (own : MethodTable) : Store :=
  let cls := fun name base =>
    ({ name, isModule := false, base, alloc := .object } : ModuleInfo)
  let tests : MethodDef := ⟨"===", .builtin 92, false⟩
  let consts := ((({} : Dict Value).insert "A" ⟨1⟩).insert "B" ⟨2⟩).insert "C" ⟨3⟩
  let classes : ModuleInfo :=
    { cls "Class" none with methods := ({} : MethodTable).insert "===" tests .pub, consts }
  { config := {}
    objects :=
      #[{ cls := ⟨0⟩, payload := .module classes },
        { cls := ⟨0⟩, payload := .module (cls "A" none) },
        { cls := ⟨0⟩, payload := .module (cls "B" (some ⟨1⟩)), own },
        { cls := ⟨0⟩, payload := .module (cls "C" none) },
        { cls := ⟨2⟩, payload := .object },
        { cls := ⟨3⟩, payload := .object }]
    scopes := #[{ kind := .top, parent := none }]
    frames := [⟨⟨0⟩, none, ⟨0⟩, none⟩]
    scopeStack := [⟨0⟩] }

/-- A clause that names one class by a constant. -/
def clauseFor (name : String) : Clause Expr :=
  ⟨some [.plain (.const .lexical name)], none, .nil⟩

variable (own : MethodTable)

theorem guarded_link? {c : Value} {l : Link} (h : (guarded own).link? c = some l) :
    l = ⟨false, none, []⟩ ∨ c = ⟨2⟩ ∧ l = ⟨false, some ⟨1⟩, []⟩ := by
  obtain ⟨_ | _ | _ | _ | i⟩ := c
  · exact .inl (Option.some.inj h).symm
  · exact .inl (Option.some.inj h).symm
  · exact .inr ⟨rfl, (Option.some.inj h).symm⟩
  · exact .inl (Option.some.inj h).symm
  · match i, h with
    | 0, h | 1, h | i + 2, h => exact nomatch h

theorem guarded_hierarchy : (guarded own).Hierarchy := by
  refine ⟨Nat.succ_pos 5, fun hl => ⟨fun hb => ?_, fun _ => ?_, fun hm => ?_⟩, fun hl hb => ?_⟩ <;>
    rcases guarded_link? own hl with rfl | ⟨rfl, rfl⟩
  · cases hb
  · cases hb
    rfl
  · rfl
  · contradiction
  · cases hm
  · cases hm
  · cases hb
  · cases hb
    decide

theorem guarded_includes (m : Value) : ¬TransGen (guarded own).Includes m m := by
  intro h
  obtain ⟨d, hd, _⟩ := TransGen.head'_iff.mp h
  obtain ⟨l, hl, hm⟩ := mem_included.mp hd
  rcases guarded_link? own hl with rfl | ⟨_, rfl⟩ <;> cases hm

theorem testsKind_of_findMethod {c : Value} {r : Resolved}
    (h : s.findMethod c "===" .all = .ok r) (hm : r.method.body = .builtin 92) : s.TestsKind c := by
  have hentry : Library.all[92]? =
      some (Entry.method .moduleClass "===" Library.Modules.caseEqual) := by
    rw [Library.all, List.getElem?_toArray]
    rfl
  exact ⟨r, 92, h, hm, Library.run_eq hentry⟩

/-- A clause for `A` takes an instance of `B`, because one for `B` does. -/
theorem inherits_order_guarded :
    (guarded {}).Hierarchy ∧ (∀ m, ¬TransGen (guarded {}).Includes m m) ∧
      (Eval.clauseTakes (clauseFor "A") ⟨4⟩).run (.ofFuel 4) (guarded {}) =
        .ok true (guarded {}) := by
  have hA : (guarded {}).TestsKind ⟨1⟩ := testsKind_of_findMethod rfl rfl
  have hB : (guarded {}).TestsKind ⟨2⟩ := testsKind_of_findMethod rfl rfl
  have hnamesA : (clauseFor "A").Names (.ofFuel 4) (guarded {}) [⟨1⟩] (guarded {}) := rfl
  have hnamesB : (clauseFor "B").Names (.ofFuel 4) (guarded {}) [⟨2⟩] (guarded {}) := rfl
  have hbase : (guarded {}).Above ⟨2⟩ ⟨1⟩ := .inl rfl
  refine ⟨guarded_hierarchy {}, guarded_includes {}, ?_⟩
  obtain ⟨hiff, hrefl, -, -, -, -, hclauses⟩ :=
    inherits_order (guarded_hierarchy {}) (guarded_includes {})
  refine hclauses 4 ⟨4⟩ _ _ _ _ [⟨2⟩] [⟨1⟩] hnamesB hnamesA ?_ ?_ ?_ ?_
  · exact List.forall_mem_singleton.mpr hB
  · exact List.forall_mem_singleton.mpr hA
  · refine List.forall_mem_singleton.mpr ⟨⟨1⟩, List.mem_singleton_self _, ?_⟩
    exact (hiff _ _).mpr (.single hbase)
  · rw [Eval.clauseTakes_iff hnamesB (List.forall_mem_singleton.mpr hB)]
    refine ⟨rfl, by decide, by decide, ⟨2⟩, List.mem_singleton_self _, ?_⟩
    have ha := (guarded_hierarchy {}).acyclic_of_includes (guarded_includes {})
    exact (isA_iff (guarded_hierarchy {}) ha).mpr (.inl (hrefl ⟨2⟩))

/-- A method that takes one argument and is true whatever that is. -/
def alwaysTrue : MethodDef := ⟨"===", .compiled { required := [.name "e"] } .true none, true⟩

/-- With an `===` of its own, a class takes what no class above it takes. -/
theorem clauseTakes_guarded_redefined :
    let s := guarded (({} : MethodTable).insert "===" alwaysTrue .pub)
    s.Hierarchy ∧ (∀ m, ¬TransGen s.Includes m m) ∧ s.inherits ⟨2⟩ ⟨1⟩ ∧
      (∃ t, (Eval.clauseTakes (clauseFor "B") ⟨5⟩).run (.ofFuel 4) s = .ok true t) ∧
      (Eval.clauseTakes (clauseFor "A") ⟨5⟩).run (.ofFuel 4) s = .ok false s := by
  intro s
  have hA : s.TestsKind ⟨1⟩ := testsKind_of_findMethod rfl rfl
  have hnames : (clauseFor "A").Names (.ofFuel 4) s [⟨1⟩] s := rfl
  have hs : s.Hierarchy := guarded_hierarchy _
  have ha : s.Acyclic := hs.acyclic_of_includes (guarded_includes _)
  have hbase : s.Above ⟨2⟩ ⟨1⟩ := .inl rfl
  have hnot : s.isA ⟨5⟩ ⟨1⟩ = false := by
    -- the class of the exception has nothing above it
    rw [Bool.eq_false_iff, Ne, isA_iff hs ha, inherits_iff hs ha]
    rintro (h | ⟨m, hm, _⟩)
    · rcases ReflTransGen.cases_head h with h | ⟨d, hd, _⟩
      · cases h
      · obtain ⟨l, hl, hd⟩ := above_iff.mp hd
        rcases guarded_link? _ hl with rfl | ⟨h, _⟩
        · rcases hd with hd | hd <;> cases hd
        · cases h
    · cases hm
  refine ⟨hs, guarded_includes _, (inherits_iff hs ha).mpr (.single hbase), ⟨_, rfl⟩, ?_⟩
  rw [Eval.clauseTakes_run hnames,
    Eval.anyTakes_run (List.forall_mem_singleton.mpr hA) (by decide), List.any_cons, hnot]
  rfl

end Store

end Garnet
