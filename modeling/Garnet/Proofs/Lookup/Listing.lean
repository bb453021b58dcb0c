import Garnet.Proofs.Bodies.Operations
import Garnet.Proofs.Hierarchy.Order
import Garnet.Proofs.Lookup.Tables

/-!
# The names that a lookup answers

The names of the methods of a receiver are listed table by table, those of one visibility after
those of another. A name has one visibility in each table, so that a table lists a name for a caller
exactly when it shows the caller a method of that name.
-/

namespace Garnet

namespace MethodTable

variable {t : MethodTable} {name : String} {v w : Visibility}

theorem mem_names : name ∈ t.names v ↔ ∃ m, t.lookup name = some (m, v) := by
  rw [names, Partitions.mem_names, Option.isSome_iff_exists]
  simp only [lookup, t.apart.lookup_eq_some_iff]

theorem eq_of_mem_names (hv : name ∈ t.names v) (hw : name ∈ t.names w) : v = w := by
  obtain ⟨m, hm⟩ := mem_names.mp hv
  obtain ⟨m', hm'⟩ := mem_names.mp hw
  cases hm.symm.trans hm'
  rfl

end MethodTable

namespace Store

variable {s : Store} {recv : Value} {name : String} {access : Access} {step : Step}

/-- A table lists the names of the methods that it shows. -/
theorem mem_visibleNames :
    name ∈ visibleNames (s.tableOf step.holder) access step.extended ↔
      ∃ r, s.Shows name access step r := by
  have hshows : (∃ r, s.Shows name access step r) ↔
      ∃ v, name ∈ (s.tableOf step.holder).names v ∧
        if step.extended then v = .pub else access.allows v = true := by
    simp only [MethodTable.mem_names]
    constructor
    · rintro ⟨r, hentry, -, hv⟩
      exact ⟨r.visibility, ⟨r.method, hentry⟩, hv⟩
    · rintro ⟨v, ⟨m, hm⟩, hv⟩
      exact ⟨⟨m, step.holder, v⟩, hm, rfl, hv⟩
  simp only [hshows, visibleNames, List.mem_append, List.mem_ite_nil_right, ← visible_iff]
  constructor
  · rintro ((h | ⟨hprot, h⟩) | ⟨hpriv, h⟩)
    · exact ⟨.pub, h, by simp [Access.allows]⟩
    · exact ⟨.prot, h, by simpa [Access.allows] using hprot⟩
    · exact ⟨.priv, h, by simpa [Access.allows] using hpriv⟩
  · rintro ⟨v, h, hv⟩
    cases v with
    | pub => exact .inl (.inl h)
    | prot => exact .inl (.inr ⟨by simpa [Access.allows] using hv, h⟩)
    | priv => exact .inr ⟨by simpa [Access.allows] using hv, h⟩

theorem methodNames_eq :
    s.methodNames recv access =
      (((s.chain recv).flatMap fun step =>
        visibleNames (s.tableOf step.holder) access step.extended).foldl addNew #[]).toList := by
  have fold (steps : List Step) (seen : Array String) :
      steps.foldlM (fun seen step => (.ok ((visibleNames (s.tableOf step.holder) access
        step.extended).foldl addNew seen) : Except Empty _)) seen =
      .ok ((steps.flatMap fun step =>
        visibleNames (s.tableOf step.holder) access step.extended).foldl addNew seen) := by
    induction steps generalizing seen with
    | nil => rfl
    | cons step steps ih =>
      rw [List.flatMap_cons, List.foldl_append]
      exact ih _
  rw [methodNames, walk_eq_foldlM, fold]

/-- The names that are listed for a caller are those for which a lookup by the caller finds a
method, each once. A table has a name under one visibility only. -/
theorem mem_methodNames_iff (s : Store) (recv : Value) (access : Access) :
    (s.methodNames recv access).Nodup ∧
    (∀ name, name ∈ s.methodNames recv access ↔ ∃ r, s.findMethod recv name access = .ok r) ∧
    ∀ holder name v w, name ∈ (s.tableOf holder).names v → name ∈ (s.tableOf holder).names w →
      v = w := by
  refine ⟨?_, fun name => ?_, fun holder name v w => MethodTable.eq_of_mem_names⟩
  · rw [methodNames_eq]
    exact nodup_foldl_addNew _ _ List.nodup_nil
  · simp only [methodNames_eq, mem_foldl_addNew, List.not_mem_nil, false_or, List.mem_flatMap,
      mem_visibleNames, ← shown_eq_some, findMethod_eq_ok]
    rw [← Option.isSome_iff_exists, List.findSome?_isSome_iff]
    simp only [Option.isSome_iff_exists]

end Store

end Garnet

/-!
## Instance methods listed and asked for

A class lists the names of its instance methods table by table, each with the visibility that it has
there. Whether a method is defined is a question about the nearest table that has one. The two
differ where the nearest method hides what a table further up would show.
-/

namespace Garnet

namespace Store

variable {s : Store} {c : Value} {name : String} {vs : List Visibility}

/-- The visibility of an instance method in the table of a class or module itself. -/
def instanceVisibility (s : Store) (name : String) (c : Value) : Option Visibility :=
  ((s.tableOf (.instances c)).lookup name).map (·.2)

/-- The nearest method of the name has none of these visibilities, but one further up has. -/
def Masked (s : Store) (c : Value) (name : String) (vs : List Visibility) : Prop :=
  ∃ before a after v, s.ancestors c = before ++ a :: after ∧
    (∀ b ∈ before, s.instanceVisibility name b = none) ∧
    s.instanceVisibility name a = some v ∧ v ∉ vs ∧
    ∃ d ∈ after, ∃ w ∈ vs, s.instanceVisibility name d = some w

theorem map_findInstanceMethod? :
    (s.findInstanceMethod? c name).map (·.2) =
      (s.ancestors c).findSome? (s.instanceVisibility name) := by
  rw [findInstanceMethod?, List.map_findSome?]
  rfl

theorem mem_instanceMethodNames :
    name ∈ s.instanceMethodNames c true vs ↔
      ∃ a ∈ s.ancestors c, ∃ v ∈ vs, s.instanceVisibility name a = some v := by
  have hnames (a : Value) (v : Visibility) :
      name ∈ (s.tableOf (.instances a)).names v ↔ s.instanceVisibility name a = some v := by
    rw [MethodTable.mem_names, instanceVisibility, Option.map_eq_some_iff]
    constructor
    · rintro ⟨m, hm⟩
      exact ⟨(m, v), hm, rfl⟩
    · rintro ⟨⟨m, w⟩, hm, rfl⟩
      exact ⟨m, hm⟩
  simp only [instanceMethodNames, if_true, mem_foldl_addNew, List.not_mem_nil, false_or,
    List.mem_flatMap, hnames]

/-- A name whose nearest method has one of the visibilities is listed. One that is listed all the
same is masked. -/
theorem listed_iff_or_masked :
    (∃ a ∈ s.ancestors c, ∃ v ∈ vs, s.instanceVisibility name a = some v) ↔
      (∃ v ∈ vs, (s.ancestors c).findSome? (s.instanceVisibility name) = some v) ∨
        s.Masked c name vs := by
  constructor
  · rintro ⟨a, ha, v, hv, hav⟩
    obtain ⟨w, hw⟩ : ∃ w, (s.ancestors c).findSome? (s.instanceVisibility name) = some w :=
      Option.isSome_iff_exists.mp
        (List.findSome?_isSome_iff.mpr ⟨a, ha, Option.isSome_of_eq_some hav⟩)
    by_cases hwv : w ∈ vs
    · exact .inl ⟨w, hwv, hw⟩
    · obtain ⟨before, b, after, hsplit, hb, hbefore⟩ := List.findSome?_eq_some_iff.mp hw
      refine .inr ⟨before, b, after, w, hsplit, hbefore, hb, hwv, a, ?_, v, hv, hav⟩
      rw [hsplit, List.mem_append, List.mem_cons] at ha
      rcases ha with ha | rfl | ha
      · rw [hbefore a ha] at hav
        cases hav
      · rw [hb] at hav
        cases hav
        exact absurd hv hwv
      · exact ha
  · rintro (⟨v, hv, hfirst⟩ | ⟨before, a, after, -, hsplit, -, -, -, d, hd, w, hw, hdw⟩)
    · obtain ⟨a, ha, hav⟩ := List.exists_of_findSome?_eq_some hfirst
      exact ⟨a, ha, v, hv, hav⟩
    · exact ⟨d, hsplit ▸ List.mem_append_right _ (List.mem_cons_of_mem _ hd), w, hw, hdw⟩

theorem not_masked_of_nearest {v : Visibility} (hv : v ∈ vs)
    (h : (s.ancestors c).findSome? (s.instanceVisibility name) = some v) :
    ¬s.Masked c name vs := by
  rintro ⟨before, a, after, w, hsplit, hbefore, ha, hw, -⟩
  rw [hsplit, List.findSome?_append, List.findSome?_eq_none_iff.mpr hbefore, Option.none_or,
    List.findSome?_cons, ha] at h
  cases h
  exact hw hv

end Store

namespace Eval

variable {e : Engine} {s : Store}

/-- A list of symbols with these names, whichever of them are known already. -/
theorem newSymbols_ok (hs : s.SymbolsFit) (names : List String) :
    ∃ list t vs, (newSymbols names).run e s = .ok list t ∧ t.payload list = .array vs.toArray ∧
      t.Names vs names := by
  have hsymbols {u : Store} (hu : u.SymbolsFit) :
      ∃ vs t, (names.mapM newSymbol).run e u = .ok vs t ∧ Edited u t ∧ t.Names vs names := by
    induction names generalizing u with
    | nil => exact ⟨[], u, rfl, .refl, .nil⟩
    | cons name names ih =>
      obtain ⟨v, u', hrun, -, he, hv⟩ := newSymbol_ok (e := e) hu name
      obtain ⟨vs, t, hrest, he', hvs⟩ := ih (hu.of_edited he)
      refine ⟨v :: vs, t, ?_, he.trans he', .cons (he'.symbol hv) hvs⟩
      rw [Act.run_mapM_cons]
      simp only [Act.run, hrun, hrest]
  obtain ⟨vs, t, hrun, -, ht⟩ := hsymbols hs
  let o : Object := { cls := CoreClass.array.value, payload := .array vs.toArray }
  refine ⟨⟨t.objects.size⟩, (t.alloc o).2, vs, ?_, congrArg Object.payload (Store.object_alloc t o),
    ht.mono (.alloc .refl o id)⟩
  simp only [newSymbols, bind, Act.run, hrun]
  rfl

end Eval

namespace Library.Modules

variable {e : Engine} {s : Store} {c x : Value} {name : String} {vs : List Visibility}

theorem methodDefined_run (hx : s.payload x = .symbol name ∨ s.payload x = .text name) :
    (methodDefined vs c [x] none).run e s =
      .ok (.ofBool (((s.ancestors c).findSome? (s.instanceVisibility name)).any vs.contains))
        s := by
  have hone : (Eval.oneOrTwoArgs [x]).run e s = .ok (x, none) s := rfl
  simp only [methodDefined, visibilityOf, Eval.view, Eval.newBool, bind, pure, Act.run, hone,
    Eval.nameOf_run hx, Store.map_findInstanceMethod?]
  cases (s.ancestors c).findSome? (s.instanceVisibility name) <;> rfl

theorem methodNames_run :
    (methodNames vs c [] none).run e s =
      (Eval.newSymbols (s.instanceMethodNames c true vs)).run e s :=
  rfl

/-- A class is asked for the names of its instance methods with some visibilities, and whether it
has one of a name with such a visibility: those of `instance_methods` and `method_defined?` are
public and protected, those of `private_instance_methods` and `private_method_defined?` private. Any
table decides the former and the nearest method the latter. They agree exactly if the name is not
masked. -/
theorem methodNames_agrees_iff (hs : s.SymbolsFit)
    (hx : s.payload x = .symbol name ∨ s.payload x = .text name) (vs : List Visibility)
    (c : Value) :
    ∃ defined list t items,
      (methodDefined vs c [x] none).run e s = .ok (.ofBool defined) s ∧
      (methodNames vs c [] none).run e s = .ok list t ∧
      t.payload list = .array items ∧
      (defined = true ↔
        ∃ v ∈ vs, (s.ancestors c).findSome? (s.instanceVisibility name) = some v) ∧
      ((∃ y ∈ items, t.payload y = .symbol name) ↔
        ∃ a ∈ s.ancestors c, ∃ v ∈ vs, s.instanceVisibility name a = some v) ∧
      (((∃ y ∈ items, t.payload y = .symbol name) ↔ defined = true) ↔ ¬s.Masked c name vs) := by
  obtain ⟨list, t, ys, hrun, hlist, hys⟩ :=
    Eval.newSymbols_ok (e := e) hs (s.instanceMethodNames c true vs)
  have hdefined : ((s.ancestors c).findSome? (s.instanceVisibility name)).any vs.contains = true ↔
      ∃ v ∈ vs, (s.ancestors c).findSome? (s.instanceVisibility name) = some v := by
    simp only [Option.any_eq_true, List.contains_iff_mem, and_comm]
  have hlisted : (∃ y ∈ ys.toArray, t.payload y = .symbol name) ↔
      ∃ a ∈ s.ancestors c, ∃ v ∈ vs, s.instanceVisibility name a = some v := by
    rw [← Store.mem_instanceMethodNames, ← hys.mem_iff]
    simp only [List.mem_toArray]
  refine ⟨_, list, t, ys.toArray, methodDefined_run hx, methodNames_run.trans hrun, hlist, hdefined,
    hlisted, ?_⟩
  rw [hlisted, hdefined, Store.listed_iff_or_masked]
  constructor
  · intro h hmasked
    obtain ⟨v, hv, hnearest⟩ := h.mp (.inr hmasked)
    exact Store.not_masked_of_nearest hv hnearest hmasked
  · exact fun h => or_iff_left h

/-- A class with a public `m`, one below it that hides it behind a private one, and the name. -/
def hiddenMethod : Store :=
  let answering := fun v text => ({} : MethodTable).insert "m" ⟨"m", .answer text, true⟩ v
  let above : ModuleInfo :=
    { name := "B", isModule := false, base := none, alloc := .object,
      methods := answering .pub "b" }
  let below : ModuleInfo :=
    { name := "C", isModule := false, base := some ⟨0⟩, alloc := .object,
      methods := answering .priv "c" }
  { config := {}
    objects :=
      #[{ cls := ⟨0⟩, payload := .module above }, { cls := ⟨0⟩, payload := .module below },
        { cls := ⟨0⟩, payload := .text "m" }]
    scopes := #[{ kind := .top, parent := none }]
    frames := [.outermost]
    scopeStack := [⟨0⟩] }

/-- The class below lists the name and does not have the method. -/
theorem methodNames_agrees_iff_hidden :
    hiddenMethod.SymbolsFit ∧ hiddenMethod.payload ⟨2⟩ = .text "m" ∧
      ∃ list t items,
        (methodDefined [.pub, .prot] ⟨1⟩ [⟨2⟩] none).run (.ofFuel 0) hiddenMethod =
          .ok (.ofBool false) hiddenMethod ∧
        (methodNames [.pub, .prot] ⟨1⟩ [] none).run (.ofFuel 0) hiddenMethod = .ok list t ∧
        t.payload list = .array items ∧ ∃ y ∈ items, t.payload y = .symbol "m" := by
  have hs : hiddenMethod.SymbolsFit := fun name v hv => absurd hv (by simp [hiddenMethod])
  have hx : hiddenMethod.payload ⟨2⟩ = .text "m" := rfl
  have hchain : hiddenMethod.ancestors ⟨1⟩ = [⟨1⟩, ⟨0⟩] := by decide +kernel
  have hbelow : hiddenMethod.instanceVisibility "m" ⟨1⟩ = some .priv := by decide
  have habove : hiddenMethod.instanceVisibility "m" ⟨0⟩ = some .pub := by decide
  obtain ⟨defined, list, t, items, hdefined, hnames, hlist, hnearest, hlisted, -⟩ :=
    methodNames_agrees_iff (e := .ofFuel 0) hs (.inr hx) [.pub, .prot] ⟨1⟩
  refine ⟨hs, hx, list, t, items, ?_, hnames, hlist, hlisted.mpr ?_⟩
  · have hfalse : defined = false := by
      rw [← Bool.not_eq_true, hnearest, hchain, List.findSome?_cons, hbelow]
      decide
    rw [hdefined, hfalse]
  · exact ⟨⟨0⟩, by rw [hchain]; decide, .pub, by decide, habove⟩

end Library.Modules

end Garnet
