import Garnet.Proofs.Lookup.Local

/-!
# Who notices a change of the object model

A method that is defined, renamed or hidden, a module that is mixed in, and a class or object that
is made change what lookups answer only on receivers whose lookup comes to the table in question. A
copy of a class and the class itself are never on the way of one lookup.
-/

namespace Garnet

open Relation

/-- A change of the object model, as the system makes it. -/
inductive Mutation where
  | defineInstance (c : Value) (name : String) (m : MethodDef)
  | aliasMethod (c : Value) (new old : String)
  | setVisibility (c : Value) (v : Visibility) (names : List String)
  | includeModule (c module : Value)
  | defineSingleton (o : Value) (name : String) (m : MethodDef)
  | extendObject (o module : Value)
  | subclass (parent : Value) (name : String)
  | copyClass (c : Value)
  | allocate (c : Value)

namespace Mutation

/-- What is run for a change, without the messages that follow an inclusion or an extension. -/
def act : Mutation → Call Unit
  | defineInstance c name m => Eval.defineInstanceMethod c name m
  | aliasMethod c new old => liftM (Eval.aliasIn c new old)
  | setVisibility c v names => liftM (Eval.setVisibility c v names)
  | includeModule c module =>
    liftM (Eval.model (fun s => (s.includeModule c module).map fun _ => ())
      (.includeModule c module))
  | defineSingleton o name m => discard (Eval.defineSingleton o name m)
  | extendObject o module =>
    liftM (Eval.model (fun s => (s.extendObject o module).map fun _ => ()) (.extendObject o module))
  | subclass parent name => liftM (discard (Eval.subclass parent name))
  | copyClass c => liftM (discard (Eval.copyClass c))
  | allocate c => liftM (discard (Eval.allocate c))

/-- The tables that a change touches, and for which names. -/
def Touches : Mutation → Holder → String → Prop
  | defineInstance c name _, h, n => h = .instances c ∧ n = name
  | aliasMethod c new _, h, n => h = .instances c ∧ n = new
  | setVisibility c _ names, h, n => h = .instances c ∧ n ∈ names
  | includeModule c _, h, _ => h = .instances c
  | defineSingleton o name _, h, n => h = .own o ∧ n = name
  | extendObject o _, h, _ => h = .own o
  | subclass .., _, _ | copyClass _, _, _ | allocate _, _, _ => False

/-- The store after a change. -/
def perform (μ : Mutation) (e : Engine) (s : Store) : Store := (μ.act.run e s).store

open Store Act.TouchesOnly

section

variable {touched : Holder → String → Prop}

theorem touchesOnly_newSymbol (name : String) : (Eval.newSymbol name).TouchesOnly touched := by
  refine .bind (.view _) fun found => ?_
  cases found with
  | some v => exact .pure v
  | none =>
    refine .change fun s => ?_
    simp only [Change.apply]
    split
    · exact .of_objects rfl
    · exact Local.trans (.alloc _) (.of_objects rfl)

theorem touchesOnly_undefinedMethod {α : Type} (c : Value) (name : String) :
    (Eval.undefinedMethod c name : Op α).TouchesOnly touched :=
  .bind (.view _) fun _ => .fail _ _ _

theorem touchesOnly_aliasIn {c : Value} {new : String} (hname : touched (.instances c) new)
    (old : String) : (Eval.aliasIn c new old).TouchesOnly touched := by
  refine .bind (.view _) fun here => .bind (.view _) fun pending => ?_
  cases pending with
  | some id =>
    refine .change fun s => ?_
    simp only [Change.apply]
    split <;> exact .of_objects rfl
  | none =>
    refine .bind (.view _) fun found => ?_
    split
    · refine .change fun s => ?_
      simp only [Change.apply]
      split
      · exact Local.insert hname
      · exact .of_objects rfl
    · exact touchesOnly_undefinedMethod c old

theorem touchesOnly_setVisibilityOf {c : Value} {name : String}
    (hname : touched (.instances c) name) (body : Option ScopeId) (v : Visibility) :
    (Eval.setVisibilityOf c body v name).TouchesOnly touched := by
  refine .bind (.view _) fun pending => ?_
  cases pending with
  | some id => exact .change fun s => .of_objects rfl
  | none =>
    refine .bind (.view _) fun m => ?_
    cases m with
    | none => exact .pure ()
    | some m =>
      dsimp only
      split
      · exact .change fun s => .setVisibility hname
      · refine .bind (.view _) fun found => ?_
        split
        · refine .change fun s => ?_
          simp only [Change.apply]
          split
          · exact .insert hname
          · exact .of_objects rfl
        · exact touchesOnly_undefinedMethod c name

theorem touchesOnly_setVisibility {c : Value} {names : List String}
    (hnames : ∀ name ∈ names, touched (.instances c) name) (v : Visibility) :
    (Eval.setVisibility c v names).TouchesOnly touched := by
  unfold Eval.setVisibility
  split
  · refine .bind (.view _) fun self => ?_
    split
    · exact .bind (.view _) fun home => .change fun s => .of_objects rfl
    · exact .pure ()
  · refine .bind (.view _) fun body => .forM names fun name hname => ?_
    exact touchesOnly_setVisibilityOf (hnames name hname) body v

theorem touchesOnly_allocate (c : Value) : (Eval.allocate c).TouchesOnly touched := by
  refine .bind (.view _) fun m => ?_
  cases m with
  | none => exact .bind (.view _) fun _ => .fail _ _ _
  | some m =>
    dsimp only
    split
    · exact .fail _ _ _
    · split
      · refine .change fun s => ?_
        simp only [Change.apply]
        split
        · exact .alloc _
        · exact .of_objects rfl
      · exact .fail _ _ _

end

/-- A change touches no other table, whether it is made or refused. -/
theorem touchesOnly (μ : Mutation) : μ.act.TouchesOnly μ.Touches := by
  cases μ with
  | defineInstance c name m =>
    have hname : (defineInstance c name m).Touches (.instances c) name := ⟨rfl, rfl⟩
    refine .bind (.lift (.bind (.view _) fun self => ?_) _) fun v => .change fun s => .insert hname
    split
    · exact .view _
    · exact .pure _
  | aliasMethod c new old => exact (touchesOnly_aliasIn ⟨rfl, rfl⟩ old).lift _
  | setVisibility c v names =>
    exact (touchesOnly_setVisibility (fun _ hname => ⟨rfl, hname⟩) v).lift _
  | includeModule c module =>
    refine .lift (.model fun s => ?_) _
    simp only [Change.apply]
    split
    · exact .includeModule (fun _ => rfl) ‹_›
    · exact .of_objects rfl
  | defineSingleton o name m =>
    have hname : (defineSingleton o name m).Touches (.own o) name := ⟨rfl, rfl⟩
    refine .bind (.bind (.change fun s => .insert hname) fun _ => ?_) fun _ => .pure ()
    exact .lift (touchesOnly_newSymbol name) _
  | extendObject o module =>
    refine .lift (.model fun s => ?_) _
    simp only [Change.apply]
    split
    · exact .extendObject (fun _ => rfl) ‹_›
    · exact .of_objects rfl
  | subclass parent name =>
    refine .lift (.bind (.model fun s => ?_) fun _ => .pure ()) _
    simp only [Change.apply]
    split
    · obtain ⟨m, -, -, h⟩ := subclass_eq_ok ‹_›
      cases h
      exact .alloc _
    · exact .of_objects rfl
  | copyClass c =>
    refine .lift (.bind (.model fun s => ?_) fun _ => .pure ()) _
    simp only [Change.apply]
    split
    · exact .copyClass ‹_›
    · exact .of_objects rfl
  | allocate c => exact .lift (.bind (touchesOnly_allocate c) fun _ => .pure ()) _

end Mutation

namespace Store

variable {s t u : Store} {c d r v b x y : Value} {holder : Holder}

/-! ## Copies of classes -/

/-- A relation that leads from what was there only to what was there, as another one does. -/
theorem reflTransGen_below {R R' : Value → Value → Prop} {n : Nat}
    (hR : ∀ x y, x.index < n → R' x y → R x y ∧ y.index < n) (hx : x.index < n)
    (h : ReflTransGen R' x y) : ReflTransGen R x y ∧ y.index < n := by
  induction h with
  | refl => exact ⟨.refl, hx⟩
  | tail _ hyz ih =>
    obtain ⟨h, hy⟩ := ih
    obtain ⟨hyz, hz⟩ := hR _ _ hy hyz
    exact ⟨h.tail hyz, hz⟩

/-- A copy comes after its original, and has the same base. -/
structure Copied (s : Store) (c d : Value) : Prop where
  isClass : s.isClass c
  copy_isClass : s.isClass d
  older : c.index < d.index
  base : s.base? d = s.base? c

theorem Copied.mono (h : s.Copied c d) (hg : s.Grown t) : t.Copied c d := by
  have base {v : Value} (hv : s.isClass v) : t.base? v = s.base? v := by
    obtain ⟨l, hl, -⟩ := isClass_iff.mp hv
    obtain ⟨l', hl', -, hbase, -⟩ := hg.link hl
    rw [base?_eq_link?, base?_eq_link?, hl, hl', Option.bind_some, Option.bind_some, hbase]
  exact ⟨hg.isClass h.isClass, hg.isClass h.copy_isClass, h.older,
    (base h.copy_isClass).trans (h.base.trans (base h.isClass).symm)⟩

theorem Hierarchy.index_le_of_bases (hs : s.Hierarchy)
    (h : ReflTransGen (fun c b => s.base? c = some b) c d) : d.index ≤ c.index := by
  induction h with
  | refl => exact Nat.le_refl _
  | tail _ hb ih => exact Nat.le_trans (Nat.le_of_lt (hs.base_lt hb)) ih

/-- Nothing is both below a class and below its copy. -/
theorem Copied.not_below_both (h : s.Copied c d) (hs : s.Hierarchy)
    (hc : ReflTransGen (fun c b => s.base? c = some b) r c)
    (hd : ReflTransGen (fun c b => s.base? c = some b) r d) : False := by
  have hunique : Relator.RightUnique fun c b => s.base? c = some b :=
    fun _ _ _ hb hb' => Option.some.inj (hb.symm.trans hb')
  have holder := h.older
  rcases ReflTransGen.total_of_right_unique hunique hc hd with hcd | hdc
  · have hle := hs.index_le_of_bases hcd
    omega
  · rcases ReflTransGen.cases_head hdc with rfl | ⟨b, hb, hbc⟩
    · omega
    · -- the base of the copy is the base of the original
      have hlt := hs.base_lt (h.base ▸ hb)
      have hle := hs.index_le_of_bases hbc
      omega

/-- A lookup comes to the instance methods of a class only from the classes of the receiver. -/
theorem Grounded.looks_instances_class (hs : s.Grounded) (hc : s.isClass c)
    (h : s.Looks r (.instances c)) :
    ReflTransGen (fun c b => s.base? c = some b) (s.classOf r) c := by
  have hnot : ¬s.isModule c := not_isModule_of_isClass hc
  have noinclusion {m : Value} (hm : ReflTransGen s.Includes m c) : m = c := by
    rcases ReflTransGen.cases_tail hm with rfl | ⟨x, _, hx⟩
    · rfl
    · exact absurd (hs.hierarchy.included_isModule hx) hnot
  rcases looks_instances.mp h with ⟨v, m, _, hm, hmc⟩ | ⟨b, hb, hbc⟩
  · cases noinclusion hmc
    exact absurd ((hs.object v).extended c hm) hnot
  · cases noinclusion hbc
    exact hb

/-- No lookup comes both to a class and to its copy. -/
theorem Copied.not_looks_both (h : s.Copied c d) (hs : s.Grounded) (r : Value) :
    ¬(s.Looks r (.own c) ∧ s.Looks r (.own d)) ∧
      ¬(s.Looks r (.instances c) ∧ s.Looks r (.instances d)) := by
  have bases {v w : Value} (hv : s.Looks v (.own w)) :
      ReflTransGen (fun c b => s.base? c = some b) v w :=
    ReflTransGen.mono (fun _ _ => base?_of_ownBase?) _ _ (looks_own.mp hv)
  refine ⟨fun ⟨hc, hd⟩ => ?_, fun ⟨hc, hd⟩ => ?_⟩
  · exact h.not_below_both hs.hierarchy (bases hc) (bases hd)
  · exact h.not_below_both hs.hierarchy (hs.looks_instances_class h.isClass hc)
      (hs.looks_instances_class h.copy_isClass hd)

theorem exists_copyClass (hc : (s.link? c).isSome) : ∃ d t, s.copyClass c = .ok (d, t) := by
  obtain ⟨m, hm⟩ := Option.isSome_iff_exists.mp (module?_isSome.trans hc)
  rw [copyClass, hm]
  exact ⟨_, _, rfl⟩

section Copy

variable (hs : s.Grounded) (h : s.copyClass c = .ok (d, t))

include h

theorem link?_copyClass (v : Value) : t.link? v = if v = d then s.link? c else s.link? v := by
  obtain ⟨m, hm, halloc⟩ := copyClass_eq_ok h
  cases halloc
  have hc : s.link? c = some m.link := by
    rw [← module?_map_link, hm]
    rfl
  rw [hc]
  exact link?_alloc _

theorem object_copyClass :
    d = ⟨s.objects.size⟩ ∧ t.classOf d = s.classOf c ∧ (t.object d).extended = [] ∧
      ∀ v : Value, v.index < s.objects.size → t.object v = s.object v := by
  obtain ⟨m, hm, halloc⟩ := copyClass_eq_ok h
  generalize ho : ({ cls := s.classOf c, payload := .module _ } : Object) = o at halloc
  cases halloc
  refine ⟨rfl, ?_, ?_, fun v hv => object_alloc_of_lt s _ hv⟩
  · exact (congrArg Object.cls (object_alloc s o)).trans (ho ▸ rfl)
  · exact (congrArg Object.extended (object_alloc s o)).trans (ho ▸ rfl)

theorem copied_of_copyClass (hc : s.isClass c) : t.Copied c d := by
  obtain ⟨hd, -⟩ := object_copyClass h
  have hlt : c.index < s.objects.size := index_lt_of_link? (link?_isSome_of_isClass hc)
  have hne : c ≠ d := fun he => Nat.ne_of_lt hlt (congrArg Value.index (he.trans hd))
  have hold : t.link? c = s.link? c := by rw [link?_copyClass h, if_neg hne]
  have hnew : t.link? d = s.link? c := by rw [link?_copyClass h, if_pos rfl]
  refine ⟨?_, ?_, ?_, ?_⟩
  · rw [isClass_eq_link?, hold, ← isClass_eq_link?]
    exact hc
  · rw [isClass_eq_link?, hnew, ← isClass_eq_link?]
    exact hc
  · rw [hd]
    exact hlt
  · rw [base?_eq_link?, base?_eq_link?, hnew, hold]

/-- A copy has the instance methods of the original. -/
theorem lookup_copyClass {name : String} (hnone : ∀ holder, (s.tableOf holder).lookup name = none)
    (holder : Holder) : (t.tableOf holder).lookup name = none := by
  obtain ⟨m, hm, halloc⟩ := copyClass_eq_ok h
  generalize ho : ({ cls := s.classOf c, payload := .module _ } : Object) = o at halloc
  cases halloc
  by_cases hv : holder.value = ⟨s.objects.size⟩
  · have hobject := object_alloc s o
    rw [← hv] at hobject
    rw [tableOf_eq_table]
    refine (congrArg (fun o : Object => (o.table holder).lookup name) hobject).trans ?_
    have hc := hnone (.instances c)
    rw [tableOf, hm] at hc
    rw [← ho]
    cases holder with
    | own => exact MethodTable.lookup_empty name
    | instances => exact hc
  · rw [tableOf_eq_table]
    refine (congrArg (fun o : Object => (o.table holder).lookup name)
      (object_alloc_of_ne s o hv)).trans ?_
    rw [← tableOf_eq_table]
    exact hnone holder

include hs

/-- A copy is on the way of no lookup on what was there before. -/
theorem not_looks_copy (hr : r.index < s.objects.size) (hlooks : t.Looks r holder) :
    holder.value ≠ d := by
  have hlocal : Local (fun _ _ => False) s t := .copyClass h
  have halike (holder : Holder) (hlooks : s.Looks r holder) : Alike s t "" holder :=
    hlocal.alike holder "" (hs.index_lt_of_looks hr hlooks) id
  have hold : s.Looks r holder := (looks_congr (hlocal.classOf r hr) halike).mp hlooks
  have hlt := hs.index_lt_of_looks hr hold
  rw [(object_copyClass h).1]
  exact fun he => Nat.ne_of_lt hlt (congrArg Value.index he)

/-- A lookup on a copy comes to its own table, and otherwise only to tables that a lookup on the
original comes to, but not to the own table of the original. -/
theorem looks_copy (hlooks : t.Looks d holder) :
    holder = .own d ∨ holder ≠ .own c ∧ s.Looks c holder := by
  obtain ⟨hd, hclass, hextended, hobject⟩ := object_copyClass h
  have hlink {v : Value} (hv : v.index < s.objects.size) : t.link? v = s.link? v := by
    rw [link?, link?, payload, payload, hobject v hv]
  have hup {v x y : Value} (hx : t.link? x = s.link? v) (hxy : t.ownBase? x = some y) :
      s.ownBase? v = some y ∧ y.index < s.objects.size := by
    rw [ownBase?, isClass_eq_link?, base?_eq_link?, hx, ← isClass_eq_link?, ← base?_eq_link?,
      ← ownBase?] at hxy
    have hclass := hs.hierarchy.base_isClass (base?_of_ownBase? hxy)
    exact ⟨hxy, index_lt_of_link? (link?_isSome_of_isClass hclass)⟩
  -- above the copy the way is that of the original
  have hclimb {x : Value} (hx : ReflTransGen (fun v b => t.ownBase? v = some b) d x) :
      x = d ∨ x.index < s.objects.size ∧ x ≠ c ∧
        ReflTransGen (fun v b => s.ownBase? v = some b) c x := by
    rcases ReflTransGen.cases_head hx with rfl | ⟨b, hb, hbx⟩
    · exact .inl rfl
    · have hnew : t.link? d = s.link? c := by rw [link?_copyClass h, if_pos rfl]
      obtain ⟨hcb, hblt⟩ := hup hnew hb
      obtain ⟨hbx, hxlt⟩ := reflTransGen_below (fun x y hx hxy => hup (hlink hx) hxy) hblt hbx
      refine .inr ⟨hxlt, ?_, .head hcb hbx⟩
      rintro rfl
      have hbases := ReflTransGen.mono (fun _ _ => base?_of_ownBase?) _ _ hbx
      have hle := hs.hierarchy.index_le_of_bases hbases
      have hlt := hs.hierarchy.base_lt (base?_of_ownBase? hcb)
      omega
  have hincludes {x y : Value} (hx : x.index < s.objects.size)
      (hxy : ReflTransGen t.Includes x y) : ReflTransGen s.Includes x y := by
    refine (reflTransGen_below (fun x y hx hxy => ?_) hx hxy).1
    have hxy : s.Includes x y := by
      rw [Includes, included_eq_link?, ← hlink hx, ← included_eq_link?]
      exact hxy
    have hy := link?_isSome_of_isModule (hs.hierarchy.included_isModule hxy)
    exact ⟨hxy, index_lt_of_link? hy⟩
  cases holder with
  | own x =>
    rcases hclimb (looks_own.mp hlooks) with rfl | ⟨-, hne, hx⟩
    · exact .inl rfl
    · exact .inr ⟨fun he => hne (Holder.own.inj he), looks_own.mpr hx⟩
  | instances x =>
    refine .inr ⟨Holder.own_ne_instances.symm, looks_instances.mpr ?_⟩
    rcases looks_instances.mp hlooks with ⟨v, m, hv, hm, hmx⟩ | ⟨b, hb, hbx⟩
    · rcases hclimb hv with rfl | ⟨hlt, -, hv⟩
      · rw [hextended] at hm
        cases hm
      · rw [hobject v hlt] at hm
        have hmlt := index_lt_of_link? (link?_isSome_of_isModule ((hs.object v).extended m hm))
        exact .inl ⟨v, m, hv, hm, hincludes hmlt hmx⟩
    · have hbase (x y : Value) (hx : x.index < s.objects.size) (hxy : t.base? x = some y) :
          s.base? x = some y ∧ y.index < s.objects.size := by
        rw [base?_eq_link?, hlink hx, ← base?_eq_link?] at hxy
        exact ⟨hxy, index_lt_of_link? (link?_isSome_of_isClass (hs.hierarchy.base_isClass hxy))⟩
      rw [hclass] at hb
      obtain ⟨hb, hlt⟩ := reflTransGen_below hbase (index_lt_of_link? (hs.object c).cls) hb
      exact .inr ⟨b, hb, hincludes hlt hbx⟩

end Copy

/-- A class is above itself, and so is every class that its base leads to. -/
theorem Hierarchy.looks_own_iff (hs : s.Hierarchy) :
    s.Looks r (.own c) ↔
      r = c ∨ s.isClass r ∧ TransGen (fun c b => s.base? c = some b) r c := by
  have hown {x y : Value} (hxy : s.base? x = some y) : s.ownBase? x = some y := by
    obtain ⟨l, hl, hb⟩ := base?_eq_some.mp hxy
    have hclass : s.isClass x := isClass_iff.mpr ⟨l, hl, Bool.eq_false_iff.mpr fun hm => by
      cases hb.symm.trans ((hs.fits hl).base_of_isModule hm)⟩
    rw [ownBase?, if_pos hclass, hxy]
  rw [looks_own, reflTransGen_iff_eq_or_transGen, eq_comm]
  refine or_congr Iff.rfl ⟨fun h => ⟨?_, TransGen.mono (fun _ _ => base?_of_ownBase?) _ _ h⟩,
    fun h => TransGen.mono (fun _ _ => hown) _ _ h.2⟩
  obtain ⟨b, hb, _⟩ := TransGen.head'_iff.mp h
  unfold ownBase? at hb
  split at hb
  · assumption
  · cases hb

end Store

theorem Eval.copyClass_run_eq_ok {e : Engine} {s t : Store} {c d : Value} :
    (Eval.copyClass c).run e s = .ok d t ↔ s.copyClass c = .ok (d, t) := by
  simp only [Eval.copyClass, Eval.model, Eval.view, bind, Act.run]
  cases hc : s.copyClass c with
  | error err =>
    refine iff_of_false (fun h => ?_) (fun h => ?_) <;> cases h
  | ok made =>
    simp only [Except.map, Act.run, Change.apply, hc, Ending.ok.injEq, Except.ok.injEq,
      Prod.ext_iff]

namespace Mutation

open Store

/-- At every moment of a session a change of the object model is noticed only where a lookup of the
name comes to a table that is touched. For instance methods these are the receivers whose lookup
comes to the instance methods of that class or module; for methods and extensions of one object they
are the object and, when it is a class, the classes below it. A copy of a class or module is on the
way of no lookup on an object that is there. A lookup on the copy comes to its own table and
otherwise goes where one on the original goes, past the own table of the original. No lookup ever
comes to a class and to its copy. -/
theorem sameAnswers_perform {config : Config} {input : List String} {s : Store}
    (h : ReflTransGen Leads (.start config input) s) :
    (∀ (μ : Mutation) (e : Engine) (r : Value) (name : String), r.index < s.objects.size →
      (∀ holder, s.Looks r holder → ¬μ.Touches holder name) →
      SameAnswers s (μ.perform e s) r name) ∧
    (∀ r o, s.Looks r (.own o) ↔
      r = o ∨ s.isClass r ∧ TransGen (fun c b => s.base? c = some b) r o) ∧
    (∀ e c d t, (Eval.copyClass c).run e s = .ok d t →
      (∀ r : Value, r.index < s.objects.size → ¬t.Looks r (.own d) ∧ ¬t.Looks r (.instances d)) ∧
      (∀ holder, t.Looks d holder → holder = .own d ∨ holder ≠ .own c ∧ s.Looks c holder) ∧
      (s.isClass c → ∀ u, ReflTransGen Leads t u → ∀ r,
        ¬(u.Looks r (.own c) ∧ u.Looks r (.own d)) ∧
          ¬(u.Looks r (.instances c) ∧ u.Looks r (.instances d)))) := by
  have hs : s.Grounded := .of_leads h
  refine ⟨fun μ e r name hr hfar => (μ.touchesOnly e s).sameAnswers hs hr hfar,
    fun r o => hs.hierarchy.looks_own_iff, fun e c d t hrun => ?_⟩
  have hcopy : s.copyClass c = .ok (d, t) := Eval.copyClass_run_eq_ok.mp hrun
  refine ⟨fun r hr => ?_, fun holder => looks_copy hs hcopy, fun hc u hu r => ?_⟩
  · exact ⟨fun hr' => not_looks_copy hs hcopy hr hr' rfl,
      fun hr' => not_looks_copy hs hcopy hr hr' rfl⟩
  · have ht : t.Grounded := by
      have hallowed : (Change.copyClass c).allowed .library = true := rfl
      have hchange : (Change.copyClass c).apply s = t := by rw [Change.apply, hcopy]
      exact hchange ▸ Grounded.lasting.change (.copyClass c) s hallowed hs
    have hgrown : t.Grown u := (Develops.lasting.moments hu ht.hierarchy).2
    have hcopied := (copied_of_copyClass hcopy hc).mono hgrown
    exact hcopied.not_looks_both (Grounded.lasting.moments hu ht) r

/-! ## At the start of a session -/

/-- A method of a name that the library does not have. -/
def speak : MethodDef := ⟨"speak", .answer "hello", false⟩

theorem speak_notMem_names : ∀ e ∈ Library.all, "speak" ∉ e.names := by
  have hlist : ∀ e ∈ Library.all.toList, "speak" ∉ e.names := by decide +kernel
  exact fun e he => hlist e (Array.mem_toList_iff.mpr he)

theorem start_size (config : Config) (input : List String) :
    38 ≤ (Store.start config input).objects.size :=
  (SameClasses.start config input).size_le

/-- The outermost self is an instance of a class, and does not notice a method of that class
itself. -/
theorem sameAnswers_perform_start :
    ReflTransGen Leads (Store.start {} []) (Store.start {} []) ∧
      (Store.start {} []).classOf .main = CoreClass.object.value ∧
      SameAnswers (Store.start {} [])
        ((defineSingleton CoreClass.object.value "speak" speak).perform (.ofFuel 0) (.start {} []))
        .main "speak" := by
  have hmain : Value.main.index < (Store.start {} []).objects.size :=
    Nat.lt_of_lt_of_le (by decide) (start_size {} [])
  obtain ⟨hfar, hown, -⟩ := sameAnswers_perform (s := .start {} []) .refl
  refine ⟨.refl, (SameClasses.start {} []).classOf .main (by decide), ?_⟩
  refine hfar _ _ .main "speak" hmain ?_
  rintro holder hlooks ⟨rfl, -⟩
  rcases (hown _ _).mp hlooks with he | ⟨hclass, -⟩
  · cases he
  · rw [isClass_eq_link?, start_link?] at hclass
    cases hclass

/-! A lookup finds a method where a table on its way has one that it may see. -/

theorem exists_findMethod {s : Store} {r : Value} {step : Step} {name : String} {m : MethodDef}
    {v : Visibility} (hstep : step ∈ s.chain r) (hplain : step.extended = false)
    (hentry : (s.tableOf step.holder).lookup name = some (m, v)) :
    ∃ found, s.findMethod r name .all = .ok found := by
  have hshown : s.shown name .all step = some ⟨m, step.holder, v⟩ := by
    refine shown_eq_some.mpr ⟨hentry, rfl, ?_⟩
    rw [hplain]
    cases v <;> rfl
  cases hfind : (s.chain r).findSome? (s.shown name .all) with
  | some found => exact ⟨found, findMethod_eq_ok.mpr hfind⟩
  | none => cases (List.findSome?_eq_none_iff.mp hfind step hstep).symm.trans hshown

theorem own_mem_chain {s : Store} {r : Value} (h : 0 < s.objects.size) :
    ⟨.own r, false⟩ ∈ s.chain r := by
  obtain ⟨n, hn⟩ := Nat.exists_eq_add_one.mpr h
  rw [chain, hn, ownSteps]
  exact List.mem_append_left _ List.mem_cons_self

theorem findMethod_of_tables {s : Store} {r : Value} {name : String}
    (h : ∀ holder, (s.tableOf holder).lookup name = none) :
    s.findMethod r name .all = .error .undefined := by
  refine findMethod_eq_undefined.mpr (List.findSome?_eq_none_iff.mpr fun step _ => ?_)
  rw [visibilityAt, h]
  rfl

theorem findMethod_defineSingleton {e : Engine} {s : Store} {o : Value} {name : String}
    {m : MethodDef} (ho : s.HasTable (.own o)) :
    ∃ found, ((defineSingleton o name m).perform e s).findMethod o name .all = .ok found := by
  let made := s.modifyTable (.own o) (·.insert name m .pub)
  have hrun : (defineSingleton o name m).perform e s =
      ((Eval.newSymbol name).run e made).store := by
    simp only [perform, act, discard, Functor.discard, Functor.mapConst, Function.comp,
      Eval.defineSingleton, Eval.update, bind, liftM, monadLift, MonadLift.monadLift, Act.run,
      Change.apply]
    cases (Eval.newSymbol name).run e made <;> rfl
  have hlocal : Local (fun _ _ => False) made ((Eval.newSymbol name).run e made).store :=
    touchesOnly_newSymbol name e made
  have hentry : (made.tableOf (.own o)).lookup name = some (m, .pub) := by
    rw [tableOf_modifyTable ho, if_pos rfl, MethodTable.lookup_insert, if_pos rfl]
  have hmade : o.index < made.objects.size :=
    Nat.lt_of_lt_of_le ho (Nat.le_of_eq size_modifyTable.symm)
  rw [hrun]
  have halike := hlocal.alike (.own o) name hmade id
  refine exists_findMethod (own_mem_chain ?_) rfl (halike.entry.trans hentry)
  exact Nat.lt_of_lt_of_le (Nat.zero_lt_of_lt hmade) hlocal.size_le

theorem findMethod_defineInstance {e : Engine} {s : Store} {c r : Value} {name : String}
    {m : MethodDef} (hc : s.HasTable (.instances c)) (hr : ⟨.instances c, false⟩ ∈ s.chain r) :
    ∃ found, ((defineInstance c name m).perform e s).findMethod r name .all = .ok found := by
  have hvisibility : ∃ v, (Eval.visibilityFor c).run e s = .ok v s := by
    simp only [Eval.visibilityFor, Eval.self, Eval.view, bind, Act.run]
    split <;> exact ⟨_, rfl⟩
  obtain ⟨v, hv⟩ := hvisibility
  have hrun : (defineInstance c name m).perform e s =
      s.modifyTable (.instances c) (·.insert name m v) := by
    simp only [perform, act, Eval.defineInstanceMethod, bind, liftM, monadLift,
      MonadLift.monadLift, Act.run, hv, Eval.update, Change.apply, Ending.store]
  have hentry : ((s.modifyTable (.instances c) (·.insert name m v)).tableOf (.instances c)).lookup
      name = some (m, v) := by
    rw [tableOf_modifyTable hc, if_pos rfl, MethodTable.lookup_insert, if_pos rfl]
  have hchain : ⟨.instances c, false⟩ ∈
      (s.modifyTable (.instances c) (·.insert name m v)).chain r := by
    rw [chain_modifyTable]
    exact hr
  rw [hrun]
  exact exists_findMethod hchain rfl hentry

/-- A lookup comes to the instance methods of the classes of the receiver. -/
theorem instances_mem_chain {s : Store} {r c : Value} {n : Nat}
    (hn : n < s.objects.size) (hc : c ∈ climb s.base? n (s.classOf r)) :
    ⟨.instances c, false⟩ ∈ s.chain r := by
  obtain ⟨k, hk⟩ := Nat.exists_eq_add_one.mpr (Nat.zero_lt_of_lt hn)
  rw [chain, instanceSteps_eq_climb]
  refine List.mem_append_right _ (List.mem_flatMap.mpr ⟨c, climb_subset _ (Nat.le_of_lt hn) hc, ?_⟩)
  rw [hk, moduleSteps]
  exact List.mem_cons_self

/-- The class of classes, which is an instance of itself, notices a method of its own; and a copy of
the class that all classes are instances of notices a later method of the original. -/
theorem findMethod_perform_start :
    let s := Store.start {} []
    let c := CoreClass.classClass.value
    let o := CoreClass.object.value
    (s.classOf c = c ∧ s.findMethod c "speak" .all = .error .undefined ∧
      ∃ found, ((defineSingleton c "speak" speak).perform (.ofFuel 0) s).findMethod c "speak" .all =
        .ok found) ∧
    ∃ d t, (Eval.copyClass o).run (.ofFuel 0) s = .ok d t ∧
      t.findMethod d "speak" .all = .error .undefined ∧
      ∃ found, ((defineInstance o "speak" speak).perform (.ofFuel 0) t).findMethod d "speak" .all =
        .ok found := by
  intro s c o
  have hnone : ∀ h, (s.tableOf h).lookup "speak" = none :=
    start_lookup_eq_none speak_notMem_names {} []
  have hsize : 38 ≤ s.objects.size := start_size {} []
  refine ⟨⟨(SameClasses.start {} []).classOf c (by decide), findMethod_of_tables hnone, ?_⟩, ?_⟩
  · exact findMethod_defineSingleton (Nat.lt_of_lt_of_le (by decide) hsize)
  · have hlinked : (s.link? o).isSome := Option.isSome_of_eq_some (start_link?_value {} [] .object)
    obtain ⟨d, t, hcopy⟩ := exists_copyClass hlinked
    obtain ⟨hd, hclass, -⟩ := object_copyClass hcopy
    have hlink (k : CoreClass) : t.link? k.value = some k.link := by
      have hne : k.value ≠ d := fun he => by
        have hlt : k.value.index < 38 := by cases k <;> decide
        rw [he, hd] at hlt
        exact Nat.not_le_of_lt hlt hsize
      rw [link?_copyClass hcopy, if_neg hne]
      exact start_link?_value {} [] k
    have hbase (k : CoreClass) : t.base? k.value = k.base.map CoreClass.value := by
      rw [base?_eq_link?, hlink]
      rfl
    have hclimb : o ∈ climb t.base? 3 (t.classOf d) := by
      have hmeta : t.classOf d = c :=
        hclass.trans ((SameClasses.start {} []).classOf o (by decide))
      have hup : climb t.base? 3 c = [c, CoreClass.moduleClass.value, o] := by
        simp only [climb, c, hbase, CoreClass.base, Option.map_some]
        rfl
      rw [hmeta, hup]
      exact List.mem_of_getElem? (i := 2) rfl
    have hlocal : Local (fun _ _ => False) s t := .copyClass hcopy
    have ht : 3 < t.objects.size :=
      Nat.lt_of_lt_of_le (by decide) (Nat.le_trans hsize hlocal.size_le)
    refine ⟨d, t, Eval.copyClass_run_eq_ok.mpr hcopy,
      findMethod_of_tables (lookup_copyClass hcopy hnone), ?_⟩
    exact findMethod_defineInstance (Option.isSome_of_eq_some (hlink .object))
      (instances_mem_chain ht hclimb)

end Mutation

end Garnet
