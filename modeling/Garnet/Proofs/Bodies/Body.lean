import Garnet.Proofs.Bodies.Moves
import Garnet.Proofs.Bodies.Symbols
import Garnet.Proofs.Hierarchy.Walks
import Garnet.Proofs.Lookup.Tables

/-!
# Stores in the course of a body

While the body of a class runs, the store differs from what it was at the beginning by new objects
that are no classes, by the tables of the class, and by what is parked in the scope of the body.
-/

namespace Garnet

/-- A body of a class or module that has just been opened. -/
structure Body where
  store : Store
  target : Value
  scope : ScopeId
  self : store.self = target
  home : store.frame.home = scope
  scopeId : store.scopeId = scope
  scope_lt : scope.index < store.scopes.size
  kind : (Scopes.scope store.scopes scope).kind = .classBody
  visibility : (Scopes.scope store.scopes scope).visibility = .pub
  hasTable : store.HasTable (.instances target)
  hierarchy : store.Hierarchy
  acyclic : store.Acyclic

/-- An object that is no class, has no methods of its own and extends nothing. -/
structure Object.Bare (o : Object) : Prop where
  link : o.payload.link? = none
  own : o.own = {}
  extended : o.extended = []

namespace Body

variable (B : Body)

/-- What the body finds above its class. -/
def inherited : NameTable := B.store.inherited B.target

/-- The body has come to a store, with these tables and these parked methods. -/
structure At (u : Store) (d : Drafts) : Prop where
  links : Store.SameLinks B.store u
  size_le : B.store.objects.size ≤ u.objects.size
  classOf : u.classOf B.target = B.store.classOf B.target
  tables : ∀ {h}, h ≠ .instances B.target → h ≠ .own B.target → u.tableOf h = B.store.tableOf h
  instances : (u.tableOf (.instances B.target)).lookup = d.instances
  own : (u.tableOf (.own B.target)).lookup = d.own
  frames : u.frames = B.store.frames
  scopeStack : u.scopeStack = B.store.scopeStack
  symbols : u.SymbolsFit
  parked : ∃ p : Dict Pending,
    u.scopes = Scopes.modifyScope B.store.scopes B.scope (fun sc => { sc with pending := p }) ∧
    p.keys.Nodup ∧ (∀ x ∈ p.entries, x.2.method.fromSource = true) ∧
    ∀ n, (p.get? n).map Pending.entry = d.parked n

variable {B} {u t : Store} {d : Drafts} {name : String} {m : MethodDef} {v : Visibility}

namespace At

/-! ## Reading -/

theorem self_eq (h : B.At u d) : u.self = B.target := by
  rw [Store.self, Store.frame, h.frames]
  exact B.self

theorem home_eq (h : B.At u d) : u.frame.home = B.scope := by
  rw [Store.frame, h.frames]
  exact B.home

theorem scopeId_eq (h : B.At u d) : u.scopeId = B.scope := by
  rw [Store.scopeId, h.scopeStack]
  exact B.scopeId

theorem hasTable (h : B.At u d) : u.HasTable (.instances B.target) := by
  rw [Store.HasTable, h.links.link]
  exact B.hasTable

theorem hasOwnTable (h : B.At u d) : u.HasTable (.own B.target) :=
  Store.index_lt_of_link? h.hasTable

theorem scope_eq (h : B.At u d) :
    ∃ p : Dict Pending, Scopes.scope u.scopes B.scope =
        { Scopes.scope B.store.scopes B.scope with pending := p } ∧
      ∀ n, (p.get? n).map Pending.entry = d.parked n := by
  obtain ⟨p, hscopes, _, _, hp⟩ := h.parked
  refine ⟨p, ?_, hp⟩
  rw [hscopes, Scopes.scope_modifyScope, if_pos ⟨rfl, B.scope_lt⟩]

theorem kind_eq (h : B.At u d) : (Scopes.scope u.scopes B.scope).kind = .classBody := by
  obtain ⟨p, hscope, _⟩ := h.scope_eq
  rw [hscope]
  exact B.kind

theorem visibility_eq (h : B.At u d) : (Scopes.scope u.scopes B.scope).visibility = .pub := by
  obtain ⟨p, hscope, _⟩ := h.scope_eq
  rw [hscope]
  exact B.visibility

theorem pending?_map (h : B.At u d) (n : String) :
    (Scopes.pending? u.scopes B.scope n).map Pending.entry = d.parked n := by
  obtain ⟨p, hscope, hp⟩ := h.scope_eq
  rw [Scopes.pending?, hscope]
  exact hp n

theorem pending?_fromSource (h : B.At u d) {n : String} {p : Pending}
    (hp : Scopes.pending? u.scopes B.scope n = some p) : p.method.fromSource = true := by
  obtain ⟨q, hscopes, _, hsource, _⟩ := h.parked
  rw [Scopes.pending?, hscopes, Scopes.scope_modifyScope, if_pos ⟨rfl, B.scope_lt⟩] at hp
  exact hsource _ (Dict.mem_of_get? hp)

theorem pending?_of_ne (h : B.At u d) {i : ScopeId} (hi : i ≠ B.scope) (n : String) :
    Scopes.pending? u.scopes i n = Scopes.pending? B.store.scopes i n := by
  obtain ⟨p, hscopes, _⟩ := h.parked
  rw [Scopes.pending?, Scopes.pending?, hscopes, Scopes.scope_modifyScope, if_neg fun h => hi h.1]

/-- The instance methods of the class: those of its own table first. -/
theorem findInstanceMethod? (h : B.At u d) (n : String) :
    u.findInstanceMethod? B.target n = (d.instances n).or (B.inherited n) := by
  have hsteps := h.links.instanceSteps_size B.hierarchy B.acyclic h.size_le B.target
  have habove : u.inherited B.target n = B.inherited n := by
    rw [Store.inherited, hsteps, inherited, Store.inherited]
    congr 1
    funext step
    split
    · rfl
    · rename_i hne
      rw [h.tables (fun he => hne (Holder.instances.inj he)) Holder.own_ne_instances.symm]
  rw [Store.findInstanceMethod?_eq_or h.hasTable, h.instances, habove]

/-- What a name denotes on the class itself depends on its tables only. -/
theorem findMethod_target (h : B.At u d) {access : Access}
    (hinstances : d.instances name = (B.store.tableOf (.instances B.target)).lookup name)
    (hown : d.own name = (B.store.tableOf (.own B.target)).lookup name) :
    u.findMethod B.target name access = B.store.findMethod B.target name access := by
  refine Store.findMethod_congr
    (h.links.chain_of_size_le B.hierarchy B.acyclic h.size_le h.classOf) fun holder => ?_
  by_cases hi : holder = .instances B.target
  · rw [hi, h.instances, hinstances]
  · by_cases ho : holder = .own B.target
    · rw [ho, h.own, hown]
    · rw [h.tables hi ho]

/-! ## Changes -/

/-- Only the heap, the symbols, the stacks and the scopes matter. -/
theorem of_same (h : B.At u d) (hobjects : t.objects = u.objects) (hsymbols : t.SymbolsFit)
    (hframes : t.frames = u.frames) (hstack : t.scopeStack = u.scopeStack)
    (hscopes : t.scopes = u.scopes) : B.At t d := by
  have hobject (v : Value) : t.object v = u.object v := by rw [Store.object, hobjects]; rfl
  have htable {holder : Holder} := Store.tableOf_of_objects (h := holder) hobjects
  refine ⟨⟨fun v => ?_, fun v => ?_⟩, ?_, ?_, fun hi ho => ?_, ?_, ?_, ?_, ?_, hsymbols, ?_⟩
  · rw [Store.link?_of_objects hobjects, h.links.link]
  · rw [hobject, h.links.extended]
  · rw [hobjects]; exact h.size_le
  · rw [Store.classOf, hobject]; exact h.classOf
  · rw [htable, h.tables hi ho]
  · rw [htable, h.instances]
  · rw [htable, h.own]
  · rw [hframes, h.frames]
  · rw [hstack, h.scopeStack]
  · rw [hscopes]; exact h.parked

theorem withDepth (h : B.At u d) (depth : Nat) : B.At { u with depth := depth } d :=
  h.of_same rfl (h.symbols.of_same rfl rfl) rfl rfl rfl

/-- A new object that is no class. -/
theorem alloc (h : B.At u d) {o : Object} (ho : o.Bare) : B.At (u.alloc o).2 d := by
  have hlt : B.target.index < u.objects.size := h.hasOwnTable
  have htable (holder : Holder) : (u.alloc o).2.tableOf holder = u.tableOf holder := by
    cases holder with
    | own v => exact Store.keep_alloc (·.own) ho.own
    | instances v => rw [Store.tableOf, Store.tableOf, Store.module?_alloc_plain ho.link]
  refine ⟨⟨fun v => ?_, fun v => ?_⟩, ?_, ?_, fun hi ho => ?_, ?_, ?_, h.frames, h.scopeStack,
    h.symbols.alloc o, h.parked⟩
  · rw [Store.link?_alloc_plain ho.link, h.links.link]
  · exact (Store.keep_alloc (·.extended) ho.extended).trans (h.links.extended v)
  · exact Nat.le_trans h.size_le (Nat.le_of_lt (Store.size_alloc o))
  · rw [Store.classOf, Store.object_alloc_of_lt u o hlt]
    exact h.classOf
  · rw [htable, h.tables hi ho]
  · rw [htable, h.instances]
  · rw [htable, h.own]

theorem intern (h : B.At u d) (name : String) : B.At (u.intern name) d := by
  have halloc := h.alloc (o := { cls := CoreClass.symbol.value, payload := .symbol name })
    ⟨rfl, rfl, rfl⟩
  exact halloc.of_same rfl (h.symbols.intern name) rfl rfl rfl

/-- A change of one of the two tables of the class. -/
theorem modifyTable (h : B.At u d) {holder : Holder} {f : MethodTable → MethodTable}
    (hclass : holder = .instances B.target ∨ holder = .own B.target) (hholder : u.HasTable holder)
    {instances own : NameTable}
    (hi : ((u.modifyTable holder f).tableOf (.instances B.target)).lookup = instances)
    (ho : ((u.modifyTable holder f).tableOf (.own B.target)).lookup = own) :
    B.At (u.modifyTable holder f) ⟨⟨instances, own⟩, d.parked⟩ := by
  have hedited : Edited u (u.modifyTable holder f) := .modifyTable holder f
  have hscopes : (u.modifyTable holder f).scopes = u.scopes := by cases holder <;> rfl
  refine ⟨⟨fun v => ?_, fun v => ?_⟩, ?_, ?_, fun {k} hne hne' => ?_, hi, ho,
    (Level.of_edited hedited).frames.trans h.frames,
    (Level.of_edited hedited).scopeStack.trans h.scopeStack, h.symbols.of_edited hedited,
    hscopes ▸ h.parked⟩
  · rw [Store.sameLinks_modifyTable.link, h.links.link]
  · rw [Store.sameLinks_modifyTable.extended, h.links.extended]
  · rw [Store.size_modifyTable]; exact h.size_le
  · rw [Store.classOf_modifyTable, h.classOf]
  · have hk : k ≠ holder := by
      rcases hclass with rfl | rfl
      · exact hne
      · exact hne'
    rw [Store.tableOf_modifyTable hholder, if_neg hk, h.tables hne hne']

theorem modifyInstances (h : B.At u d) (f : MethodTable → MethodTable) {table : NameTable}
    (hf : (f (u.tableOf (.instances B.target))).lookup = table) :
    B.At (u.modifyTable (.instances B.target) f) { d with instances := table } := by
  refine h.modifyTable (.inl rfl) h.hasTable ?_ ?_
  · rw [Store.tableOf_modifyTable h.hasTable, if_pos rfl, hf]
  · rw [Store.tableOf_modifyTable h.hasTable, if_neg Holder.own_ne_instances, h.own]

theorem modifyOwn (h : B.At u d) (f : MethodTable → MethodTable) {table : NameTable}
    (hf : (f (u.tableOf (.own B.target))).lookup = table) :
    B.At (u.modifyTable (.own B.target) f) { d with own := table } := by
  refine h.modifyTable (.inr rfl) h.hasOwnTable ?_ ?_
  · rw [Store.tableOf_modifyTable h.hasOwnTable, if_neg Holder.own_ne_instances.symm, h.instances]
  · rw [Store.tableOf_modifyTable h.hasOwnTable, if_pos rfl, hf]

/-- A method of program text that is parked. -/
theorem park (h : B.At u d) (name : String) {p : Pending} (hp : p.method.fromSource = true) :
    B.At { u with scopes := Scopes.define u.scopes B.scope name p }
      { d with parked := Function.update d.parked name (some p.entry) } := by
  obtain ⟨q, hscopes, hnodup, hsource, hq⟩ := h.parked
  refine ⟨⟨h.links.link, h.links.extended⟩, h.size_le, h.classOf, h.tables, h.instances, h.own,
    h.frames, h.scopeStack, h.symbols.of_same rfl rfl, q.insert name p, ?_,
    Dict.keys_insert_nodup hnodup, ?_, fun n => ?_⟩
  · show Scopes.define u.scopes B.scope name p = _
    rw [Scopes.define, hscopes, Scopes.modifyScope_modifyScope]
    rfl
  · exact Dict.forall_put (P := fun p : Pending => p.method.fromSource = true) hp hsource
  · show _ = Function.update d.parked name (some p.entry) n
    rw [Dict.get?_insert]
    by_cases hn : n = name
    · rw [if_pos hn, hn, Function.update_self]
      rfl
    · rw [if_neg hn, Function.update_of_ne hn, hq]

end At

end Body

end Garnet
