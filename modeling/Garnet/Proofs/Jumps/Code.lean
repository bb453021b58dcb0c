import Garnet.Proofs.Dictionary
import Garnet.Proofs.Edited
import Garnet.Proofs.Heap
import Garnet.Proofs.Jumps.Placed
import Garnet.Proofs.Lookup.Partitions

/-!
# The code a store holds

In the methods and blocks of a store every `next` is in its place: in the body of a method it is
inside of a loop or block of that body, in the body of a block anywhere. The globals that they
assign are among those that may be assigned. So it is in the method that a message denotes.

A change keeps the code of a store placed when the code that it brings in is; a plain change brings
in none, and neither does the library. Neither does the library assign a global.
-/

namespace Garnet

variable {A : String → Prop}

def Callable.Placed (A : String → Prop) : Callable → Prop
  | .compiled params body _ => PlacedAll A false params.parts ∧ body.Placed A false
  | _ => True

def ProcBody.Placed (A : String → Prop) : ProcBody → Prop
  | .closure c => PlacedAll A true c.params.parts ∧ c.body.Placed A true
  | .native (.forStep target body _ _) => target.Placed A true ∧ body.Placed A true
  | .native _ => True

def MethodTable.Placed (A : String → Prop) (t : MethodTable) : Prop :=
  ∀ name m v, t.lookup name = some (m, v) → m.body.Placed A

def Payload.Placed (A : String → Prop) : Payload → Prop
  | .module m => m.methods.Placed A
  | .proc d => d.body.Placed A
  | _ => True

structure Object.Placed (A : String → Prop) (o : Object) : Prop where
  own : o.own.Placed A
  payload : o.payload.Placed A

def Scope.Placed (A : String → Prop) (sc : Scope) : Prop :=
  ∀ x ∈ sc.pending.entries, x.2.method.body.Placed A

structure Store.Placed (A : String → Prop) (s : Store) : Prop where
  objects : ∀ v, (s.object v).Placed A
  scopes : ∀ id, (Scopes.scope s.scopes id).Placed A

/-! ## Tables -/

namespace MethodTable

variable {t : MethodTable} {name : String} {m : MethodDef} {v : Visibility}

theorem Placed.empty : MethodTable.Placed A {} := by
  intro name m v h
  rw [lookup_empty] at h
  cases h

theorem Placed.insert (h : t.Placed A) (hm : m.body.Placed A) : (t.insert name m v).Placed A := by
  intro name' m' v' h'
  rw [lookup_insert] at h'
  split at h'
  · cases h'
    exact hm
  · exact h name' m' v' h'

theorem Placed.erase (h : t.Placed A) : (t.erase name).Placed A := by
  intro name' m' v' h'
  rw [lookup_erase] at h'
  split at h'
  · cases h'
  · exact h name' m' v' h'

theorem Placed.setVisibility (h : t.Placed A) : (t.setVisibility name v).Placed A := by
  intro name' m' v' h'
  rw [lookup_setVisibility] at h'
  split at h'
  · obtain ⟨e, he, heq⟩ := Option.map_eq_some_iff.mp h'
    cases heq
    exact h name e.1 e.2 he
  · exact h name' m' v' h'

end MethodTable

/-! ## Objects and scopes -/

theorem Object.Placed.default : (default : Object).Placed A := ⟨.empty, trivial⟩

theorem Scope.Placed.default : (default : Scope).Placed A := fun _ h => absurd h List.not_mem_nil

namespace Store.Placed

variable {s : Store} {v : Value} {m : MethodDef}

theorem alloc (hs : s.Placed A) {o : Object} (ho : o.Placed A) : (s.alloc o).2.Placed A := by
  refine ⟨fun v => ?_, hs.scopes⟩
  rcases Nat.lt_trichotomy v.index s.objects.size with h | h | h
  · rw [object_alloc_of_lt s o h]
    exact hs.objects v
  · obtain rfl : v = ⟨s.objects.size⟩ := congrArg Value.mk h
    rw [object_alloc]
    exact ho
  · rw [object_of_size_le (by rw [Store.alloc, Array.size_push]; exact h)]
    exact .default

theorem modifyObject (hs : s.Placed A) {f : Object → Object}
    (hf : ∀ o, o.Placed A → (f o).Placed A) : (s.modifyObject v f).Placed A := by
  refine ⟨fun w => ?_, hs.scopes⟩
  rw [object_modifyObject]
  split
  · exact hf _ (hs.objects v)
  · exact hs.objects w

theorem withScopes (hs : s.Placed A) {ss : Scopes} (hss : ∀ id, (ss.scope id).Placed A) :
    Store.Placed A { s with scopes := ss } :=
  ⟨hs.objects, hss⟩

/-- The stacks and the other parts of a store hold no code. -/
theorem around (hs : s.Placed A) {t : Store} (ho : t.objects = s.objects)
    (hss : t.scopes = s.scopes) : t.Placed A := by
  refine ⟨fun v => ?_, hss ▸ hs.scopes⟩
  rw [object, ho]
  exact hs.objects v

/-! ### Methods that are found -/

theorem proc? (hs : s.Placed A) {d : ProcData} (h : s.proc? v = some d) : d.body.Placed A := by
  have hp : (s.payload v).Placed A := (hs.objects v).payload
  rw [proc?_eq_some.mp h] at hp
  exact hp

theorem module? (hs : s.Placed A) {m : ModuleInfo} (h : s.module? v = some m) :
    m.methods.Placed A := by
  have hp : (s.payload v).Placed A := (hs.objects v).payload
  rw [module?_eq_some.mp h] at hp
  exact hp

theorem tableOf (hs : s.Placed A) (holder : Holder) : (s.tableOf holder).Placed A := by
  cases holder with
  | own v => exact (hs.objects v).own
  | instances v =>
    simp only [Store.tableOf]
    cases h : s.module? v with
    | none => exact .empty
    | some m => exact hs.module? h

theorem findInstanceMethod? (hs : s.Placed A) {c : Value} {name : String} {v : Visibility}
    (h : s.findInstanceMethod? c name = some (m, v)) : m.body.Placed A := by
  obtain ⟨c', _, hc⟩ := List.exists_of_findSome?_eq_some h
  exact hs.tableOf (.instances c') name m v hc

theorem pending? (hs : s.Placed A) {id : ScopeId} {name : String} {p : Pending}
    (h : Scopes.pending? s.scopes id name = some p) : p.method.body.Placed A := by
  exact hs.scopes id _ (Dict.mem_of_get? h)

theorem findScopeMethod? (hs : s.Placed A) {id : ScopeId} {name : String}
    (h : Scopes.findMethod? s.scopes id name = some m) : m.body.Placed A := by
  unfold Scopes.findMethod? at h
  generalize s.scopes.size + 1 = n at h
  induction n generalizing id with
  | zero => cases h
  | succ n ih =>
    simp only [Scopes.findMethodOf?] at h
    split at h
    · cases h
      exact hs.pending? ‹_›
    · cases hp : (Scopes.scope s.scopes id).parent with
      | none => rw [hp] at h; cases h
      | some parent => rw [hp] at h; exact ih h

/-- The method that a step of a lookup gives comes from a table. -/
theorem probe (hs : s.Placed A) {name : String} {access : Access} {hidden : Option Visibility}
    {step : Step} {r : Resolved} (h : s.probe name access hidden step = .error r) :
    r.method.body.Placed A := by
  unfold Store.probe at h
  split at h
  · split at h
    · cases h
      exact hs.tableOf _ _ _ _ ‹_›
    · cases h
  · cases h

end Store.Placed

namespace Store

variable {s : Store} {σ ρ : Type} {P : ρ → Prop} {visit : σ → Step → Except ρ σ}

/-! ### What a walk through the tables gives -/

theorem bind_error {α β : Type} {x : Except ρ α} {f : α → Except ρ β} {r : ρ}
    (h : (x >>= f) = .error r) : x = .error r ∨ ∃ a, x = .ok a ∧ f a = .error r := by
  cases x with
  | error r' =>
    cases h
    exact .inl rfl
  | ok a => exact .inr ⟨a, rfl, h⟩

theorem foldlM_error {β : Type} {f : σ → β → Except ρ σ}
    (hf : ∀ st b r, f st b = .error r → P r) {bs : List β} {st : σ} {r : ρ}
    (h : bs.foldlM f st = .error r) : P r := by
  induction bs generalizing st with
  | nil => cases h
  | cons b bs ih =>
    rcases bind_error h with h | ⟨st', _, h⟩
    · exact hf _ _ _ h
    · exact ih h

theorem walkModule_error (hv : ∀ st step r, visit st step = .error r → P r) {extended : Bool}
    {n : Nat} {m : Value} {st : σ} {r : ρ}
    (h : s.walkModule visit extended n m st = .error r) : P r := by
  induction n generalizing m st r with
  | zero => cases h
  | succ n ih =>
    rcases bind_error h with h | ⟨st', _, h⟩
    · exact hv _ _ _ h
    · exact foldlM_error (fun _ _ _ h => ih h) h

theorem walkInstances_error (hv : ∀ st step r, visit st step = .error r → P r) {n : Nat}
    {c : Value} {st : σ} {r : ρ} (h : s.walkInstances visit n c st = .error r) : P r := by
  induction n generalizing c st with
  | zero => cases h
  | succ n ih =>
    rcases bind_error h with h | ⟨st', _, h⟩
    · exact walkModule_error hv h
    · split at h
      · exact ih h
      · cases h

theorem walkOwn_error (hv : ∀ st step r, visit st step = .error r → P r) {n : Nat} {v : Value}
    {st : σ} {r : ρ} (h : s.walkOwn visit n v st = .error r) : P r := by
  induction n generalizing v st with
  | zero => cases h
  | succ n ih =>
    rcases bind_error h with h | ⟨st', _, h⟩
    · exact hv _ _ _ h
    · rcases bind_error h with h | ⟨st'', _, h⟩
      · exact foldlM_error (fun _ _ _ h => walkModule_error hv h) h
      · split at h
        · exact ih h
        · cases h

theorem walk_error (hv : ∀ st step r, visit st step = .error r → P r) {recv : Value} {st : σ}
    {r : ρ} (h : s.walk visit recv st = .error r) : P r := by
  rcases bind_error h with h | ⟨st', _, h⟩
  · exact walkOwn_error hv h
  · exact walkInstances_error hv h

theorem Placed.findMethod (hs : s.Placed A) {recv : Value} {name : String} {access : Access}
    {r : Resolved} (h : s.findMethod recv name access = .ok r) : r.method.body.Placed A := by
  unfold Store.findMethod at h
  split at h
  · cases h
    exact walk_error (fun _ _ _ h => hs.probe h) ‹_›
  · cases h
  · cases h

theorem Placed.findSuper? (hs : s.Placed A) {recv : Value} {name : String} {holder : Holder}
    {r : Resolved} (h : s.findSuper? recv name holder = some r) : r.method.body.Placed A := by
  unfold Store.findSuper? at h
  dsimp only at h
  split at h
  · cases h
    refine walk_error (P := fun r : Resolved => r.method.body.Placed A) (fun st step r h => ?_) ‹_›
    split at h
    · cases h
    · cases hp : s.probe name .all none step with
      | error r' =>
        rw [hp] at h
        cases h
        exact hs.probe hp
      | ok _ => rw [hp] at h; cases h
  · cases h

end Store

/-! ## Changes -/

theorem Payload.placed_of_isPlain {p : Payload} (h : p.isPlain) : p.Placed A := by
  cases p with
  | module m => cases h
  | proc d =>
    obtain ⟨body, lambda⟩ := d
    cases body with
    | closure c => cases h
    | native b =>
      cases b with
      | forStep => cases h
      | _ => trivial
  | _ => trivial

namespace Scopes

variable {ss : Scopes} {id : ScopeId} {m : MethodDef}

theorem modifyScope_placed (hss : ∀ id, (ss.scope id).Placed A) {f : Scope → Scope}
    (hf : ∀ sc, sc.Placed A → (f sc).Placed A) (i : ScopeId) :
    ((ss.modifyScope id f).scope i).Placed A := by
  unfold Scopes.modifyScope Scopes.scope
  rw [Array.getD_eq_getD_getElem?, Array.getElem?_modify]
  have h := hss i
  unfold Scopes.scope at h
  rw [Array.getD_eq_getD_getElem?] at h
  split
  · cases hi : ss[i.index]? with
    | none => exact .default
    | some sc =>
      rw [hi] at h
      exact hf sc h
  · exact h

theorem push_placed (hss : ∀ id, (ss.scope id).Placed A) (kind : ScopeKind)
    (parent : Option ScopeId) (i : ScopeId) :
    (Scopes.scope (ss.push kind parent).2 i).Placed A := by
  have h := hss i
  unfold Scopes.scope Scopes.push at *
  rw [Array.getD_eq_getD_getElem?] at h ⊢
  rw [Array.getElem?_push]
  split
  · exact fun _ h => absurd h List.not_mem_nil
  · exact h

theorem define_placed (hss : ∀ id, (ss.scope id).Placed A) {name : String} {p : Pending}
    (hp : p.method.body.Placed A) (i : ScopeId) : ((ss.define id name p).scope i).Placed A := by
  unfold Scopes.define
  refine modifyScope_placed hss (fun sc hsc => ?_) i
  exact Dict.forall_put (P := fun p : Pending => p.method.body.Placed A) hp hsc

end Scopes

namespace Store.Placed

variable {s : Store} {m : MethodDef} {name : String} {v : Visibility}

theorem modifyModule (hs : s.Placed A) {c : Value} {f : ModuleInfo → ModuleInfo}
    (hf : ∀ m, m.methods.Placed A → (f m).methods.Placed A) : (s.modifyModule c f).Placed A := by
  refine hs.modifyObject fun o ho => ?_
  split
  · rename_i m hm
    have hp := ho.payload
    rw [hm] at hp
    exact ⟨ho.own, hf m hp⟩
  · exact ho

theorem modifyTable (hs : s.Placed A) {holder : Holder} {f : MethodTable → MethodTable}
    (hf : ∀ t, t.Placed A → (f t).Placed A) : (s.modifyTable holder f).Placed A := by
  cases holder with
  | own c => exact hs.modifyObject fun o ho => ⟨hf _ ho.own, ho.payload⟩
  | instances c => exact hs.modifyModule fun m hm => hf _ hm

theorem promoteAll (hs : s.Placed A) {holder : Holder} {methods : List (String × Pending)}
    (hm : ∀ x ∈ methods, x.2.method.body.Placed A) : (s.promoteAll holder methods).Placed A := by
  refine Store.foldl_induction methods (fun t x hx ht => ?_) hs
  dsimp only
  split
  · exact ht
  · exact ht.modifyTable fun _ h => h.insert (hm x hx)

theorem newException (hs : s.Placed A) (cls : Value) (message : String) :
    (s.newException cls message).2.Placed A := by
  have htext := hs.alloc (o := { cls := CoreClass.string.value, payload := .text message })
    ⟨.empty, trivial⟩
  exact htext.alloc ⟨.empty, trivial⟩

end Store.Placed

/-- The code that a change brings into the store is placed, and the global that it assigns is one of
`A`. -/
def Change.Placed (A : String → Prop) : Change → Prop
  | .alloc _ payload _ => payload.Placed A
  | .allocBlock b _ => PlacedAll A true b.params.parts ∧ b.body.Placed A true
  | .allocStep target body => target.Placed A true ∧ body.Placed A true
  | .define _ _ m _ | .definePending _ _ m _ => m.body.Placed A
  | .setGlobal name _ => A name
  | _ => True

theorem Change.placed_of_allowed {c : Change} (h : c.allowed .library = true) : c.Placed A := by
  cases c with
  | alloc cls payload ivars => exact Payload.placed_of_isPlain (isPlain_of_allowed h)
  | allocBlock | allocStep | setGlobal => cases h
  | define _ _ m | definePending _ _ m =>
    obtain ⟨name, body, fromSource⟩ := m
    cases body with
    | compiled => cases h
    | _ => trivial
  | _ => trivial

theorem Change.Placed.apply {c : Change} {s : Store} (hc : c.Placed A) (hs : s.Placed A) :
    (c.apply s).Placed A := by
  cases c with
  | alloc cls payload ivars => exact hs.alloc ⟨.empty, hc⟩
  | allocInteger =>
    simp only [Change.apply]
    split
    · exact hs
    · exact hs.alloc ⟨.empty, trivial⟩
  | allocSymbol name =>
    simp only [Change.apply]
    split
    · exact hs
    · have h := hs.alloc (o := { cls := CoreClass.symbol.value, payload := .symbol name })
        ⟨.empty, trivial⟩
      exact h.around rfl rfl
  | instantiate =>
    simp only [Change.apply]
    split
    · obtain ⟨p, hp, rfl, -⟩ := Store.blankInstance?_eq_some ‹_›
      exact hs.alloc ⟨.empty, Payload.placed_of_isPlain (Payload.isPlain_of_isNew hp)⟩
    · exact hs
  | copyObject =>
    simp only [Change.apply]
    split
    · obtain ⟨ivars, hp, rfl⟩ := Store.copiedObject?_eq_some ‹_›
      exact hs.alloc ⟨.empty, Payload.placed_of_isPlain hp⟩
    · exact hs
  | allocBlock b lambda => exact hs.alloc ⟨.empty, hc⟩
  | allocStep target body => exact hs.alloc ⟨.empty, hc⟩
  | allocLambda p =>
    simp only [Change.apply]
    split
    · have hd := hs.proc? ‹_›
      exact hs.alloc ⟨.empty, hd⟩
    · exact hs
  | setIvar => exact hs.modifyObject fun o ho => ⟨ho.own, ho.payload⟩
  | modifyItems | editHash | setText =>
    refine hs.modifyObject fun o ho => ?_
    split
    · exact ⟨ho.own, trivial⟩
    · exact ho
  | subclass parent name =>
    simp only [Change.apply]
    split
    · rename_i h
      obtain ⟨m, -, -, h⟩ := Store.subclass_eq_ok h
      cases h
      exact hs.alloc ⟨.empty, .empty⟩
    · exact hs
  | copyClass c =>
    simp only [Change.apply]
    split
    · rename_i h
      obtain ⟨m, hm, h⟩ := Store.copyClass_eq_ok h
      cases h
      have hm := hs.module? hm
      exact hs.alloc ⟨.empty, hm⟩
    · exact hs
  | newModule => exact hs.alloc ⟨.empty, .empty⟩
  | includeModule target module =>
    simp only [Change.apply]
    split
    · rename_i h
      obtain ⟨m, -, -, ⟨-, rfl⟩ | rfl⟩ := Store.includeModule_eq_ok h
      · exact hs
      · exact hs.modifyModule fun _ hm => hm
    · exact hs
  | extendObject v module =>
    simp only [Change.apply]
    split
    · rename_i h
      obtain ⟨-, rfl | rfl⟩ := Store.extendObject_eq_ok h
      · exact hs
      · exact hs.modifyObject fun _ ho => ⟨ho.own, ho.payload⟩
    · exact hs
  | setCvar | setConst | nameModule => exact hs.modifyModule fun _ hm => hm
  | define holder name m v => exact hs.modifyTable fun _ ht => ht.insert hc
  | aliasMethod module new old =>
    simp only [Change.apply]
    split
    · have hm := hs.findInstanceMethod? ‹_›
      exact hs.modifyModule fun _ ht => MethodTable.Placed.insert ht hm
    · exact hs
  | adopt holder source name v =>
    simp only [Change.apply]
    split
    · have hm := hs.findInstanceMethod? ‹_›
      exact hs.modifyTable fun _ ht => ht.insert hm
    · exact hs
  | setVisibility => exact hs.modifyTable fun _ ht => ht.setVisibility
  | eraseMethod => exact hs.modifyTable fun _ ht => ht.erase
  | definePending => exact hs.withScopes (Scopes.define_placed hs.scopes hc)
  | aliasPending =>
    simp only [Change.apply]
    split
    · have hm := hs.pending? ‹_›
      exact hs.withScopes (Scopes.define_placed hs.scopes hm)
    · exact hs
  | aliasVisible =>
    simp only [Change.apply]
    split
    · have hm := hs.findScopeMethod? ‹_›
      exact hs.withScopes (Scopes.define_placed hs.scopes hm)
    · exact hs
  | setPendingVisibility scope name v =>
    refine hs.withScopes ?_
    unfold Scopes.setPendingVisibility
    split
    · have hm := hs.pending? ‹_›
      exact Scopes.define_placed hs.scopes hm
    · exact hs.scopes
  | setDefaultVisibility =>
    exact hs.withScopes (Scopes.modifyScope_placed hs.scopes fun _ h => h)
  | promote target singleton scope =>
    have hscopes : Store.Placed A { s with scopes := (Scopes.takeMethods s.scopes scope).2 } :=
      hs.withScopes (Scopes.modifyScope_placed hs.scopes fun _ _ _ h => absurd h List.not_mem_nil)
    exact hscopes.promoteAll (hs.scopes scope)
  | newScope kind parent => exact hs.withScopes (Scopes.push_placed hs.scopes kind parent)
  | setLocal => exact hs.withScopes (Scopes.modifyScope_placed hs.scopes fun _ h => h)
  | declare => exact hs.withScopes (Scopes.modifyScope_placed hs.scopes fun _ h => h)
  | setGlobal | recordMatch | newActivation | newStop | newCell | setCell | write | readLine =>
    exact hs.around rfl rfl

/-! ## The store at the start -/

namespace Store.Placed

variable {s : Store}

theorem of_forall (ho : ∀ o ∈ s.objects, o.Placed A) (hsc : ∀ sc ∈ s.scopes, sc.Placed A) :
    s.Placed A := by
  refine ⟨fun v => ?_, fun id => ?_⟩
  · unfold Store.object
    rw [Array.getD_eq_getD_getElem?]
    cases h : s.objects[v.index]? with
    | none => exact .default
    | some o => exact ho o (Array.mem_of_getElem? h)
  · unfold Scopes.scope
    rw [Array.getD_eq_getD_getElem?]
    cases h : s.scopes[id.index]? with
    | none => exact .default
    | some sc => exact hsc sc (Array.mem_of_getElem? h)

theorem defineConst (hs : s.Placed A) (c : CoreClass) (name : String) (v : Value) :
    (s.defineConst c name v).Placed A :=
  hs.modifyModule fun _ hm => hm

theorem base : Store.base.Placed A := by
  have hfixed : ∀ o ∈ Store.fixedObjects, o.Placed A := by
    refine Store.forall_mem_fixedObjects (fun _ => ⟨.empty, .empty⟩) fun o ho => ?_
    simp only [Store.singularObjects, List.mem_cons, List.not_mem_nil, or_false] at ho
    rcases ho with rfl | rfl | rfl | rfl | rfl <;> exact ⟨.empty, trivial⟩
  have hbare : Store.bare.Placed A := by
    refine of_forall hfixed fun sc hsc => ?_
    rw [Array.mem_singleton.mp hsc]
    exact fun _ h => absurd h List.not_mem_nil
  exact Store.base_induction hbare (fun _ _ _ _ h => h.defineConst _ _ _)
    fun _ _ _ _ _ _ h => h.modifyTable fun _ ht => ht.insert trivial

theorem intern (hs : s.Placed A) (config : Config) (input : List String) :
    Store.Placed A { s with config, input, objects := s.objects ++ internedIntegers config } := by
  refine ⟨fun v => ?_, hs.scopes⟩
  have hv := hs.objects v
  unfold Store.object at hv ⊢
  rw [Array.getD_eq_getD_getElem?] at hv ⊢
  rw [Array.getElem?_append]
  split
  · exact hv
  · cases h : (internedIntegers config)[v.index - s.objects.size]? with
    | none => exact .default
    | some o =>
      obtain ⟨k, _, rfl⟩ := Array.mem_map.mp (Array.mem_of_getElem? h)
      exact ⟨.empty, trivial⟩

theorem start (config : Config) (input : List String) : (Store.start config input).Placed A :=
  Store.start_induction config input base (fun _ h => h.intern config input)
    (fun _ _ _ _ h => h.defineConst _ _ _) fun _ _ h => h.alloc ⟨.empty, trivial⟩

end Store.Placed

end Garnet
