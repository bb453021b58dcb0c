import Garnet.Proofs.Equality.Keys
import Garnet.Proofs.Hashes.Entries
import Mathlib.Order.PropInstances

/-!
# Stores that agree

Two runs that do the same from different stores make their objects at different places. A pairing
says which object of the one store stands for which of the other. Two stores agree when objects that
stand for each other hold the same data, and in the place of each reference one to an object that
stands for the other.
-/

namespace Garnet

/-- Which objects of two stores stand for each other. -/
abbrev Pairing := Value → Value → Prop

variable {w w' : Pairing} {a b v v' : Value}

namespace Pairing

/-- The pairing in which one more pair of objects stands for each other. -/
def add (w : Pairing) (a b : Value) : Pairing := fun v v' => w v v' ∨ v = a ∧ v' = b

theorem le_add : w ≤ w.add a b := fun _ _ => .inl

theorem add_self : w.add a b a b := .inr ⟨rfl, rfl⟩

/-- What does not refer to objects is the same on both sides. -/
def Same {α : Type} (_ : Pairing) (a b : α) : Prop := b = a

/-- Entries of tables whose keys and whose values stand for each other. -/
def Entry (w : Pairing) (x y : Value × Value) : Prop := w x.1 y.1 ∧ w x.2 y.2

theorem Entry.mono {w w' : Pairing} {x y : Value × Value} (h : w.Entry x y) (hw : w ≤ w') :
    w'.Entry x y :=
  ⟨hw _ _ h.1, hw _ _ h.2⟩

/-- Instance variables of one name whose values stand for each other. -/
def Ivar (w : Pairing) (x y : String × Value) : Prop := x.1 = y.1 ∧ w x.2 y.2

end Pairing

theorem Option.rel_mono {r r' : Value → Value → Prop} (h : r ≤ r') {x y : Option Value}
    (hxy : Option.Rel r x y) : Option.Rel r' x y := by
  cases hxy with
  | some h' => exact .some (h _ _ h')
  | none => exact .none

theorem Option.rel_getElem? {r : Value → Value → Prop} {xs ys : List Value}
    (h : List.Forall₂ r xs ys) (i : Nat) : Option.Rel r xs[i]? ys[i]? := by
  induction h generalizing i with
  | nil => exact .none
  | cons hx _ ih =>
    cases i with
    | zero => exact .some hx
    | succ i => exact ih i

theorem List.forall₂_zipIdx {r : Value → Value → Prop} {xs ys : List Value}
    (h : List.Forall₂ r xs ys) (i : Nat) :
    List.Forall₂ (fun x y => r x.1 y.1 ∧ y.2 = x.2) (xs.zipIdx i) (ys.zipIdx i) := by
  induction h generalizing i with
  | nil => exact .nil
  | cons hx _ ih => exact .cons ⟨hx, rfl⟩ (ih (i + 1))

/-! ## Objects that stand for each other -/

structure HashData.Like (w : Pairing) (h g : HashData) : Prop where
  table : List.Forall₂ w.Entry h.table.pairs g.table.pairs
  fallback : Option.Rel w h.fallback g.fallback
  fallbackProc : Option.Rel w h.fallbackProc g.fallbackProc

/-- What two objects hold is the same up to the pairing. Program text is not looked at. -/
inductive Payload.Like (w : Pairing) : Payload → Payload → Prop
  | object : Like w .object .object
  | module {m m' : ModuleInfo} (h : m.name = m'.name) : Like w (.module m) (.module m')
  | nil : Like w .nil .nil
  | true : Like w .true .true
  | false : Like w .false .false
  | integer {i : Int} : Like w (.integer i) (.integer i)
  | float {x : Float} : Like w (.float x) (.float x)
  | text {x : String} : Like w (.text x) (.text x)
  | symbol {x : String} : Like w (.symbol x) (.symbol x)
  | array {xs ys : Array Value} (h : List.Forall₂ w xs.toList ys.toList) :
    Like w (.array xs) (.array ys)
  | hash {h g : HashData} (hh : h.Like w g) : Like w (.hash h) (.hash g)
  | range {first last first' last' : Value} {exclusive : Bool} (hfirst : w first first')
    (hlast : w last last') : Like w (.range first last exclusive) (.range first' last' exclusive)
  | proc {p q : ProcData} : Like w (.proc p) (.proc q)
  | regexp {r : RegexpData} : Like w (.regexp r) (.regexp r)

structure Object.Like (w : Pairing) (o o' : Object) : Prop where
  payload : o.payload.Like w o'.payload
  ivars : List.Forall₂ w.Ivar o.ivars.entries o'.ivars.entries

theorem HashData.Like.mono {h g : HashData} (hw : w ≤ w') (hh : h.Like w g) : h.Like w' g :=
  ⟨hh.table.imp fun _ _ he => he.mono hw, Option.rel_mono hw hh.fallback,
    Option.rel_mono hw hh.fallbackProc⟩

theorem Payload.Like.mono {p q : Payload} (hw : w ≤ w') (h : p.Like w q) : p.Like w' q := by
  cases h with
  | array h => exact .array (h.imp hw)
  | hash h => exact .hash (h.mono hw)
  | range hfirst hlast => exact .range (hw _ _ hfirst) (hw _ _ hlast)
  | module h => exact .module h
  | _ => constructor

/-- A class stands for classes only. -/
theorem Payload.Like.link?_eq_none {p q : Payload} (h : p.Like w q) (hp : p.link? = none) :
    q.link? = none := by
  cases h with
  | module => cases hp
  | _ => rfl

theorem Object.Like.mono {o o' : Object} (hw : w ≤ w') (h : o.Like w o') : o.Like w' o' :=
  ⟨h.payload.mono hw, h.ivars.imp fun _ _ hi => ⟨hi.1, hw _ _ hi.2⟩⟩

/-! ## Stores -/

/-- Two stores agree: no object stands for two, and objects that stand for each other are alike. The
classes of the core go by the same names; nil and the truth values stand for themselves, as interned
integers do. -/
structure Agrees (w : Pairing) (s t : Store) : Prop where
  config : t.config = s.config
  left {v v' : Value} (hv : w v v') : v.index < s.objects.size
  right {v v' : Value} (hv : w v v') : v'.index < t.objects.size
  single {v v' a b : Value} (hv : w v v') (ha : w a b) : v = a ↔ v' = b
  object {v v' : Value} (hv : w v v') : (s.object v).Like w (t.object v')
  className {v v' : Value} (hv : w v v') : t.className v' = s.className v
  core (c : CoreClass) : t.moduleName? c.value = s.moduleName? c.value
  nil : w .nil .nil
  true : w .true .true
  false : w .false .false
  interned {i : Int} : s.config.interns i → w (s.config.place i) (s.config.place i)

namespace Agrees

variable {s t : Store}

theorem payload (h : Agrees w s t) (hv : w v v') : (s.payload v).Like w (t.payload v') :=
  (h.object hv).payload

theorem truthy (h : Agrees w s t) (hv : w v v') : v'.truthy = v.truthy := by
  have hbeq {a : Value} (ha : w a a) : (v' != a) = (v != a) := by
    rw [Bool.eq_iff_iff, bne_iff_ne, bne_iff_ne]
    exact (not_congr (h.single hv ha)).symm
  rw [Value.truthy, Value.truthy, hbeq h.nil, hbeq h.false]

theorem beq (h : Agrees w s t) (hv : w v v') (ha : w a b) : (v' == b) = (v == a) := by
  rw [Bool.eq_iff_iff, beq_iff_eq, beq_iff_eq]
  exact (h.single hv ha).symm

theorem ofBool (h : Agrees w s t) (x : Bool) : w (.ofBool x) (.ofBool x) := by
  cases x
  · exact h.false
  · exact h.true

theorem getD_nil (h : Agrees w s t) {x y : Option Value} (hxy : Option.Rel w x y) :
    w (x.getD .nil) (y.getD .nil) := by
  cases hxy with
  | some hv => exact hv
  | none => exact h.nil

/-! ### What is read off objects -/

theorem array? (h : Agrees w s t) (hv : w v v') :
    Option.Rel (fun xs ys => List.Forall₂ w xs.toList ys.toList) (s.array? v) (t.array? v') := by
  have hp := h.payload hv
  unfold Store.array?
  generalize s.payload v = p, t.payload v' = q at hp
  cases hp with
  | array h => exact .some h
  | _ => exact .none

/-- A part of an array that stands for a pair; what is no array is as good as its parts. -/
theorem pairPart (h : Agrees w s t) (i : Nat) (hv : w v v') :
    w (((s.array? v).bind (·[i]?)).getD v) (((t.array? v').bind (·[i]?)).getD v') := by
  have hrel := h.array? hv
  generalize s.array? v = x, t.array? v' = y at hrel
  cases hrel with
  | none => exact hv
  | @some xs ys hxs =>
    have hpart := Option.rel_getElem? hxs i
    rw [Array.getElem?_toList, Array.getElem?_toList] at hpart
    rw [Option.bind_some, Option.bind_some]
    generalize xs[i]? = x, ys[i]? = y at hpart
    cases hpart with
    | some hx => exact hx
    | none => exact hv

theorem word? (h : Agrees w s t) (hv : w v v') : t.word? v' = s.word? v := by
  have hp := h.payload hv
  unfold Store.word?
  generalize s.payload v = p, t.payload v' = q at hp
  cases hp <;> rfl

theorem text? (h : Agrees w s t) (hv : w v v') : t.text? v' = s.text? v := by
  have hp := h.payload hv
  unfold Store.text?
  generalize s.payload v = p, t.payload v' = q at hp
  cases hp <;> rfl

theorem entries (h : Agrees w s t) (hv : w v v') :
    List.Forall₂ w.Entry (s.entries v).pairs (t.entries v').pairs := by
  have hp := h.payload hv
  unfold Store.entries Store.hash?
  generalize s.payload v = p, t.payload v' = q at hp
  cases hp with
  | hash h => exact h.table
  | _ => exact .nil

theorem scalarText? (h : Agrees w s t) (hv : w v v') : t.scalarText? v' = s.scalarText? v := by
  have hp := h.payload hv
  unfold Store.scalarText?
  generalize s.payload v = p, t.payload v' = q at hp
  cases hp <;> rfl

theorem defaultText (h : Agrees w s t) (hv : w v v') : t.defaultText v' = s.defaultText v := by
  rw [Store.defaultText, Store.defaultText, h.className hv]

theorem isNumberOrNil (h : Agrees w s t) (hv : w v v') :
    (t.payload v').isNumberOrNil = (s.payload v).isNumberOrNil := by
  have hp := h.payload hv
  generalize s.payload v = p, t.payload v' = q at hp
  cases hp <;> rfl

theorem plainOrder? (h : Agrees w s t) (ha : w a b) (hv : w v v') :
    Eval.plainOrder? t b v' = Eval.plainOrder? s a v := by
  have hnumber {a b : Value} (ha : w a b) : t.number? b = s.number? a := by
    have hp := h.payload ha
    unfold Store.number?
    generalize s.payload a = p, t.payload b = q at hp
    cases hp <;> rfl
  have hp := h.payload ha
  have hq := h.payload hv
  unfold Eval.plainOrder?
  rw [hnumber ha, hnumber hv]
  generalize s.payload a = p, t.payload b = q at hp
  generalize s.payload v = p', t.payload v' = q' at hq
  cases hp <;> cases hq <;> rfl

/-! ### Keys -/

theorem all_zip_congr {f g : Value → Value → Bool} {xs ys xs' ys' : List Value}
    (hfg : ∀ {a b v v'}, w a b → w v v' → g b v' = f a v) (hx : List.Forall₂ w xs xs')
    (hy : List.Forall₂ w ys ys') :
    ((xs'.zip ys').all fun (x, y) => g x y) = (xs.zip ys).all fun (x, y) => f x y := by
  induction hx generalizing ys ys' with
  | nil => rfl
  | cons hx _ ih =>
    cases hy with
    | nil => rfl
    | cons hy hys => simp only [List.zip_cons_cons, List.all_cons, hfg hx hy, ih hys]

theorem keyEqlWithin (h : Agrees w s t) (n : Nat) (ha : w a b) (hv : w v v') :
    t.keyEqlWithin n b v' = s.keyEqlWithin n a v := by
  induction n generalizing a b v v' with
  | zero => exact h.beq ha hv
  | succ n ih =>
    have hp := h.payload ha
    have hq := h.payload hv
    rw [Store.keyEqlWithin, Store.keyEqlWithin, h.beq ha hv]
    generalize s.payload a = p, t.payload b = q at hp
    generalize s.payload v = p', t.payload v' = q' at hq
    cases hp with
    | array hx =>
      cases hq with
      | array hy =>
        simp only [← Array.length_toList, ← hx.length_eq, ← hy.length_eq,
          all_zip_congr (w := w) (fun ha hv => ih ha hv) hx hy]
      | _ => rfl
    | _ => cases hq <;> rfl

theorem keyEql (h : Agrees w s t) (ha : w a b) (hv : w v v') : t.keyEql b v' = s.keyEql a v := by
  rw [Bool.eq_iff_iff, Store.keyEql_iff_exists, Store.keyEql_iff_exists]
  exact exists_congr fun n => by rw [h.keyEqlWithin n ha hv]

end Agrees

/-! ## Tables -/

namespace Table

variable {eql eql' : Value → Value → Bool} {d d' : Table} {key key' x x' : Value}

/-- Entries stand for each other when their keys and their values do. -/
theorem forall₂_zip {ks ks' vs vs' : List Value} (hkeys : List.Forall₂ w ks ks')
    (hvalues : List.Forall₂ w vs vs') : List.Forall₂ w.Entry (ks.zip vs) (ks'.zip vs') := by
  induction hkeys generalizing vs vs' with
  | nil => exact .nil
  | cons hk _ ih =>
    cases hvalues with
    | nil => exact .nil
    | cons hv hvalues => exact .cons ⟨hk, hv⟩ (ih hvalues)

theorem keys_like (hd : List.Forall₂ w.Entry d.pairs d'.pairs) :
    List.Forall₂ w d.keys d'.keys := by
  rw [keys_eq, keys_eq, List.forall₂_map_left_iff, List.forall₂_map_right_iff]
  exact hd.imp fun _ _ => And.left

theorem values_like (hd : List.Forall₂ w.Entry d.pairs d'.pairs) :
    List.Forall₂ w d.values d'.values := by
  rw [values_eq, values_eq, List.forall₂_map_left_iff, List.forall₂_map_right_iff]
  exact hd.imp fun _ _ => And.right

theorem position?_congr (hd : List.Forall₂ w.Entry d.pairs d'.pairs)
    (heql : ∀ {a b}, w a b → eql' b key' = eql a key) :
    d'.position? eql' key' = d.position? eql key := by
  have hkeys := keys_like hd
  rw [position?, position?]
  generalize d.keys = ks, d'.keys = ks' at hkeys ⊢
  induction hkeys with
  | nil => rfl
  | cons hk _ ih => simp only [List.findIdx?_cons, heql hk, ih]

theorem get?_like (hd : List.Forall₂ w.Entry d.pairs d'.pairs)
    (heql : ∀ {a b}, w a b → eql' b key' = eql a key) :
    Option.Rel w (d.get? eql key) (d'.get? eql' key') := by
  rw [get?_eq_find?, get?_eq_find?]
  generalize d.pairs = es, d'.pairs = es' at hd ⊢
  induction hd with
  | nil => exact .none
  | @cons e e' _ _ he _ ih =>
    simp only [List.find?_cons, heql he.1]
    cases eql e.1 key with
    | true => exact .some he.2
    | false => exact ih

theorem forall₂_set {vs vs' : List Value} (hvalues : List.Forall₂ w vs vs') (hx : w x x')
    (i : Nat) : List.Forall₂ w (vs.set i x) (vs'.set i x') := by
  induction hvalues generalizing i with
  | nil => exact .nil
  | cons hv hvalues ih =>
    cases i with
    | zero => exact .cons hx hvalues
    | succ i => exact .cons hv (ih i)

theorem insert_like (hd : List.Forall₂ w.Entry d.pairs d'.pairs)
    (heql : ∀ {a b}, w a b → eql' b key' = eql a key) (hkey : w key key') (hx : w x x') :
    List.Forall₂ w.Entry (d.insert eql key x).pairs (d'.insert eql' key' x').pairs := by
  unfold insert
  rw [position?_congr hd heql]
  have hkeys := keys_like hd
  have hvalues := values_like hd
  cases d.position? eql key with
  | none =>
    have hadded := forall₂_zip (List.rel_append hkeys (.cons hkey .nil))
      (List.rel_append hvalues (.cons hx .nil))
    exact hadded
  | some i =>
    have hreplaced := forall₂_zip hkeys (forall₂_set hvalues hx i)
    exact hreplaced

end Table

/-! ## What the two runs go on to -/

/-- What has become of stores that agreed: further objects may stand for each other, which are new
in the second store, and what stood for nothing there is as it was. -/
structure Onward (w : Pairing) (s t : Store) (w' : Pairing) (s' t' : Store) : Prop where
  le : w ≤ w'
  agrees : Agrees w' s' t'
  new {v v' : Value} (hv : w' v v') : w v v' ∨ t.objects.size ≤ v'.index
  kept {v' : Value} (hlt : v'.index < t.objects.size) (hv : ∀ v, ¬w v v') :
    t'.object v' = t.object v' ∧ t'.className v' = t.className v'

theorem Store.className_congr {s t : Store} (hcls : t.classOf v = s.classOf v)
    (hm : ∀ c, t.module? c = s.module? c) : t.className v = s.className v := by
  rw [className, className, moduleName?, moduleName?, hcls, hm]

/-! ## Steps that make and fill collections -/

/-- Arrays stay arrays and hashes stay hashes, whatever they are filled with. -/
inductive Payload.Refilled : Payload → Payload → Prop
  | array {xs ys : Array Value} : Refilled (.array xs) (.array ys)
  | hash {h g : HashData} : Refilled (.hash h) (.hash g)

/-- A change of an object that at most fills an array or a hash. -/
def Refills (f : Object → Object) : Prop :=
  ∀ o, f o = o ∨ ∃ p, f o = { o with payload := p } ∧ o.payload.Refilled p

/-- The object with another table, if it is a hash. -/
def Object.withHash (h : HashData) (o : Object) : Object :=
  match o.payload with
  | .hash _ => { o with payload := .hash h }
  | _ => o

/-- The object with another element at the end, if it is an array. -/
def Object.withItem (v : Value) (o : Object) : Object :=
  match o.payload with
  | .array xs => { o with payload := .array (xs.push v) }
  | _ => o

theorem refills_withHash (h : HashData) : Refills (Object.withHash h) := by
  intro o
  rw [Object.withHash]
  cases hp : o.payload with
  | hash => exact .inr ⟨.hash h, rfl, .hash⟩
  | _ => exact .inl rfl

theorem refills_withItem (v : Value) : Refills (Object.withItem v) := by
  intro o
  rw [Object.withItem]
  cases hp : o.payload with
  | array xs => exact .inr ⟨.array (xs.push v), rfl, .array⟩
  | _ => exact .inl rfl

/-- What operations on collections do to a store: they make objects that are no classes, and fill
arrays and hashes. -/
structure DataStep (s s' : Store) : Prop where
  besides : { s' with objects := s.objects, cells := s.cells, nextStop := s.nextStop } = s
  size_le : s.objects.size ≤ s'.objects.size
  cells_le : s.cells.size ≤ s'.cells.size
  object {v : Value} (hv : v.index < s.objects.size) : s'.object v = s.object v ∨
    ∃ p, s'.object v = { s.object v with payload := p } ∧ (s.payload v).Refilled p
  new {v : Value} (hv : s.objects.size ≤ v.index) : s'.module? v = none

theorem Store.module?_of_size_le {s : Store} (hv : s.objects.size ≤ v.index) :
    s.module? v = none := by
  rw [module?, payload, object_of_size_le hv]
  rfl

namespace DataStep

variable {s s' s'' : Store} {f : Object → Object}

/-- A step that leaves the objects as they are. -/
theorem of_objects (hbesides : { s' with cells := s.cells, nextStop := s.nextStop } = s)
    (hcells : s.cells.size ≤ s'.cells.size) : DataStep s s' := by
  have hobjects : s'.objects = s.objects := (congrArg Store.objects hbesides :)
  refine ⟨?_, Nat.le_of_eq (congrArg Array.size hobjects.symm), hcells, fun _ => .inl ?_,
    fun hv => Store.module?_of_size_le (hobjects ▸ hv)⟩
  · rw [← hobjects]
    exact hbesides
  · rw [Store.object, Store.object, hobjects]

theorem refl (s : Store) : DataStep s s := .of_objects rfl (Nat.le_refl _)

theorem config (h : DataStep s s') : s'.config = s.config :=
  (congrArg Store.config h.besides :)

theorem classOf (h : DataStep s s') (hv : v.index < s.objects.size) :
    s'.classOf v = s.classOf v := by
  rw [Store.classOf, Store.classOf]
  rcases h.object hv with heq | ⟨_, heq, -⟩ <;> rw [heq]

theorem module? (h : DataStep s s') (v : Value) : s'.module? v = s.module? v := by
  rcases Nat.lt_or_ge v.index s.objects.size with hv | hv
  · rw [Store.module?, Store.module?, Store.payload]
    rcases h.object hv with heq | ⟨p, heq, hp⟩
    · rw [heq, ← Store.payload]
    · rw [heq]
      generalize s.payload v = q at hp
      cases hp <;> rfl
  · rw [h.new hv, Store.module?_of_size_le hv]

theorem className (h : DataStep s s') (hv : v.index < s.objects.size) :
    s'.className v = s.className v :=
  Store.className_congr (h.classOf hv) h.module?

theorem moduleName? (h : DataStep s s') (v : Value) : s'.moduleName? v = s.moduleName? v := by
  rw [Store.moduleName?, Store.moduleName?, h.module?]

theorem proc? (h : DataStep s s') {p : ProcData} (hp : s.proc? v = some p) :
    s'.proc? v = some p := by
  rw [← hp, Store.proc?, Store.proc?, Store.payload]
  rcases h.object (Store.index_lt_of_proc? hp) with heq | ⟨q, -, hq⟩
  · rw [heq, ← Store.payload]
  · exfalso
    rw [Store.proc?] at hp
    generalize s.payload v = q' at hp hq
    cases hq <;> cases hp

theorem array?_eq_none (h : DataStep s s') (hv : v.index < s.objects.size)
    (hnone : s.array? v = none) : s'.array? v = none := by
  rw [Store.array?, Store.payload]
  rw [Store.array?] at hnone
  rcases h.object hv with heq | ⟨p, heq, hp⟩
  · rw [heq, ← Store.payload]
    exact hnone
  · rw [heq]
    generalize s.payload v = q at hp hnone
    cases hp with
    | array => cases hnone
    | hash => rfl

theorem hash?_eq_none (h : DataStep s s') (hv : v.index < s.objects.size)
    (hnone : s.hash? v = none) : s'.hash? v = none := by
  rw [Store.hash?, Store.payload]
  rw [Store.hash?] at hnone
  rcases h.object hv with heq | ⟨p, heq, hp⟩
  · rw [heq, ← Store.payload]
    exact hnone
  · rw [heq]
    generalize s.payload v = q at hp hnone
    cases hp with
    | array => rfl
    | hash => cases hnone

theorem trans (h : DataStep s s') (h' : DataStep s' s'') : DataStep s s'' where
  besides := (congrArg (fun u : Store =>
    { u with objects := s.objects, cells := s.cells, nextStop := s.nextStop }) h'.besides).trans
      h.besides
  size_le := h.size_le.trans h'.size_le
  cells_le := h.cells_le.trans h'.cells_le
  object hv := by
    rcases h'.object (Nat.lt_of_lt_of_le hv h.size_le) with heq' | ⟨q, heq', hq⟩
    · rw [heq']
      exact h.object hv
    · rcases h.object hv with heq | ⟨p, heq, hp⟩
      · rw [heq', heq]
        rw [Store.payload, heq] at hq
        exact .inr ⟨q, rfl, hq⟩
      · rw [heq', heq]
        rw [Store.payload, heq] at hq
        refine .inr ⟨q, rfl, ?_⟩
        generalize s.payload _ = o at hp
        cases hp <;> cases hq <;> constructor
  new {v} hv := by rw [h'.module?, h.new hv]

theorem alloc {o : Object} (ho : o.payload.link? = none) : DataStep s (s.alloc o).2 where
  besides := rfl
  size_le := Nat.le_of_lt (Store.size_alloc o)
  cells_le := Nat.le_refl _
  object hv := .inl (Store.object_alloc_of_lt s o hv)
  new hv := by rw [Store.module?_alloc_plain ho, Store.module?_of_size_le hv]

theorem modify (hf : Refills f) : DataStep s (s.modifyObject v f) where
  besides := rfl
  size_le := Nat.le_of_eq Store.size_modifyObject.symm
  cells_le := Nat.le_refl _
  object {u} _ := by
    rw [Store.object_modifyObject]
    split
    · rename_i hu
      rw [hu.1]
      exact hf (s.object v)
    · exact .inl rfl
  new {u} hu := by
    rw [Store.module?_of_size_le]
    rw [Store.size_modifyObject]
    exact hu

end DataStep

namespace Agrees

variable {s t : Store}

/-- A new object on either side, of the same class of the core. -/
theorem alloc (h : Agrees w s t) {c : CoreClass} {o o' : Object} (hc : o.cls = c.value)
    (hc' : o'.cls = c.value) (ho : o.Like w o') (hp : o.payload.link? = .none) :
    Onward w s t (w.add ⟨s.objects.size⟩ ⟨t.objects.size⟩) (s.alloc o).2 (t.alloc o').2 := by
  have hs : DataStep s (s.alloc o).2 := .alloc hp
  have ht : DataStep t (t.alloc o').2 := .alloc (ho.payload.link?_eq_none hp)
  have hle : w ≤ w.add ⟨s.objects.size⟩ ⟨t.objects.size⟩ := Pairing.le_add
  refine ⟨hle, ?_, ?_, fun hlt _ => ⟨Store.object_alloc_of_lt t o' hlt, ht.className hlt⟩⟩
  · refine ⟨h.config, ?_, ?_, ?_, ?_, ?_, ?_, .inl h.nil, .inl h.true, .inl h.false,
      fun hi => .inl (h.interned hi)⟩
    · rintro v v' (hv | ⟨rfl, rfl⟩)
      · exact Nat.lt_trans (h.left hv) (Store.size_alloc o)
      · exact Store.size_alloc o
    · rintro v v' (hv | ⟨rfl, rfl⟩)
      · exact Nat.lt_trans (h.right hv) (Store.size_alloc o')
      · exact Store.size_alloc o'
    · have hne {v v' : Value} (hv : w v v') : v ≠ ⟨s.objects.size⟩ ∧ v' ≠ ⟨t.objects.size⟩ :=
        ⟨fun heq => Nat.lt_irrefl _ (heq ▸ h.left hv),
          fun heq => Nat.lt_irrefl _ (heq ▸ h.right hv)⟩
      rintro v v' a b (hv | ⟨rfl, rfl⟩) (ha | ⟨rfl, rfl⟩)
      · exact h.single hv ha
      · exact iff_of_false (hne hv).1 (hne hv).2
      · exact iff_of_false (hne ha).1.symm (hne ha).2.symm
      · exact iff_of_true rfl rfl
    · rintro v v' (hv | ⟨rfl, rfl⟩)
      · rw [Store.object_alloc_of_lt s o (h.left hv), Store.object_alloc_of_lt t o' (h.right hv)]
        exact (h.object hv).mono hle
      · rw [Store.object_alloc, Store.object_alloc]
        exact ho.mono hle
    · rintro v v' (hv | ⟨rfl, rfl⟩)
      · rw [hs.className (h.left hv), ht.className (h.right hv), h.className hv]
      · rw [Store.className, Store.className, Store.classOf, Store.classOf, Store.object_alloc,
          Store.object_alloc, hc, hc', hs.moduleName?, ht.moduleName?, h.core c]
    · intro c
      rw [hs.moduleName?, ht.moduleName?, h.core c]
  · rintro v v' (hv | ⟨rfl, rfl⟩)
    · exact .inl hv
    · exact .inr (Nat.le_refl _)

/-- Two arrays or two hashes that stand for each other are filled. -/
theorem modify (h : Agrees w s t) (hv : w v v') {f g : Object → Object} (hf : Refills f)
    (hg : Refills g) (hfg : (f (s.object v)).Like w (g (t.object v'))) :
    Onward w s t w (s.modifyObject v f) (t.modifyObject v' g) := by
  have hs : DataStep s (s.modifyObject v f) := .modify hf
  have ht : DataStep t (t.modifyObject v' g) := .modify hg
  refine ⟨le_rfl, ⟨h.config, ?_, ?_, h.single, ?_, ?_, ?_, h.nil, h.true, h.false, h.interned⟩,
    .inl, ?_⟩
  · intro u u' hu
    rw [Store.size_modifyObject]
    exact h.left hu
  · intro u u' hu
    rw [Store.size_modifyObject]
    exact h.right hu
  · intro u u' hu
    rw [Store.object_modifyObject, Store.object_modifyObject]
    by_cases huv : u = v
    · rw [if_pos ⟨huv, h.left hv⟩, if_pos ⟨(h.single hu hv).mp huv, h.right hv⟩]
      exact hfg
    · rw [if_neg fun hc => huv hc.1, if_neg fun hc => huv ((h.single hu hv).mpr hc.1)]
      exact h.object hu
  · intro u u' hu
    rw [hs.className (h.left hu), ht.className (h.right hu), h.className hu]
  · intro c
    rw [hs.moduleName?, ht.moduleName?, h.core c]
  · intro u' hlt hu
    have hne : u' ≠ v' := by
      rintro rfl
      exact hu v hv
    exact ⟨by rw [Store.object_modifyObject, if_neg fun hc => hne hc.1], ht.className hlt⟩

end Agrees

end Garnet
