import Garnet.Proofs.Enumeration.Pairing
import Garnet.Proofs.Interning
import Garnet.Proofs.Requests

/-!
# Runs that are alike

One run goes over a source with `each`, the other over an array. Two runs from stores that agree are
alike when they end alike, in stores that agree again, and have called the block in the same way.
-/

namespace Garnet

open Eval

/-- What comes after a run and asks for nothing is not noted. -/
theorem Act.log_bind_nil {ℓ : Layer} {α β ρ : Type} {note : Request → Store → List ρ} {e : Engine}
    {s : Store} {x : Act ℓ β} {f : β → Act ℓ α} (hf : ∀ b t, (f b).log note e t = []) :
    (x >>= f).log note e s = x.log note e s := by
  rw [log_bind, funext fun b => funext (hf b), Ending.after_nil, List.append_nil]

/-! ## The calls of a block -/

/-- What a request hands to the block, if it is a call of it. -/
def Request.callOf? (block : Option Value) : Request → Option (List Value)
  | .callProc b args none none => if block = some b then some args else none
  | _ => none

/-- The calls of a block while a request is performed, in order. What a call calls in its turn is
left out. -/
def Engine.calls (block : Option Value) : Nat → Request → Store → List (List Value)
  | 0, r, _ => (r.callOf? block).toList
  | n + 1, r, s =>
    match r.callOf? block with
    | some args => [args]
    | none =>
      let inside := (Eval.handle r).log (Engine.calls block n) (.ofFuel n)
      if r.isCall then
        if s.depth ≥ s.config.maxDepth then [] else inside { s with depth := s.depth + 1 }
      else inside s

theorem Engine.calls_callProc {b : Value} {block : Option Value} (hb : block = some b) (n : Nat)
    (args : List Value) (s : Store) :
    Engine.calls block n (.callProc b args none none) s = [args] := by
  have hcall : Request.callOf? block (.callProc b args none none) = some args := if_pos hb
  cases n with
  | zero => rw [calls, hcall, Option.toList_some]
  | succ n => rw [calls, hcall]

/-! ## What is compared -/

/-- A run over a source and one over an array, each with its block, and what is asked of the two
stores while they last. -/
structure Comparison where
  source : Value
  array : Value
  elements : Array Value
  block : Option Value
  block' : Option Value
  /-- The messages that are sent to values. -/
  sends : String → Prop
  /-- The sites that a block may break to. -/
  known : Nat → Prop
  /-- The least fuel that is left where the first run asks for something. -/
  level : Nat
  /-- The fuel of the second run. -/
  fuel : Nat
  /-- The source may be a hash unless this holds. -/
  unhashed : Prop
  /-- What else the stores have to do with each other. -/
  rest : Pairing → Store → Store → Prop
  rest_step {w w' : Pairing} {s s' t t' : Store} (h : rest w s t) (hw : w ≤ w')
    (hs : DataStep s s') (ht : DataStep t t') : rest w' s' t'

/-- How two runs are stopped. No call is left by `next`. -/
inductive Stop.Like (known : Nat → Prop) (w : Pairing) : Stop → Stop → Prop
  | raise {v v' : Value} (hv : w v v') : Like known w (.signal (.raise v)) (.signal (.raise v'))
  | breakTo {site : Nat} {v v' : Value} (hsite : known site) (hv : w v v') :
    Like known w (.signal (.breakTo site v)) (.signal (.breakTo site v'))
  | returnTo {target : Option Nat} {v v' : Value} (hv : w v v') :
    Like known w (.signal (.returnTo target v)) (.signal (.returnTo target v'))
  | exhausted : Like known w .exhausted .exhausted

namespace Comparison

variable {c : Comparison} {w w' w'' : Pairing} {s s' s'' t t' t'' : Store} {v v' a b : Value}

/-- The stores agree, and have what is compared in them. The array stands for nothing. -/
structure Holds (c : Comparison) (w : Pairing) (s t : Store) : Prop extends Agrees w s t where
  rest : c.rest w s t
  source_lt : c.source.index < s.objects.size
  source : s.array? c.source = none
  hash : c.unhashed → s.hash? c.source = none
  array : t.array? c.array = some c.elements
  apart (v : Value) : ¬w v c.array
  block : Option.Rel w c.block c.block'

/-- What has become of two stores. As long as a step is strict, what stands for nothing in the
second store stays as it is. -/
structure Step (c : Comparison) (strict : Prop) (w : Pairing) (s t : Store) (w' : Pairing)
    (s' t' : Store) : Prop where
  le : w ≤ w'
  holds : c.Holds w' s' t'
  right_le : t.objects.size ≤ t'.objects.size
  procs {v : Value} {p : ProcData} (hp : s.proc? v = some p) : s'.proc? v = some p
  cells_le : s.cells.size ≤ s'.cells.size
  new (h : strict) {v v' : Value} (hv : w' v v') : w v v' ∨ t.objects.size ≤ v'.index
  kept (h : strict) {v' : Value} (hlt : v'.index < t.objects.size) (hv : ∀ v, ¬w v v') :
    t'.object v' = t.object v' ∧ t'.className v' = t.className v'

namespace Step

variable {strict : Prop}

theorem refl (h : c.Holds w s t) : c.Step strict w s t w s t :=
  ⟨le_rfl, h, Nat.le_refl _, id, Nat.le_refl _, fun _ _ _ => .inl, fun _ _ _ _ => ⟨rfl, rfl⟩⟩

theorem trans (h : c.Step strict w s t w' s' t') (h' : c.Step strict w' s' t' w'' s'' t'') :
    c.Step strict w s t w'' s'' t'' where
  le := h.le.trans h'.le
  holds := h'.holds
  right_le := h.right_le.trans h'.right_le
  procs hp := h'.procs (h.procs hp)
  cells_le := h.cells_le.trans h'.cells_le
  new hstrict _ _ hv := by
    rcases h'.new hstrict hv with hv | hge
    · exact h.new hstrict hv
    · exact .inr (h.right_le.trans hge)
  kept hstrict v' hlt hv := by
    have hunpaired : ∀ v, ¬w' v v' := fun v hw =>
      (h.new hstrict hw).elim (hv v) fun hge => Nat.not_lt_of_le hge hlt
    obtain ⟨ho, hc⟩ := h.kept hstrict hlt hv
    obtain ⟨ho', hc'⟩ := h'.kept hstrict (Nat.lt_of_lt_of_le hlt h.right_le) hunpaired
    exact ⟨ho'.trans ho, hc'.trans hc⟩

theorem weaken (h : c.Step True w s t w' s' t') : c.Step strict w s t w' s' t' :=
  { h with new := fun _ => h.new trivial, kept := fun _ => h.kept trivial }

end Step

namespace Holds

/-- Operations on collections that keep the data in agreement keep all the rest. -/
theorem step {strict : Prop} (h : c.Holds w s t) (ho : Onward w s t w' s' t') (hs : DataStep s s')
    (ht : DataStep t t') : c.Step strict w s t w' s' t' where
  le := ho.le
  holds :=
    { ho.agrees with
      rest := c.rest_step h.rest ho.le hs ht
      source_lt := Nat.lt_of_lt_of_le h.source_lt hs.size_le
      source := hs.array?_eq_none h.source_lt h.source
      hash := fun hc => hs.hash?_eq_none h.source_lt (h.hash hc)
      array := by
        have hkept := (ho.kept (Store.index_lt_of_array? h.array) h.apart).1
        rw [Store.array?, Store.payload, hkept]
        exact h.array
      apart := fun v hv => (ho.new hv).elim (h.apart v)
        fun hge => Nat.not_lt_of_le hge (Store.index_lt_of_array? h.array)
      block := Option.rel_mono ho.le h.block }
  right_le := ht.size_le
  procs := hs.proc?
  cells_le := hs.cells_le
  new _ _ _ := ho.new
  kept _ _ := ho.kept

/-- A new object on either side, of the same class of the core. -/
theorem alloc {strict : Prop} (h : c.Holds w s t) {k : CoreClass} {o o' : Object}
    (hk : o.cls = k.value) (hk' : o'.cls = k.value) (ho : o.Like w o')
    (hp : o.payload.link? = none) :
    c.Step strict w s t (w.add ⟨s.objects.size⟩ ⟨t.objects.size⟩) (s.alloc o).2 (t.alloc o').2 :=
  h.step (h.toAgrees.alloc hk hk' ho hp) (.alloc hp) (.alloc (ho.payload.link?_eq_none hp))

/-- A step of the first run alone that leaves alone what stands for something. -/
theorem alone (h : c.Holds w s t) (hs : DataStep s s')
    (hkept : ∀ v v', w v v' → s'.object v = s.object v) : c.Holds w s' t where
  config := h.config.trans hs.config.symm
  left hv := Nat.lt_of_lt_of_le (h.left hv) hs.size_le
  right := h.right
  single := h.single
  object hv := hkept _ _ hv ▸ h.object hv
  className hv := by rw [hs.className (h.left hv), h.className hv]
  core k := by rw [hs.moduleName?, h.core k]
  nil := h.nil
  true := h.true
  false := h.false
  interned hi := by
    rw [hs.config] at hi ⊢
    exact h.interned hi
  rest := c.rest_step h.rest le_rfl hs (.refl t)
  source_lt := Nat.lt_of_lt_of_le h.source_lt hs.size_le
  source := hs.array?_eq_none h.source_lt h.source
  hash hc := hs.hash?_eq_none h.source_lt (h.hash hc)
  array := h.array
  apart := h.apart
  block := h.block

end Holds

/-! ## Outcomes -/

/-- How two runs from stores that agreed have ended, and the calls of the block by either. -/
inductive Outcome (c : Comparison) (strict : Prop) {α β : Type} (A : Pairing → α → β → Prop)
    (w : Pairing) (s t : Store) :
    Ending α → List (List Value) → Ending β → List (List Value) → Prop
  | ok {w' : Pairing} {s' t' : Store} {a : α} {b : β} {calls calls' : List (List Value)}
    (hstep : c.Step strict w s t w' s' t') (hab : A w' a b)
    (hcalls : List.Forall₂ (List.Forall₂ w') calls calls') :
    Outcome c strict A w s t (.ok a s') calls (.ok b t') calls'
  | error {w' : Pairing} {s' t' : Store} {stop stop' : Stop} {calls calls' : List (List Value)}
    (hstep : c.Step strict w s t w' s' t') (hstop : stop.Like c.known w' stop')
    (hcalls : List.Forall₂ (List.Forall₂ w') calls calls') :
    Outcome c strict A w s t (.error stop s') calls (.error stop' t') calls'

/-- The requests of the two runs that are asked in the same way. -/
inductive Asks (c : Comparison) (w : Pairing) : Request → Request → Prop
  | call {b b' : Value} {args args' : List Value} (hb : c.block = some b) (hb' : c.block' = some b')
    (hargs : List.Forall₂ w args args') :
    Asks c w (.callProc b args none none) (.callProc b' args' none none)
  | send {v v' : Value} {name : String} {args args' : List Value} (hname : c.sends name)
    (hv : w v v') (hargs : List.Forall₂ w args args') :
    Asks c w (.send .all v name args none) (.send .all v' name args' none)

/-- Whatever the two runs ask in the same way is answered in the same way: the block and the methods
that are called do not tell stores that agree from each other, and do not touch the array. -/
def Answers (c : Comparison) : Prop :=
  ∀ ⦃m w s t r r'⦄, c.level ≤ m → c.Holds w s t → c.Asks w r r' →
    c.Outcome True id w s t ((Engine.ofFuel m).perform r s) (Engine.calls c.block m r s)
      ((Engine.ofFuel c.fuel).perform r' t) (Engine.calls c.block' c.fuel r' t)

section Alike

variable {α β γ δ : Type} {strict : Prop} {A A' : Pairing → α → β → Prop}
  {B : Pairing → γ → δ → Prop} {m : Nat}

/-- Two runs from these stores are alike; `m` is the fuel of the first. -/
def AlikeAt (c : Comparison) (strict : Prop) (A : Pairing → α → β → Prop) (m : Nat) (w : Pairing)
    (s t : Store) (x : Op α) (y : Op β) : Prop :=
  c.Outcome strict A w s t (x.run (.ofFuel m) s) (x.log (Engine.calls c.block m) (.ofFuel m) s)
    (y.run (.ofFuel c.fuel) t) (y.log (Engine.calls c.block' c.fuel) (.ofFuel c.fuel) t)

/-- Two runs from any stores that agree are alike. -/
def Alike (c : Comparison) (A : Pairing → α → β → Prop) (w : Pairing) (x : Op α) (y : Op β) :
    Prop :=
  ∀ ⦃m s t⦄, c.level ≤ m → c.Holds w s t → c.AlikeAt True A m w s t x y

namespace Outcome

variable {out : Ending α} {out' : Ending β} {calls calls' : List (List Value)}

theorem weaken (h : c.Outcome True A w s t out calls out' calls') :
    c.Outcome strict A w s t out calls out' calls' := by
  cases h with
  | ok hstep hab hcalls => exact .ok hstep.weaken hab hcalls
  | error hstep hstop hcalls => exact .error hstep.weaken hstop hcalls

theorem imp (h : c.Outcome strict A w s t out calls out' calls')
    (hA : ∀ w a b, A w a b → A' w a b) : c.Outcome strict A' w s t out calls out' calls' := by
  cases h with
  | ok hstep hab hcalls => exact .ok hstep (hA _ _ _ hab) hcalls
  | error hstep hstop hcalls => exact .error hstep hstop hcalls

/-- The outcome of what comes after a step. -/
theorem after (h : c.Outcome strict A w' s' t' out calls out' calls')
    (hstep : c.Step strict w s t w' s' t') {before before' : List (List Value)}
    (hbefore : List.Forall₂ (List.Forall₂ w') before before') :
    c.Outcome strict A w s t out (before ++ calls) out' (before' ++ calls') := by
  have hmono {w'' : Pairing} (hle : w' ≤ w'') : List.Forall₂ (List.Forall₂ w'') before before' :=
    hbefore.imp fun _ _ h => h.imp hle
  cases h with
  | ok hstep' hab hcalls =>
    exact .ok (hstep.trans hstep') hab (List.rel_append (hmono hstep'.le) hcalls)
  | error hstep' hstop hcalls =>
    exact .error (hstep.trans hstep') hstop (List.rel_append (hmono hstep'.le) hcalls)

end Outcome

/-! ## Rules -/

theorem AlikeAt.bind {x : Op α} {y : Op β} {f : α → Op γ} {g : β → Op δ}
    (hx : c.AlikeAt strict A m w s t x y)
    (hf : ∀ {w' s' t' a b}, c.Step strict w s t w' s' t' → A w' a b →
      c.AlikeAt strict B m w' s' t' (f a) (g b)) :
    c.AlikeAt strict B m w s t (x >>= f) (y >>= g) := by
  unfold AlikeAt at hx ⊢
  rw [Act.run_bind, Act.run_bind, Act.log_bind, Act.log_bind]
  generalize x.run (.ofFuel m) s = out, y.run (.ofFuel c.fuel) t = out' at hx
  cases hx with
  | ok hstep hab hcalls => exact (hf hstep hab).after hstep hcalls
  | error hstep hstop hcalls =>
    simp only [Ending.andThen_error, Ending.after_error, List.append_nil]
    exact .error hstep hstop hcalls

/-- After a run that leaves the stores as they are. -/
theorem AlikeAt.read {x : Op α} {y : Op β} {f : α → Op γ} {g : β → Op δ} {a : α} {b : β}
    (hx : ∀ e, x.run e s = .ok a s) (hy : ∀ e, y.run e t = .ok b t)
    (hx' : ∀ {ρ} (note : Request → Store → List ρ) e, x.log note e s = [])
    (hy' : ∀ {ρ} (note : Request → Store → List ρ) e, y.log note e t = [])
    (h : c.AlikeAt strict B m w s t (f a) (g b)) :
    c.AlikeAt strict B m w s t (x >>= f) (y >>= g) := by
  unfold AlikeAt at h ⊢
  rw [Act.run_bind, Act.run_bind, Act.log_bind, Act.log_bind, hx, hy, hx', hy']
  exact h

theorem AlikeAt.pure {a : α} {b : β} (h : c.Holds w s t) (hab : A w a b) :
    c.AlikeAt strict A m w s t (Pure.pure a) (Pure.pure b) :=
  .ok (.refl h) hab .nil

namespace Alike

variable {x : Op α} {y : Op β}

theorem at_ (h : c.Alike A w x y) (hm : c.level ≤ m) (hs : c.Holds w s t) :
    c.AlikeAt strict A m w s t x y :=
  (h hm hs).weaken

theorem imp (h : c.Alike A w x y) (hA : ∀ w a b, A w a b → A' w a b) : c.Alike A' w x y :=
  fun _ _ _ hm hs => (h hm hs).imp hA

/-- What follows from the agreement of the stores can be used. -/
theorem of_holds (h : ∀ {s t}, c.Holds w s t → c.Alike A w x y) : c.Alike A w x y :=
  fun _ _ _ hm hs => h hs hm hs

theorem pure {a : α} {b : β} (hab : A w a b) :
    c.Alike A w (Pure.pure a : Op α) (Pure.pure b : Op β) :=
  fun _ _ _ _ hs => .pure hs hab

theorem bind {f : α → Op γ} {g : β → Op δ} (hx : c.Alike A w x y)
    (hf : ∀ {w' a b}, w ≤ w' → A w' a b → c.Alike B w' (f a) (g b)) :
    c.Alike B w (x >>= f) (y >>= g) :=
  fun _ _ _ hm hs => (hx hm hs).bind fun hstep hab => hf hstep.le hab hm hstep.holds

theorem discard (hx : c.Alike A w x y) :
    c.Alike (fun _ _ _ => True) w (Functor.discard x) (Functor.discard y) :=
  hx.bind fun _ _ => pure trivial

theorem view {f : Store → α} {g : Store → β} (h : ∀ {s t}, c.Holds w s t → A w (f s) (g t)) :
    c.Alike A w (Eval.view f : Op α) (Eval.view g : Op β) :=
  fun _ _ _ _ hs => .ok (.refl hs) (h hs) .nil

/-- A change of both stores that the data keep in agreement. -/
theorem change {k k' : Change} {f : Store → α} {g : Store → β} {hk : k.allowed .library = true}
    {hk' : k'.allowed .library = true}
    (h : ∀ {s t}, c.Holds w s t → ∃ w', Onward w s t w' (k.apply s) (k'.apply t) ∧
      DataStep s (k.apply s) ∧ DataStep t (k'.apply t) ∧ A w' (f s) (g t)) :
    c.Alike A w (.change k f hk) (.change k' g hk') := by
  intro m s t _ hs
  obtain ⟨w', ho, hdata, hdata', hab⟩ := h hs
  exact .ok (hs.step ho hdata hdata') hab .nil

end Alike

theorem Answers.perform (hc : c.Answers) {r r' : Request} {h : r.allowed .library = true}
    {h' : r'.allowed .library = true} (hr : c.Asks w r r') :
    c.Alike id w (Eval.perform r h) (Eval.perform r' h') := by
  intro m s t hm hs
  rw [AlikeAt, run_perform, run_perform]
  exact hc hm hs hr

end Alike

end Comparison

/-! ## Operations

What the operations on collections are made of, applied to values that stand for each other.
-/

namespace Comparison

variable {c : Comparison} {w : Pairing} {v v' a a' b b' : Value}

namespace Alike

/-! ### Making objects -/

theorem newObject {k : CoreClass} {p q : Payload} (hpq : p.Like w q) {hp : p.isNew = .true}
    {hq : q.isNew = .true} : c.Alike id w (Eval.newObject k p hp) (Eval.newObject k q hq) :=
  change fun {s t} h => by
    have hlike : Object.Like w { cls := k.value, payload := p } { cls := k.value, payload := q } :=
      ⟨hpq, .nil⟩
    have hlink : p.link? = none := by
      cases p <;> first | rfl | cases hp
    exact ⟨_, h.toAgrees.alloc rfl rfl hlike hlink, .alloc hlink,
      .alloc (hpq.link?_eq_none hlink), Pairing.add_self⟩

theorem newArray {xs ys : Array Value} (h : List.Forall₂ w xs.toList ys.toList) :
    c.Alike id w (Eval.newArray xs) (Eval.newArray ys) :=
  newObject (.array h)

theorem newList {xs ys : List Value} (h : List.Forall₂ w xs ys) :
    c.Alike id w (Eval.newList xs) (Eval.newList ys) :=
  newArray h

theorem newHash : c.Alike id w Eval.newHash Eval.newHash :=
  newObject (.hash ⟨.nil, .none, .none⟩)

theorem newInt (i : Int) : c.Alike id w (Eval.newInt i) (Eval.newInt i) := by
  intro m s t _ h
  have hlog {ρ : Type} (note : Request → Store → List ρ) (e : Engine) (u : Store) :
      (Eval.newInt i).log note e u = [] := by
    rw [Eval.newInt, Act.log_bind, run_view]
    simp only [Ending.after_ok]
    split <;> rfl
  unfold AlikeAt
  rw [hlog, hlog]
  cases hi : s.config.interns i with
  | true =>
    have hi' : t.config.interns i = true := by rw [h.config, hi]
    rw [Store.newInt_run_interned hi, Store.newInt_run_interned hi', h.config]
    exact .ok (.refl h) (h.interned hi) .nil
  | false =>
    have hi' : t.config.interns i = false := by rw [h.config, hi]
    rw [Store.newInt_run_fresh hi, Store.newInt_run_fresh hi']
    exact .ok (h.alloc rfl rfl ⟨.integer, .nil⟩ rfl) Pairing.add_self .nil

theorem newNat (n : Nat) : c.Alike id w (Eval.newNat n) (Eval.newNat n) := newInt n

theorem newBool (x : Bool) : c.Alike id w (Eval.newBool x) (Eval.newBool x) :=
  of_holds fun h => pure (h.ofBool x)

/-! ### Exceptions -/

theorem fail {α β : Type} {A : Pairing → α → β → Prop} (k : CoreClass) (message : String)
    (h : k ≠ .systemStackError) : c.Alike A w (.fail k message h) (.fail k message h) := by
  intro m s t _ hs
  let text : Object := { cls := CoreClass.string.value, payload := .text message }
  let failure (v : Value) : Object :=
    { cls := k.value, payload := .object, ivars := ({} : Dict Value).insert "@message" v }
  have htext : c.Step True w s t _ (s.alloc text).2 (t.alloc text).2 :=
    hs.alloc (k := .string) rfl rfl ⟨.text, .nil⟩ rfl
  have hexc : c.Step True _ _ _ _ ((s.alloc text).2.alloc (failure ⟨s.objects.size⟩)).2
      ((t.alloc text).2.alloc (failure ⟨t.objects.size⟩)).2 :=
    htext.holds.alloc (k := k) rfl rfl ⟨.object, .cons ⟨rfl, Pairing.add_self⟩ .nil⟩ rfl
  exact .error (htext.trans hexc) (.raise Pairing.add_self) .nil

/-! ### Reading -/

theorem payload (h : w v v') :
    c.Alike (fun w p q => p.Like w q) w (Eval.payload v) (Eval.payload v') :=
  view fun hs => hs.payload h

theorem className (h : w v v') : c.Alike Pairing.Same w (Eval.className v) (Eval.className v') :=
  view fun hs => hs.className h

theorem array? (h : w v v') :
    c.Alike (fun w => Option.Rel fun xs ys => List.Forall₂ w xs.toList ys.toList) w
      (Eval.view (·.array? v)) (Eval.view (·.array? v')) :=
  view fun hs => hs.array? h

theorem word? (h : w v v') :
    c.Alike Pairing.Same w (Eval.view (·.word? v)) (Eval.view (·.word? v')) :=
  view fun hs => hs.word? h

/-- The word that a value holds, if there is one. -/
theorem wordOrZero {x y : Option Value} (h : Option.Rel w x y) :
    c.Alike Pairing.Same w (Eval.view fun s => (x.bind s.word?).getD 0)
      (Eval.view fun s => (y.bind s.word?).getD 0) :=
  view fun hs => by
    cases h with
    | some h => exact congrArg (Option.getD · 0) (hs.word? h)
    | none => rfl

/-! ### Tables -/

theorem lookupEntry (hh : w a a') (hv : w v v') :
    c.Alike (fun w => Option.Rel w) w (Eval.lookupEntry a v) (Eval.lookupEntry a' v') :=
  view fun hs => Table.get?_like (hs.entries hh) fun hk => hs.keyEql hk hv

theorem tableGet? {d d' : Table} (hd : List.Forall₂ w.Entry d.pairs d'.pairs) (hv : w v v') :
    c.Alike (fun w => Option.Rel w) w (Eval.tableGet? d v) (Eval.tableGet? d' v') :=
  view fun hs => Table.get?_like hd fun hk => hs.keyEql hk hv

theorem tableInsert {d d' : Table} (hd : List.Forall₂ w.Entry d.pairs d'.pairs) (hv : w v v')
    (hb : w b b') :
    c.Alike (fun w x y => List.Forall₂ w.Entry x.pairs y.pairs) w (Eval.tableInsert d v b)
      (Eval.tableInsert d' v' b') :=
  view fun hs => Table.insert_like hd (fun hk => hs.keyEql hk hv) hv hb

theorem insertEntry (hh : w a a') (hv : w v v') (hb : w b b') :
    c.Alike Pairing.Same w (Eval.insertEntry a v b) (Eval.insertEntry a' v' b') :=
  change fun {s t} hs => by
    refine ⟨w, hs.toAgrees.modify hh (refills_withHash _) (refills_withHash _) ?_,
      .modify (refills_withHash _), .modify (refills_withHash _), rfl⟩
    have ho := hs.object hh
    have hlike := ho.payload
    simp only [HashEdit.apply, if_pos (hs.left hv), if_pos (hs.right hv), Store.hash?,
      Store.payload]
    generalize (s.object a).payload = p, (t.object a').payload = q at hlike
    cases hlike with
    | hash hhash =>
      exact ⟨.hash ⟨Table.insert_like hhash.table (fun hk => hs.keyEql hk hv) hv hb,
        hhash.fallback, hhash.fallbackProc⟩, ho.ivars⟩
    | _ => exact ho

theorem pushItem (hh : w a a') (hv : w v v') :
    c.Alike Pairing.Same w (update (.modifyItems a (·.push v)))
      (update (.modifyItems a' (·.push v'))) :=
  change fun {s t} hs => by
    refine ⟨w, hs.toAgrees.modify hh (refills_withItem v) (refills_withItem v') ?_,
      .modify (refills_withItem v), .modify (refills_withItem v'), rfl⟩
    have ho := hs.object hh
    have hlike := ho.payload
    generalize (s.object a).payload = p, (t.object a').payload = q at hlike
    cases hlike with
    | array hxs =>
      refine ⟨.array ?_, ho.ivars⟩
      rw [Array.toList_push, Array.toList_push]
      exact List.rel_append hxs (.cons hv .nil)
    | _ => exact ho

theorem truthy (h : w v v') :
    c.Alike Pairing.Same w (Pure.pure v.truthy : Op Bool) (Pure.pure v'.truthy : Op Bool) :=
  of_holds fun hs => pure (hs.truthy h)

end Alike

/-! ### Messages and calls of the block -/

namespace Answers

variable (hc : c.Answers)

include hc

theorem callBlock {args args' : List Value} (hb : c.block = some b) (hb' : c.block' = some b')
    (h : List.Forall₂ w args args') :
    c.Alike id w (Eval.callBlock b args) (Eval.callBlock b' args') :=
  hc.perform (.call hb hb' h)

theorem send {name : String} {args args' : List Value} (hname : c.sends name) (hv : w v v')
    (h : List.Forall₂ w args args') :
    c.Alike id w (Eval.send v name args none) (Eval.send v' name args' none) :=
  hc.perform (.send hname hv h)

/-- A message whose answer only counts as true or not. -/
theorem asks {name : String} (hname : c.sends name) (ha : w a a') (hb : w b b') :
    c.Alike Pairing.Same w
      (do
        let r ← Eval.send a name [b] none
        Pure.pure r.truthy)
      (do
        let r ← Eval.send a' name [b'] none
        Pure.pure r.truthy) :=
  (hc.send hname ha (.cons hb .nil)).bind fun _ hr => .truthy hr

theorem equals (hname : c.sends "==") (ha : w a a') (hb : w b b') :
    c.Alike Pairing.Same w (Eval.equals a b) (Eval.equals a' b') := by
  refine .of_holds fun hs => ?_
  rw [Eval.equals, Eval.equals, hs.beq ha hb]
  split
  · exact .pure rfl
  · refine (Alike.payload ha).bind fun hw hp => (Alike.payload (hw _ _ hb)).bind fun hw' hq => ?_
    have hasked := hc.asks hname (hw' _ _ (hw _ _ ha)) (hw' _ _ (hw _ _ hb))
    cases hp <;> cases hq <;> first | exact .pure rfl | exact hasked

theorem caseEquals (hname : c.sends "===") (ha : w a a') (hb : w b b') :
    c.Alike Pairing.Same w (Eval.caseEquals a b) (Eval.caseEquals a' b') :=
  hc.asks hname ha hb

/-- The text that a number or nil is shown by, and the class of anything else. -/
theorem inspectOrClass (hname : c.sends "inspect") (hv : w v v') :
    c.Alike Pairing.Same w (Eval.inspectOrClass v) (Eval.inspectOrClass v') := by
  have hinspected : c.Alike (fun w => Option.Rel w) w (.inspected v id) (.inspected v' id) := by
    intro m s t hm hs
    rw [AlikeAt]
    simp only [Act.run, Act.log, hs.isNumberOrNil hv]
    split
    · have hout := hc hm hs (.send hname hv .nil)
      simp only [Request.inspection] at hout ⊢
      generalize (Engine.ofFuel m).perform _ s = out, (Engine.ofFuel c.fuel).perform _ t = out'
        at hout
      cases hout with
      | ok hstep hab hcalls => exact .ok hstep (.some hab) hcalls
      | error hstep hstop hcalls =>
        cases hstop with
        | exhausted => exact .error hstep .exhausted hcalls
        | _ => exact .ok hstep .none hcalls
    · exact .ok (.refl hs) .none .nil
  refine hinspected.bind fun hw hout => ?_
  cases hout with
  | some hout =>
    refine .view fun hs => ?_
    rw [Pairing.Same, hs.text? hout, hs.defaultText (hw _ _ hv)]
  | none => exact .className (hw _ _ hv)

theorem order (hname : c.sends "<=>") (hinspect : c.sends "inspect") (ha : w a a') (hb : w b b') :
    c.Alike Pairing.Same w (Eval.order a b) (Eval.order a' b') := by
  have hplain : c.Alike Pairing.Same w (Eval.view (plainOrder? · a b))
      (Eval.view (plainOrder? · a' b')) := .view fun hs => hs.plainOrder? ha hb
  refine hplain.bind fun {_ o _} hw heq => ?_
  cases heq
  cases o with
  | some o => exact .pure rfl
  | none =>
    refine (hc.send hname (hw _ _ ha) (.cons (hw _ _ hb) .nil)).bind fun hw₁ hr => ?_
    refine (Alike.word? hr).bind fun {_ n _} hw₂ heq => ?_
    cases heq
    cases n with
    | some n => exact .pure rfl
    | none =>
      have hle := (hw.trans hw₁).trans hw₂
      refine (hc.inspectOrClass hinspect (hle _ _ hb)).bind fun hw₃ hshown => ?_
      refine (Alike.className ((hle.trans hw₃) _ _ ha)).bind fun _ hkind => ?_
      cases hshown
      cases hkind
      exact .fail ..

end Answers

end Comparison

end Garnet
