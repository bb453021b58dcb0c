import Garnet.Proofs.Equality.Keys
import Garnet.Proofs.Heap
import Mathlib.Data.Fintype.Card

/-!
# Keys as data

A key that is nil, a boolean, an integer, a text, a symbol or an array of such keys stands for a
datum that can be written down without a heap. Two keys are equal exactly when they stand for the
same datum: the nesting of what a key stands for takes an object at each level, so that the bound on
the depth of the comparison is never reached.
-/

namespace Garnet

/-- What a key stands for. -/
inductive Datum where
  | nil
  | bool (b : Bool)
  | integer (i : Int)
  | text (t : String)
  | symbol (t : String)
  | list (ds : List Datum)

mutual

/-- What holds of a list of data when it holds of its members holds of all data. -/
@[induction_eliminator]
theorem Datum.induction {P : Datum → Prop} (nil : P .nil) (bool : ∀ b, P (.bool b))
    (integer : ∀ i, P (.integer i)) (text : ∀ t, P (.text t)) (symbol : ∀ t, P (.symbol t))
    (list : ∀ ds, (∀ d ∈ ds, P d) → P (.list ds)) : ∀ d, P d
  | .nil => nil
  | .bool b => bool b
  | .integer i => integer i
  | .text t => text t
  | .symbol t => symbol t
  | .list ds => list ds (Datum.inductionAll nil bool integer text symbol list ds)

theorem Datum.inductionAll {P : Datum → Prop} (nil : P .nil) (bool : ∀ b, P (.bool b))
    (integer : ∀ i, P (.integer i)) (text : ∀ t, P (.text t)) (symbol : ∀ t, P (.symbol t))
    (list : ∀ ds, (∀ d ∈ ds, P d) → P (.list ds)) : ∀ ds : List Datum, ∀ d ∈ ds, P d
  | [] => List.forall_mem_nil _
  | d :: ds => List.forall_mem_cons.mpr
    ⟨Datum.induction nil bool integer text symbol list d,
      Datum.inductionAll nil bool integer text symbol list ds⟩

end

mutual

/-- How many levels a datum has. -/
def Datum.depth : Datum → Nat
  | .list ds => Datum.depthAll ds + 1
  | .nil | .bool _ | .integer _ | .text _ | .symbol _ => 1

def Datum.depthAll : List Datum → Nat
  | [] => 0
  | d :: ds => max d.depth (Datum.depthAll ds)

end

theorem Datum.depth_le_depthAll {d : Datum} {ds : List Datum} (h : d ∈ ds) :
    d.depth ≤ Datum.depthAll ds := by
  induction h with
  | head => exact Nat.le_max_left ..
  | tail _ _ ih => exact Nat.le_trans ih (Nat.le_max_right ..)

/-- The datum itself when it holds no others. -/
def Datum.scalar? : Datum → Option Datum
  | .list _ => none
  | d => some d

def Payload.scalar? : Payload → Option Datum
  | .nil => some .nil
  | .true => some (.bool .true)
  | .false => some (.bool .false)
  | .integer i => some (.integer i)
  | .text t => some (.text t)
  | .symbol t => some (.symbol t)
  | _ => none

namespace Store

mutual

/-- In the store, a value stands for a datum. -/
def Denotes (s : Store) (v : Value) : Datum → Prop
  | .nil => v = .nil ∧ s.payload v = .nil
  | .bool b => v = .ofBool b ∧ s.payload v = if b then .true else .false
  | .integer i => s.payload v = .integer i
  | .text t => s.payload v = .text t
  | .symbol t => s.payload v = .symbol t
  | .list ds => ∃ xs, s.payload v = .array xs ∧ s.DenoteAll xs.toList ds

/-- The values stand for the data one by one. -/
def DenoteAll (s : Store) : List Value → List Datum → Prop
  | [], [] => True
  | v :: vs, d :: ds => s.Denotes v d ∧ s.DenoteAll vs ds
  | [], _ :: _ | _ :: _, [] => False

end

variable {s t : Store} {a b v : Value} {d d' : Datum}

theorem Denotes.index_lt (h : s.Denotes v d) : v.index < s.objects.size := by
  cases d with
  | nil => exact index_lt_of_payload s h.2 nofun
  | bool b =>
    refine index_lt_of_payload s h.2 ?_
    cases b <;> exact nofun
  | integer | text | symbol => exact index_lt_of_payload s h nofun
  | list =>
    obtain ⟨xs, hv, -⟩ := h
    exact index_lt_of_payload s hv nofun

theorem Denotes.scalar? (h : s.Denotes v d) : (s.payload v).scalar? = d.scalar? := by
  cases d with
  | list =>
    obtain ⟨xs, hv, -⟩ := h
    rw [hv]
    rfl
  | nil => rw [h.2]; rfl
  | bool b => rw [h.2]; cases b <;> rfl
  | integer | text | symbol => rw [show s.payload v = _ from h]; rfl

theorem Datum.eq_of_scalar? {c : Datum} (h : d.scalar? = some c) : d = c := by
  cases d <;> first | exact Option.some.inj h | cases h

theorem Denotes.eq_of_scalar? (hd : d.scalar? = some d) (h : s.Denotes v d)
    (h' : s.Denotes v d') : d = d' :=
  (Datum.eq_of_scalar? ((h'.scalar?.symm.trans h.scalar?).trans hd)).symm

mutual

/-- A value stands for one datum only. -/
theorem Denotes.unique : ∀ {v : Value} {d d' : Datum}, s.Denotes v d → s.Denotes v d' → d = d'
  | _, .list _, .list _, ⟨_, hv, h⟩, ⟨_, hv', h'⟩ => by
    cases hv.symm.trans hv'
    exact congrArg _ (DenoteAll.unique h h')
  | _, .list _, .nil, h, h' | _, .list _, .bool _, h, h' | _, .list _, .integer _, h, h'
  | _, .list _, .text _, h, h' | _, .list _, .symbol _, h, h' => (h'.eq_of_scalar? rfl h).symm
  | _, .nil, _, h, h' | _, .bool _, _, h, h' | _, .integer _, _, h, h' | _, .text _, _, h, h'
  | _, .symbol _, _, h, h' => h.eq_of_scalar? rfl h'

theorem DenoteAll.unique : ∀ {vs : List Value} {ds ds' : List Datum},
    s.DenoteAll vs ds → s.DenoteAll vs ds' → ds = ds'
  | [], [], [], _, _ => rfl
  | _ :: _, _ :: _, _ :: _, ⟨h, hs⟩, ⟨h', hs'⟩ =>
    congrArg₂ _ (Denotes.unique h h') (DenoteAll.unique hs hs')

end

mutual

/-- A value stands for what it stood for when what objects hold is kept. -/
theorem Denotes.mono (h : ∀ v p, s.payload v = p → p ≠ .object → t.payload v = p) :
    ∀ {v : Value} {d : Datum}, s.Denotes v d → t.Denotes v d
  | _, .nil, hv => ⟨hv.1, h _ _ hv.2 Payload.noConfusion⟩
  | _, .bool b, hv => by
    refine ⟨hv.1, h _ _ hv.2 ?_⟩
    cases b <;> exact Payload.noConfusion
  | _, .integer _, hv | _, .text _, hv | _, .symbol _, hv => h _ _ hv Payload.noConfusion
  | _, .list _, ⟨xs, hv, hxs⟩ => ⟨xs, h _ _ hv Payload.noConfusion, DenoteAll.mono h hxs⟩

theorem DenoteAll.mono (h : ∀ v p, s.payload v = p → p ≠ .object → t.payload v = p) :
    ∀ {vs : List Value} {ds : List Datum}, s.DenoteAll vs ds → t.DenoteAll vs ds
  | [], [], _ => trivial
  | _ :: _, _ :: _, ⟨hv, hvs⟩ => ⟨Denotes.mono h hv, DenoteAll.mono h hvs⟩

end

theorem Keeps.denotes (h : s.Keeps t) (hv : s.Denotes v d) : t.Denotes v d :=
  hv.mono fun _ _ hp hne => (h.payload (index_lt_of_payload s hp hne)).trans hp

/-- What stands for a datum and is no scalar is an array. -/
theorem Denotes.array_of_scalar? (h : s.Denotes v d) (hv : (s.payload v).scalar? = none) :
    ∃ xs ds, s.payload v = .array xs ∧ d = .list ds ∧ s.DenoteAll xs.toList ds := by
  rw [h.scalar?] at hv
  cases d with
  | list ds => exact h.imp fun xs hxs => ⟨ds, hxs.1, rfl, hxs.2⟩
  | nil | bool | integer | text | symbol => cases hv

/-- Lists whose members agree only when they stand for one datum stand for one list of data. -/
theorem DenoteAll.eq_of_forall₂ {r : Value → Value → Prop} {vs ws : List Value}
    {ds ds' : List Datum} (h : s.DenoteAll vs ds)
    (hr : ∀ v w d d', s.Denotes v d → s.Denotes w d' → r v w → d = d')
    (h' : s.DenoteAll ws ds') (hvw : List.Forall₂ r vs ws) : ds = ds' := by
  induction hvw generalizing ds ds' with
  | nil =>
    cases ds <;> cases ds' <;> first | rfl | exact h.elim | exact h'.elim
  | cons hvw _ ih =>
    cases ds with
    | nil => exact h.elim
    | cons d ds =>
      cases ds' with
      | nil => exact h'.elim
      | cons d' ds' => exact congrArg₂ _ (hr _ _ _ _ h.1 h'.1 hvw) (ih h.2 h'.2)

/-- Lists that stand for the same data agree in what values of one datum agree in. -/
theorem DenoteAll.forall₂ {r : Value → Value → Prop} {vs ws : List Value} {ds : List Datum}
    (h : s.DenoteAll vs ds) (h' : s.DenoteAll ws ds)
    (hr : ∀ d ∈ ds, ∀ v w, s.Denotes v d → s.Denotes w d → r v w) : List.Forall₂ r vs ws := by
  induction ds generalizing vs ws with
  | nil =>
    cases vs <;> cases ws <;> first | exact .nil | exact h.elim | exact h'.elim
  | cons d ds ih =>
    cases vs with
    | nil => exact h.elim
    | cons v vs =>
      cases ws with
      | nil => exact h'.elim
      | cons w ws =>
        exact .cons (hr d List.mem_cons_self v w h.1 h'.1)
          (ih h.2 h'.2 fun d hd => hr d (List.mem_cons_of_mem _ hd))

/-! ## Equal keys -/

/-- Keys that compare equal, to whatever depth, stand for one datum. -/
theorem Denotes.eq_of_keyEqlWithin {n : Nat} (ha : s.Denotes a d) (hb : s.Denotes b d')
    (h : s.keyEqlWithin n a b = true) : d = d' := by
  induction n generalizing a b d d' with
  | zero => exact ha.unique (eq_of_beq h ▸ hb)
  | succ n ih =>
    have scalars {p : Payload} {c : Datum} (hpa : s.payload a = p) (hpb : s.payload b = p)
        (hp : p.scalar? = some c) : d = d' := by
      have hsa := ha.scalar?
      have hsb := hb.scalar?
      rw [hpa, hp] at hsa
      rw [hpb, hp] at hsb
      exact (Datum.eq_of_scalar? hsa.symm).trans (Datum.eq_of_scalar? hsb.symm).symm
    cases keyEqlWithin_succ.mp h with
    | itself heq => exact ha.unique (heq ▸ hb)
    | integers hpa hpb | texts hpa hpb | symbols hpa hpb => exact scalars hpa hpb rfl
    | floats hpa =>
      obtain ⟨xs, ds, hxs, -⟩ := ha.array_of_scalar? (hpa ▸ rfl)
      cases hpa.symm.trans hxs
    | arrays hpa hpb hxy =>
      obtain ⟨xs, ds, hxs, rfl, hx⟩ := ha.array_of_scalar? (hpa ▸ rfl)
      obtain ⟨ys, ds', hys, rfl, hy⟩ := hb.array_of_scalar? (hpb ▸ rfl)
      cases hpa.symm.trans hxs
      cases hpb.symm.trans hys
      exact congrArg _ (hx.eq_of_forall₂ (fun _ _ _ _ => ih) hy hxy)

/-- Keys that stand for one datum compare equal to the depth of that. -/
theorem Denotes.keyEqlWithin {n : Nat} (ha : s.Denotes a d) (hb : s.Denotes b d)
    (hn : d.depth ≤ n) : s.keyEqlWithin n a b = true := by
  induction n generalizing a b d with
  | zero => cases d <;> cases hn
  | succ n ih =>
    rw [keyEqlWithin_succ]
    cases d with
    | nil | bool => exact .itself (ha.1.trans hb.1.symm)
    | integer => exact .integers ha hb
    | text => exact .texts ha hb
    | symbol => exact .symbols ha hb
    | list ds =>
      obtain ⟨xs, hxs, hx⟩ := ha
      obtain ⟨ys, hys, hy⟩ := hb
      refine .arrays hxs hys (hx.forall₂ hy fun d hd v w hv hw => ih hv hw ?_)
      exact Nat.le_trans (Datum.depth_le_depthAll hd) (Nat.le_of_succ_le_succ hn)

/-! ## The bound on the depth -/

mutual

/-- Inside of a value there is one of each depth up to its own. -/
theorem Denotes.exists_depth : ∀ {v : Value} {d : Datum}, s.Denotes v d → ∀ k, 0 < k →
    k ≤ d.depth → ∃ w e, s.Denotes w e ∧ e.depth = k
  | v, .list ds, h, k, hpos, hk => by
    rcases Nat.lt_or_eq_of_le hk with hlt | rfl
    · obtain ⟨xs, -, hx⟩ := h
      exact hx.exists_depth k hpos (Nat.le_of_lt_succ hlt)
    · exact ⟨v, .list ds, h, rfl⟩
  | v, .nil, h, k, hpos, hk | v, .bool _, h, k, hpos, hk | v, .integer _, h, k, hpos, hk
  | v, .text _, h, k, hpos, hk | v, .symbol _, h, k, hpos, hk =>
    ⟨v, _, h, Nat.le_antisymm hpos hk⟩

theorem DenoteAll.exists_depth : ∀ {vs : List Value} {ds : List Datum}, s.DenoteAll vs ds → ∀ k,
    0 < k → k ≤ Datum.depthAll ds → ∃ w e, s.Denotes w e ∧ e.depth = k
  | [], [], _, _, hpos, hk => absurd hpos (Nat.not_lt_of_le hk)
  | _ :: _, _ :: _, ⟨h, hs⟩, k, hpos, hk =>
    (le_max_iff.mp hk).elim (h.exists_depth k hpos) (hs.exists_depth k hpos)

end

/-- Values of different depths are different objects. -/
theorem Denotes.depth_le_size (h : s.Denotes v d) : d.depth ≤ s.objects.size := by
  choose w e hw he using fun k : Fin d.depth =>
    h.exists_depth (k + 1) (Nat.succ_pos k) (Nat.succ_le_of_lt k.isLt)
  have hinj : Function.Injective
      fun k => (⟨(w k).index, (hw k).index_lt⟩ : Fin s.objects.size) := by
    intro k l hkl
    have hwkl : w k = w l := congrArg Value.mk (congrArg Fin.val hkl)
    have hekl : e k = e l := (hw k).unique (hwkl ▸ hw l)
    exact Fin.ext (Nat.succ_injective ((he k).symm.trans (hekl ▸ he l)))
  simpa using Fintype.card_le_of_injective _ hinj

/-- Keys are equal exactly when they stand for one datum. -/
theorem Denotes.keyEql_iff (ha : s.Denotes a d) (hb : s.Denotes b d') :
    s.keyEql a b = true ↔ d = d' := by
  refine ⟨ha.eq_of_keyEqlWithin hb, ?_⟩
  rintro rfl
  exact ha.keyEqlWithin hb ha.depth_le_size

end Store

end Garnet
