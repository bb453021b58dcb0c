import Garnet.Proofs.Ranges.Elements

/-!
# Nested arrays

What an array holds is laid out as a nest: its elements one after another, each array among them with
a nest of its own. There is a nest for each array that does not lead back to itself. To flatten an
array is to open the arrays of its nest, so many levels deep or all of them, and to join it is to
write what is left then.
-/

namespace Garnet

open Eval Relation

/-- A row of elements. An array among them comes with the row of what it holds. -/
inductive Nest where
  | nil
  | leaf (v : Value) (rest : Nest)
  | list (v : Value) (items rest : Nest)

namespace Nest

/-- The elements of the row. -/
def roots : Nest → List Value
  | nil => []
  | leaf v rest => v :: rest.roots
  | list v _ rest => v :: rest.roots

/-- What is not an array, on any level, from left to right. -/
def leaves : Nest → List Value
  | nil => []
  | leaf v rest => v :: rest.leaves
  | list _ items rest => items.leaves ++ rest.leaves

/-- How many levels of arrays there are inside. -/
def depth : Nest → Nat
  | nil => 0
  | leaf _ rest => rest.depth
  | list _ items rest => max (items.depth + 1) rest.depth

/-- The number of elements on all levels. -/
def size : Nest → Nat
  | nil => 0
  | leaf _ rest => rest.size + 1
  | list _ items rest => items.size + rest.size + 1

def append : Nest → Nest → Nest
  | nil, m => m
  | leaf v rest, m => leaf v (rest.append m)
  | list v items rest, m => list v items (rest.append m)

/-- Opens the arrays of the row, and those in them, up to a depth. -/
def spread : Nat → Nest → Nest
  | _, nil => nil
  | d, leaf v rest => leaf v (spread d rest)
  | 0, list v items rest => list v items (spread 0 rest)
  | d + 1, list _ items rest => (spread d items).append (spread (d + 1) rest)

/-- In the store, each array of the nest holds the row that comes with it. -/
def Of (s : Store) : Nest → Prop
  | nil => True
  | leaf v rest => v.index < s.objects.size ∧ s.array? v = none ∧ rest.Of s
  | list v items rest => s.array? v = some items.roots.toArray ∧ items.Of s ∧ rest.Of s

variable {s t : Store} {n m : Nest} {d e : Nat}

/-! ## Opening arrays -/

@[simp] theorem roots_append : (n.append m).roots = n.roots ++ m.roots := by
  induction n with
  | nil => rfl
  | leaf v rest ih => exact congrArg (v :: ·) ih
  | list v items rest _ ih => exact congrArg (v :: ·) ih

@[simp] theorem leaves_append : (n.append m).leaves = n.leaves ++ m.leaves := by
  induction n with
  | nil => rfl
  | leaf v rest ih => exact congrArg (v :: ·) ih
  | list v items rest _ ih =>
    exact (congrArg (items.leaves ++ ·) ih).trans (List.append_assoc ..).symm

@[simp] theorem size_append : (n.append m).size = n.size + m.size := by
  induction n with
  | nil => exact (Nat.zero_add _).symm
  | leaf v rest ih => exact (congrArg (· + 1) ih).trans (Nat.add_right_comm ..)
  | list v items rest _ ih =>
    change items.size + (rest.append m).size + 1 = items.size + rest.size + 1 + m.size
    rw [ih]
    omega

@[simp] theorem of_append : (n.append m).Of s ↔ n.Of s ∧ m.Of s := by
  induction n with
  | nil => exact ⟨fun h => ⟨trivial, h⟩, And.right⟩
  | leaf v rest ih | list v items rest _ ih =>
    constructor
    · rintro ⟨hv, hrow, h⟩
      exact ⟨⟨hv, hrow, (ih.mp h).1⟩, (ih.mp h).2⟩
    · rintro ⟨⟨hv, hrow, h⟩, hm⟩
      exact ⟨hv, hrow, ih.mpr ⟨h, hm⟩⟩

theorem append_assoc {k : Nest} : (n.append m).append k = n.append (m.append k) := by
  induction n with
  | nil => rfl
  | leaf v rest ih => exact congrArg (leaf v) ih
  | list v items rest _ ih => exact congrArg (list v items) ih

theorem spread_append : (n.append m).spread d = (n.spread d).append (m.spread d) := by
  induction n with
  | nil => rfl
  | leaf v rest ih => exact congrArg (leaf v) ih
  | list v items rest _ ih =>
    cases d with
    | zero => exact congrArg (list v items) ih
    | succ d => exact (congrArg (items.spread d).append ih).trans append_assoc.symm

@[simp] theorem spread_zero : n.spread 0 = n := by
  induction n with
  | nil => rfl
  | leaf v rest ih => exact congrArg (leaf v) ih
  | list v items rest _ ih => exact congrArg (list v items) ih

/-- To open arrays twice is to open them as deep as both times together. -/
theorem spread_spread : (n.spread d).spread e = n.spread (d + e) := by
  induction n generalizing d e with
  | nil => rfl
  | leaf v rest ih => exact congrArg (leaf v) ih
  | list v items rest ihitems ih =>
    cases d with
    | zero => rw [spread_zero, Nat.zero_add]
    | succ d =>
      rw [Nat.succ_add]
      change ((items.spread d).append (rest.spread (d + 1))).spread e =
        (items.spread (d + e)).append (rest.spread (d + e + 1))
      rw [spread_append, ihitems, ih, Nat.succ_add]

/-- As many levels as there are leave no arrays. -/
theorem roots_spread_of_le (h : n.depth ≤ d) : (n.spread d).roots = n.leaves := by
  induction n generalizing d with
  | nil => rfl
  | leaf v rest ih => exact congrArg (v :: ·) (ih h)
  | list v items rest ihitems ih =>
    obtain ⟨hitems, hrest⟩ := Nat.max_le.mp h
    cases d with
    | zero => cases hitems
    | succ d =>
      change ((items.spread d).append (rest.spread (d + 1))).roots = items.leaves ++ rest.leaves
      rw [roots_append, ihitems (Nat.le_of_succ_le_succ hitems), ih hrest]

theorem size_spread_le : (n.spread d).size ≤ n.size := by
  induction n generalizing d with
  | nil => exact Nat.le_refl _
  | leaf v rest ih => exact Nat.succ_le_succ ih
  | list v items rest ihitems ih =>
    cases d with
    | zero => rw [spread_zero]
    | succ d =>
      have := ihitems (d := d)
      have := ih (d := d + 1)
      change ((items.spread d).append (rest.spread (d + 1))).size ≤ items.size + rest.size + 1
      rw [size_append]
      omega

theorem Of.spread (h : n.Of s) : (n.spread d).Of s := by
  induction n generalizing d with
  | nil => exact h
  | leaf v rest ih => exact ⟨h.1, h.2.1, ih h.2.2⟩
  | list v items rest ihitems ih =>
    cases d with
    | zero => rwa [spread_zero]
    | succ d => exact of_append.mpr ⟨ihitems h.2.1, ih h.2.2⟩

/-- A nest stays what it is while only new objects are made. -/
theorem Of.grows (h : n.Of s) (hst : s.Grows t) : n.Of t := by
  induction n with
  | nil => exact h
  | leaf v rest ih =>
    obtain ⟨hv, hnone, hrest⟩ := h
    refine ⟨Nat.lt_of_lt_of_le hv hst.size_le, ?_, ih hrest⟩
    rwa [Store.array?, Store.payload, hst.object hv]
  | list v items rest ihitems ih =>
    obtain ⟨hv, hitems, hrest⟩ := h
    refine ⟨?_, ihitems hitems, ih hrest⟩
    exact Store.array?_eq_some.mpr (hst.payload (Store.array?_eq_some.mp hv) Payload.noConfusion)

/-- What the arrays hold leaves nothing open. -/
theorem Of.unique (hn : n.Of s) (hm : m.Of s) (h : n.roots = m.roots) : n = m := by
  induction n generalizing m with
  | nil => cases m <;> first | rfl | cases h
  | leaf v rest ih =>
    obtain ⟨-, hnone, hrest⟩ := hn
    cases m with
    | nil => cases h
    | leaf w rest' =>
      obtain ⟨rfl, htail⟩ := List.cons_eq_cons.mp h
      rw [ih hrest hm.2.2 htail]
    | list w items rest' =>
      obtain ⟨rfl, htail⟩ := List.cons_eq_cons.mp h
      cases hnone.symm.trans hm.1
  | list v items rest ihitems ih =>
    obtain ⟨hv, hitems, hrest⟩ := hn
    cases m with
    | nil => cases h
    | leaf w rest' =>
      obtain ⟨rfl, htail⟩ := List.cons_eq_cons.mp h
      cases hv.symm.trans hm.2.1
    | list w items' rest' =>
      obtain ⟨rfl, htail⟩ := List.cons_eq_cons.mp h
      obtain ⟨hw, hitems', hrest'⟩ := hm
      have hroots : items.roots = items'.roots :=
        congrArg Array.toList (Option.some.inj (hv.symm.trans hw))
      rw [ihitems hitems hitems' hroots, ih hrest hrest' htail]

theorem Of.leaf_of_mem {v : Value} (h : n.Of s) (hv : v ∈ n.leaves) :
    v.index < s.objects.size ∧ s.array? v = none := by
  induction n with
  | nil => cases hv
  | leaf w rest ih =>
    rcases List.mem_cons.mp hv with rfl | hv
    · exact ⟨h.1, h.2.1⟩
    · exact ih h.2.2 hv
  | list w items rest ihitems ih =>
    rcases List.mem_append.mp hv with hv | hv
    · exact ihitems h.2.1 hv
    · exact ih h.2.2 hv

end Nest

/-! ## Arrays that do not lead back to themselves -/

namespace Store

variable {s : Store} {a v w : Value} {xs : Array Value}

/-- `w` is an element of the array `v`. -/
def Element (s : Store) (v w : Value) : Prop := ∃ xs, s.array? v = some xs ∧ w ∈ xs

/-- All that an array leads to by its elements and theirs is there, and none of it leads back to
itself. -/
def Nests (s : Store) (a : Value) : Prop :=
  ∀ v, ReflTransGen s.Element a v → v.index < s.objects.size ∧ ¬TransGen s.Element v v

/-- Arrays that were put together from what was there before them do not lead back. -/
theorem nests_of_older (h : ∀ v w, s.Element v w → w.index < v.index)
    (ha : a.index < s.objects.size) : s.Nests a := by
  have hbelow {v w : Value} (hvw : TransGen s.Element v w) : w.index < v.index := by
    induction hvw with
    | single hvw => exact h _ _ hvw
    | tail _ hwu ih => exact Nat.lt_trans (h _ _ hwu) ih
  intro v hav
  refine ⟨?_, fun hvv => Nat.lt_irrefl _ (hbelow hvv)⟩
  rcases reflTransGen_iff_eq_or_transGen.mp hav with rfl | hav
  · exact ha
  · exact Nat.lt_trans (hbelow hav) ha

/-- Whatever way one goes down in such an array, it comes to an end. -/
theorem Nests.acc (h : s.Nests a) : Acc (fun w v => s.Element v w) a := by
  let Inside := { v // ReflTransGen s.Element a v }
  have hfinite : Finite Inside :=
    Finite.of_injective (fun v : Inside => (⟨v.1.index, (h v.1 v.2).1⟩ : Fin s.objects.size))
      fun v w hvw => Subtype.ext (congrArg Value.mk (congrArg Fin.val hvw))
  let below : Inside → Inside → Prop := fun w v => TransGen s.Element v.1 w.1
  have htrans : IsTrans Inside below := ⟨fun _ _ _ hvw hwu => hwu.trans hvw⟩
  have hirrefl : Std.Irrefl below := ⟨fun v => (h v.1 v.2).2⟩
  have hwf : WellFounded below := Finite.wellFounded_of_trans_of_irrefl below
  -- what is inside of `a` leads to nothing that is not
  have hacc (v : Inside) : Acc (fun w v => s.Element v w) v.1 := by
    induction hwf.apply v with
    | intro v _ ih =>
      exact .intro _ fun w hw => ih ⟨w, v.2.tail hw⟩ (.single hw)
  exact hacc ⟨a, .refl⟩

/-- The row of values, each with what it holds when it is an array. -/
theorem exists_nest {vs : List Value} (hvs : ∀ v ∈ vs, v.index < s.objects.size)
    (h : ∀ v ∈ vs, ∀ xs, s.array? v = some xs → ∃ n : Nest, n.roots = xs.toList ∧ n.Of s) :
    ∃ n : Nest, n.roots = vs ∧ n.Of s := by
  induction vs with
  | nil => exact ⟨.nil, rfl, trivial⟩
  | cons v vs ih =>
    obtain ⟨hv, hvs⟩ := List.forall_mem_cons.mp hvs
    obtain ⟨hnest, hnests⟩ := List.forall_mem_cons.mp h
    obtain ⟨rest, rfl, hrest⟩ := ih hvs hnests
    cases harray : s.array? v with
    | none => exact ⟨.leaf v rest, rfl, hv, harray, hrest⟩
    | some xs =>
      obtain ⟨items, hroots, hitems⟩ := hnest xs harray
      exact ⟨.list v items rest, rfl, by rw [hroots, harray], hitems, hrest⟩

/-- Such an array is laid out as a nest. -/
theorem Nests.exists_nest (h : s.Nests a) (ha : s.array? a = some xs) :
    ∃ n : Nest, n.roots = xs.toList ∧ n.Of s := by
  have hnest : ∀ v, Acc (fun w v => s.Element v w) v → ReflTransGen s.Element a v → ∀ xs,
      s.array? v = some xs → ∃ n : Nest, n.roots = xs.toList ∧ n.Of s := by
    intro v hv
    induction hv with
    | intro v _ ih =>
      intro hav xs hxs
      have helement {w : Value} (hw : w ∈ xs.toList) : s.Element v w :=
        ⟨xs, hxs, Array.mem_toList_iff.mp hw⟩
      refine Store.exists_nest (fun w hw => (h w (hav.tail (helement hw))).1) fun w hw => ?_
      exact ih w (helement hw) (hav.tail (helement hw))
  exact hnest a h.acc .refl xs ha

end Store

/-! ## Flattening -/

namespace Nest

variable {o : Option Int} {v : Value} {n items rest : Nest}

/-- The elements when the arrays of the row are opened, so many levels deep or all of them. -/
def opened (n : Nest) (o : Option Int) : List Value :=
  o.elim n.leaves fun i => (n.spread i.toNat).roots

theorem opened_leaf : (leaf v rest).opened o = v :: rest.opened o := by
  cases o <;> rfl

theorem opened_list_of_pos (ho : o.all (· > 0) = true) :
    (list v items rest).opened o = items.opened (o.map (· - 1)) ++ rest.opened o := by
  cases o with
  | none => rfl
  | some i =>
    have hi : i.toNat = (i - 1).toNat + 1 := by
      simp only [Option.all_some, gt_iff_lt, decide_eq_true_eq] at ho
      omega
    simp only [opened, Option.elim_some, Option.map_some, hi]
    exact roots_append

theorem opened_list_of_not_pos (ho : o.all (· > 0) = false) :
    (list v items rest).opened o = v :: rest.opened o := by
  cases o with
  | none => cases ho
  | some i =>
    have hi : i.toNat = 0 := by
      simp only [Option.all_some, gt_iff_lt, decide_eq_false_iff_not] at ho
      omega
    simp only [opened, Option.elim_some, hi, spread_zero]
    rfl

end Nest

namespace Library

variable {e : Engine} {s t : Store} {n : Nest} {a v : Value} {m : Nat}

theorem repeatFor_step {σ α : Type} {step : σ → Op (σ ⊕ α)} {st st' : σ}
    (h : (step st).run e s = .ok (.inl st') t) :
    (repeatFor step (m + 1) st).run e s = (repeatFor step m st').run e t := by
  simp only [repeatFor, Act.run, h]

/-- One round of opening arrays: the first of the elements still to come is kept or opened. -/
def openRound (p : List (Value × Option Int) × List Value) :
    Op ((List (Value × Option Int) × List Value) ⊕ List Value) := do
  match p.1 with
  | [] => pure (.inr p.2.reverse)
  | (v, depth) :: rest =>
    match ← view (·.array? v), depth.all (· > (0 : Int)) with
    | some items, true =>
      let deeper := depth.map (· - (1 : Int))
      pure (.inl (items.toList.map (·, deeper) ++ rest, p.2))
    | _, _ => pure (.inl (rest, v :: p.2))

theorem flattened_eq (vs : List Value) (o : Option Int) :
    Arrays.flattened vs o = repeatUntil openRound (vs.map (·, o), []) := rfl

theorem openRound_keep {o : Option Int} {todo : List (Value × Option Int)} {out : List Value}
    (h : s.array? v = none ∨ o.all (· > 0) = false) :
    (openRound ((v, o) :: todo, out)).run e s = .ok (.inl (todo, v :: out)) s := by
  rw [openRound, Act.run_bind, run_view, Ending.andThen_ok]
  rcases h with h | h <;> rw [h]
  · rfl
  · cases s.array? v <;> rfl

theorem openRound_open {o : Option Int} {todo : List (Value × Option Int)} {out : List Value}
    {xs : Array Value} (hv : s.array? v = some xs) (ho : o.all (· > 0) = true) :
    (openRound ((v, o) :: todo, out)).run e s =
      .ok (.inl (xs.toList.map (·, o.map (· - 1)) ++ todo, out)) s := by
  rw [openRound, Act.run_bind, run_view, Ending.andThen_ok, hv, ho]
  rfl

/-- The rounds that the row at the front takes, no more than there are elements. -/
theorem repeatFor_openRound (hn : n.Of s) (o : Option Int) (hm : n.size ≤ m)
    (todo : List (Value × Option Int)) (out : List Value) :
    ∃ k, m ≤ k + n.size ∧
      (repeatFor openRound m (n.roots.map (·, o) ++ todo, out)).run e s =
        (repeatFor openRound k (todo, (n.opened o).reverse ++ out)).run e s := by
  induction n generalizing o m todo out with
  | nil => exact ⟨m, Nat.le_refl m, by cases o <;> rfl⟩
  | leaf v rest ih =>
    obtain ⟨hv, hnone, hrest⟩ := hn
    obtain ⟨m, rfl⟩ := Nat.exists_eq_add_of_le' (Nat.le_trans (Nat.le_add_left 1 rest.size) hm)
    obtain ⟨k, hk, hrun⟩ := ih hrest o (Nat.le_of_succ_le_succ hm) todo (v :: out)
    refine ⟨k, Nat.succ_le_succ hk, ?_⟩
    rw [Nest.roots, List.map_cons, List.cons_append, repeatFor_step (openRound_keep (.inl hnone)),
      hrun, Nest.opened_leaf, List.reverse_cons, List.append_assoc, List.singleton_append]
  | list v items rest ihitems ih =>
    obtain ⟨hv, hitems, hrest⟩ := hn
    have hsize : (Nest.list v items rest).size = items.size + rest.size + 1 := rfl
    obtain ⟨m, rfl⟩ : ∃ m', m = m' + 1 := ⟨m - 1, by omega⟩
    cases ho : o.all (· > 0) with
    | true =>
      obtain ⟨j, hj, hinside⟩ := ihitems hitems (o.map (· - 1)) (m := m) (by omega)
        (rest.roots.map (·, o) ++ todo) out
      obtain ⟨k, hk, hrun⟩ := ih hrest o (m := j) (by omega) todo
        ((items.opened (o.map (· - 1))).reverse ++ out)
      refine ⟨k, by omega, ?_⟩
      rw [Nest.roots, List.map_cons, List.cons_append, repeatFor_step (openRound_open hv ho),
        hinside, hrun, Nest.opened_list_of_pos ho, List.reverse_append, List.append_assoc]
    | false =>
      obtain ⟨k, hk, hrun⟩ := ih hrest o (m := m) (by omega) todo (v :: out)
      refine ⟨k, by omega, ?_⟩
      rw [Nest.roots, List.map_cons, List.cons_append, repeatFor_step (openRound_keep (.inr ho)),
        hrun, Nest.opened_list_of_not_pos ho, List.reverse_cons, List.append_assoc,
        List.singleton_append]

theorem flattened_run (hn : n.Of s) (hfuel : n.size < e.fuel) (o : Option Int) :
    (Arrays.flattened n.roots o).run e s = .ok (n.opened o) s := by
  obtain ⟨k, hk, hrun⟩ := repeatFor_openRound (e := e) hn o (Nat.le_of_lt hfuel) [] []
  obtain ⟨k, rfl⟩ : ∃ k', k = k' + 1 := ⟨k - 1, by omega⟩
  rw [List.append_nil, List.append_nil] at hrun
  rw [flattened_eq, repeatUntil]
  refine Eq.trans hrun ?_
  simp only [repeatFor, openRound, Act.run, pure, List.reverse_reverse]

/-- The depth that the arguments ask for. -/
def DepthArg (s : Store) : List Value → Option Int → Prop
  | [], none => True
  | [v], some i => v ≠ .nil ∧ s.payload v = .integer i ∧ Number.isWord i
  | _, _ => False

/-- An array that has the elements of a row opened so far. -/
theorem flatten_makes {args : List Value} {depth : Option Int}
    (ha : s.array? a = some n.roots.toArray) (hn : n.Of s) (hargs : DepthArg s args depth)
    (hfuel : n.size < e.fuel) :
    Makes (Arrays.flatten a args none) e s fun v t => t.array? v = some (n.opened depth).toArray := by
  have hread : (Arrays.flatten a args none).run e s = (newList (n.opened depth)).run e s := by
    have hitems : (Arrays.listOf a).run e s = .ok n.roots s :=
      listOf_run (Store.array?_eq_some.mp ha)
    match args, depth, hargs with
    | [], none, _ =>
      simp only [Arrays.flatten, atMostOneArg, Act.run_bind, Act.run_pure, Ending.andThen_ok, hitems,
        flattened_run hn hfuel]
    | [v], some i, ⟨hv, hi, hword⟩ =>
      have hnil : v.isNil = false := beq_eq_false_iff_ne.mpr hv
      simp only [Arrays.flatten, atMostOneArg, Act.run_bind, Act.run_pure, Ending.andThen_ok, hnil,
        Bool.false_eq_true, if_false, Act.run_map, needWord_run hi hword, hitems,
        flattened_run hn hfuel]
  refine .congr hread ((newArray_makes _).mono fun v t _ hv => ?_)
  rw [Store.array?_eq_some, Store.payload, hv]

theorem DepthArg.grows {d : Int} (h : DepthArg s [v] (some d)) (hst : s.Grows t) :
    DepthArg t [v] (some d) :=
  ⟨h.1, hst.payload h.2.1 nofun, h.2.2⟩

/-- A depth that is no machine word is refused. -/
theorem flatten_refused {i : Int} (hv : v ≠ .nil) (hi : s.payload v = .integer i)
    (hword : Number.isWord i = false) :
    (Arrays.flatten a [v] none).run e s =
      (argumentError "integer out of range" : Op Value).run e s := by
  have hnil : v.isNil = false := beq_eq_false_iff_ne.mpr hv
  simp only [Arrays.flatten, atMostOneArg, needWord, payload, Act.run_bind, Act.run_pure, run_view,
    Ending.andThen_ok, hnil, Bool.false_eq_true, if_false, Act.run_map, hi, hword]
  rfl

/-! ## Joining -/

/-- One round of writing an array: the first of the elements still to come is written or opened. -/
def writeRound (p : List Value × List String) :
    Op ((List Value × List String) ⊕ List String) := do
  match p.1 with
  | [] => pure (.inr p.2.reverse)
  | v :: rest =>
    match ← view (·.array? v) with
    | some items => pure (.inl (items.toList ++ rest, p.2))
    | none =>
      let t ← toText v
      pure (.inl (rest, t :: p.2))

theorem leafTexts_eq (vs : List Value) :
    Arrays.leafTexts vs = repeatUntil writeRound (vs, []) := rfl

/-- The arrays of the row stay as they are while the texts of its leaves are asked for. -/
def Kept (n : Nest) (e : Engine) (s : Store) : Prop :=
  ∀ vs, vs <+: n.leaves → ∀ texts t, (vs.mapM toText).run e s = .ok texts t → n.Of t

/-- They do when the texts are made without a change. -/
theorem Kept.of_unchanged (hn : n.Of s)
    (h : ∀ v ∈ n.leaves, ∀ text t, (toText v).run e s = .ok text t → t = s) : Kept n e s := by
  intro vs hvs texts t hrun
  have hsame : ∀ ws : List Value, (∀ v ∈ ws, v ∈ n.leaves) → ∀ texts t,
      (ws.mapM toText).run e s = .ok texts t → t = s := by
    intro ws hws
    induction ws with
    | nil =>
      rintro texts t ⟨⟩
      rfl
    | cons v ws ih =>
      obtain ⟨hv, hws⟩ := List.forall_mem_cons.mp hws
      intro texts t hrun
      rw [Act.run_mapM_cons] at hrun
      obtain ⟨text, u, htext, hrun⟩ := Act.run_bind_ok hrun
      obtain ⟨texts, u', htexts, hend⟩ := Act.run_bind_ok hrun
      obtain rfl := h v hv text u htext
      rw [← ih hws texts u' htexts]
      cases hend
      rfl
  rw [hsame vs (fun v hv => hvs.subset hv) texts t hrun]
  exact hn

/-- The rounds of the row at the front: as many as there are elements. -/
theorem repeatFor_writeRound (hn : Kept n e s) (todo : List Value) (out : List String) :
    (repeatFor writeRound (n.size + m) (n.roots ++ todo, out)).run e s =
      ((n.leaves.mapM toText).run e s).andThen fun texts =>
        (repeatFor writeRound m (todo, texts.reverse ++ out)).run e := by
  induction n generalizing s m todo out with
  | nil => rw [Nest.size, Nat.zero_add]; rfl
  | leaf v rest ih =>
    obtain ⟨-, hnone, -⟩ := hn [] List.nil_prefix [] s rfl
    have hsize : (Nest.leaf v rest).size + m = rest.size + m + 1 := Nat.add_right_comm ..
    have hround : (writeRound (v :: (rest.roots ++ todo), out)).run e s =
        ((toText v).run e s).andThen fun text => .ok (.inl (rest.roots ++ todo, text :: out)) := by
      rw [writeRound, Act.run_bind, run_view, Ending.andThen_ok, hnone]
      exact Act.run_bind (toText v) _
    rw [hsize, Nest.roots, List.cons_append, repeatFor, Nest.leaves, Act.run_mapM_cons]
    simp only [Act.run, hround]
    cases hv : (toText v).run e s with
    | error => rfl
    | ok text t =>
      have hrest : Kept rest e t := by
        intro vs hvs texts u hrun
        have hcons : ((v :: vs).mapM toText).run e s = .ok (text :: texts) u := by
          rw [Act.run_mapM_cons]
          simp only [Act.run, hv, hrun]
        exact (hn (v :: vs) (List.cons_prefix_cons.mpr ⟨rfl, hvs⟩) _ _ hcons).2.2
      simp only [Ending.andThen_ok, ih hrest]
      cases (rest.leaves.mapM toText).run e t with
      | error => rfl
      | ok texts u =>
        simp only [Ending.andThen_ok, List.reverse_cons, List.append_assoc, List.singleton_append]
  | list v items rest ihitems ih =>
    obtain ⟨hv, -, -⟩ := hn [] List.nil_prefix [] s rfl
    have hsize : (Nest.list v items rest).size + m = items.size + (rest.size + m) + 1 := by
      rw [Nest.size]
      omega
    have hround : (writeRound (v :: (rest.roots ++ todo), out)).run e s =
        .ok (.inl (items.roots ++ (rest.roots ++ todo), out)) s := by
      rw [writeRound, Act.run_bind, run_view, Ending.andThen_ok, hv]
      rfl
    have hitems : Kept items e s := by
      intro vs hvs texts t hrun
      exact (hn vs (hvs.trans (List.prefix_append ..)) texts t hrun).2.1
    rw [hsize, Nest.roots, List.cons_append, repeatFor_step hround, ihitems hitems, Nest.leaves,
      Act.run_mapM_append, Ending.andThen_assoc]
    cases hrun : (items.leaves.mapM toText).run e s with
    | error => rfl
    | ok inside t =>
      have hrest : Kept rest e t := by
        intro vs hvs texts u hvsrun
        refine (hn (items.leaves ++ vs) ?_ (inside ++ texts) u ?_).2.2
        · exact List.prefix_append_right_inj _ |>.mpr hvs
        · rw [Act.run_mapM_append, hrun, Ending.andThen_ok, hvsrun, Ending.andThen_ok]
      simp only [Ending.andThen_ok, ih hrest]
      cases (rest.leaves.mapM toText).run e t with
      | error => rfl
      | ok texts u =>
        simp only [Ending.andThen_ok, List.reverse_append, List.append_assoc]

theorem leafTexts_run (hn : Kept n e s) (hfuel : n.size < e.fuel) :
    (Arrays.leafTexts n.roots).run e s = (n.leaves.mapM toText).run e s := by
  obtain ⟨m, hm⟩ := Nat.exists_eq_add_of_lt hfuel
  have hrun := repeatFor_writeRound (m := m + 1) hn [] []
  rw [List.append_nil, ← Nat.add_assoc, ← hm] at hrun
  rw [leafTexts_eq, repeatUntil]
  refine Eq.trans hrun ?_
  cases (n.leaves.mapM toText).run e s with
  | error => rfl
  | ok texts t =>
    simp only [Ending.andThen_ok, repeatFor, writeRound, Act.run, pure, List.append_nil,
      List.reverse_reverse]

/-- The texts of the leaves, one after another, with the separator between them. -/
theorem join_run {sep : String} (ha : s.array? a = some n.roots.toArray) (hn : Kept n e s)
    (hv : v ≠ .nil) (hsep : s.payload v = .text sep) (hfuel : n.size < e.fuel) :
    (Arrays.join a [v] none).run e s =
      (do newText (sep.intercalate (← n.leaves.mapM toText)) : Op Value).run e s := by
  have hnil : v.isNil = false := beq_eq_false_iff_ne.mpr hv
  have hitems : (Arrays.listOf a).run e s = .ok n.roots s := listOf_run (Store.array?_eq_some.mp ha)
  simp only [Arrays.join, atMostOneArg, needText, payload, Act.run_bind, Act.run_pure, run_view,
    Ending.andThen_ok, hnil, Bool.false_eq_true, if_false, hsep, hitems, leafTexts_run hn hfuel]

/-! ## Levels -/

/-- An array that does not lead back to itself is one nest and no other. To flatten it so many levels
deep and what comes of it so many again is to flatten it as deep as both together, and no level at all
leaves its elements. Without a depth, or with one that no level exceeds, nothing but the leaves is
left, each in its place. To join it is to write the leaves with the separator between them, when the
arrays stay as they are meanwhile. -/
theorem flatten_levels {xs : Array Value} (ha : s.array? a = some xs) (hacyclic : s.Nests a) :
    ∃ n : Nest, (∀ m : Nest, m.Of s ∧ m.roots = xs.toList ↔ m = n) ∧
      ∀ e : Engine, n.size < e.fuel →
        (∀ v w u (d k : Nat), DepthArg s [v] (some d) → DepthArg s [w] (some k) →
          DepthArg s [u] (some (d + k : Nat)) → ∃ ys,
            Makes (do Arrays.flatten (← Arrays.flatten a [v] none) [w] none) e s
              (fun b t => t.array? b = some ys) ∧
            Makes (Arrays.flatten a [u] none) e s fun b t => t.array? b = some ys) ∧
        (∀ v, DepthArg s [v] (some 0) →
          Makes (Arrays.flatten a [v] none) e s fun b t => t.array? b = some xs) ∧
        Makes (Arrays.flatten a [] none) e s (fun b t =>
          t.array? b = some n.leaves.toArray ∧ ∀ w ∈ n.leaves, t.array? w = none) ∧
        (∀ v (d : Nat), DepthArg s [v] (some d) → n.depth ≤ d →
          Makes (Arrays.flatten a [v] none) e s fun b t => t.array? b = some n.leaves.toArray) ∧
        (∀ v i, v ≠ .nil → s.payload v = .integer i → Number.isWord i = false →
          (Arrays.flatten a [v] none).run e s =
            (argumentError "integer out of range" : Op Value).run e s) ∧
        ∀ v sep, v ≠ .nil → s.payload v = .text sep → Kept n e s →
          (Arrays.join a [v] none).run e s =
            (do newText (sep.intercalate (← n.leaves.mapM toText)) : Op Value).run e s := by
  obtain ⟨n, hroots, hn⟩ := hacyclic.exists_nest ha
  have ha' : s.array? a = some n.roots.toArray := by rw [hroots, ha]
  have hunique (m : Nest) : m.Of s ∧ m.roots = xs.toList ↔ m = n := by
    constructor
    · rintro ⟨hm, hmroots⟩
      exact hm.unique hn (hmroots.trans hroots.symm)
    · rintro rfl
      exact ⟨hn, hroots⟩
  refine ⟨n, hunique, fun e hfuel => ⟨?_, ?_, ?_, ?_, fun v i => flatten_refused,
    fun v sep hv hsep hkept => join_run ha' hkept hv hsep hfuel⟩⟩
  · intro v w u d k hv hw hu
    refine ⟨(n.spread (d + k)).roots.toArray, ?_, flatten_makes ha' hn hu hfuel⟩
    refine (flatten_makes ha' hn hv hfuel).bind fun b t ht _ hb => ?_
    have hsize : (n.spread d).size < e.fuel := Nat.lt_of_le_of_lt Nest.size_spread_le hfuel
    have htwice := flatten_makes hb (hn.spread.grows ht) (hw.grows ht) hsize
    rwa [Nest.opened, Option.elim_some, Int.toNat_natCast, Nest.spread_spread] at htwice
  · intro v hv
    have hzero := flatten_makes ha' hn hv hfuel
    rwa [Nest.opened, Option.elim_some, Int.toNat_zero, Nest.spread_zero, hroots] at hzero
  · have hnone : DepthArg s [] none := trivial
    refine (flatten_makes ha' hn hnone hfuel).mono fun b t ht hb => ⟨hb, fun w hw => ?_⟩
    exact ((hn.grows ht).leaf_of_mem hw).2
  · intro v d hv hd
    have hdeep := flatten_makes ha' hn hv hfuel
    rwa [Nest.opened, Option.elim_some, Int.toNat_natCast, Nest.roots_spread_of_le hd] at hdeep

/-- The array `[[1, [2]], 1]`, with the numbers 2 ^ 62 and 2 ^ 63 and a separator beside it. -/
def levels : Store where
  config := {}
  objects := #[{ cls := ⟨0⟩, payload := .integer 1 }, { cls := ⟨0⟩, payload := .integer 2 },
    { cls := ⟨0⟩, payload := .array #[⟨1⟩] }, { cls := ⟨0⟩, payload := .array #[⟨0⟩, ⟨2⟩] },
    { cls := ⟨0⟩, payload := .array #[⟨3⟩, ⟨0⟩] }, { cls := ⟨0⟩, payload := .integer (2 ^ 62) },
    { cls := ⟨0⟩, payload := .integer (2 ^ 63) }, { cls := ⟨0⟩, payload := .text ", " }]
  scopes := #[]
  frames := []
  scopeStack := []

theorem levels_nests : levels.Nests ⟨4⟩ := by
  refine Store.nests_of_older (fun v w hvw => ?_) (by decide)
  obtain ⟨xs, hxs, hw⟩ := hvw
  have hv : v.index < 8 := Store.index_lt_of_array? hxs
  have holder : ∀ i < 8, ∀ w ∈ (levels.array? ⟨i⟩).getD #[], w.index < i := by decide
  exact holder v.index hv w (by rw [hxs]; exact hw)

/-- Answers every request with the separator. -/
def levelsEngine : Engine where
  fuel := 6
  perform _ s := .ok ⟨7⟩ s

/-- Two levels at once and one after the other, and the texts of the three leaves. -/
theorem flatten_levels_oneAndOne :
    (∃ ys, Makes (do Arrays.flatten (← Arrays.flatten ⟨4⟩ [⟨0⟩] none) [⟨0⟩] none) levelsEngine levels
        (fun b t => t.array? b = some ys) ∧
      Makes (Arrays.flatten ⟨4⟩ [⟨1⟩] none) levelsEngine levels fun b t => t.array? b = some ys) ∧
    Makes (Arrays.flatten ⟨4⟩ [⟨1⟩] none) levelsEngine levels
      (fun b t => t.array? b = some #[⟨0⟩, ⟨1⟩, ⟨0⟩]) ∧
    (Arrays.join ⟨4⟩ [⟨7⟩] none).run levelsEngine levels =
      (newText ", , , , , ").run levelsEngine levels := by
  obtain ⟨n, hunique, h⟩ := flatten_levels (s := levels) (a := ⟨4⟩) rfl levels_nests
  -- the nest is written down and recognized
  obtain rfl := (hunique (.list ⟨3⟩ (.leaf ⟨0⟩ (.list ⟨2⟩ (.leaf ⟨1⟩ .nil) .nil)) (.leaf ⟨0⟩ .nil))).mp
    ⟨by simp only [Nest.Of]; decide, rfl⟩
  obtain ⟨htwice, -, -, hdeep, -, hjoin⟩ := h levelsEngine (by decide)
  have hone : DepthArg levels [⟨0⟩] (some (1 : Nat)) := ⟨by decide, rfl, rfl⟩
  have htwo : DepthArg levels [⟨1⟩] (some (2 : Nat)) := ⟨by decide, rfl, rfl⟩
  refine ⟨htwice _ _ _ 1 1 hone hone htwo, hdeep _ 2 htwo (by decide), ?_⟩
  refine hjoin ⟨7⟩ ", " (by decide) rfl (.of_unchanged ((hunique _).mpr rfl).1 ?_)
  intro v hv text t hrun
  fin_cases hv <;> (cases hrun; rfl)

/-- The array is flattened by 2 ^ 62 levels, and by as many again, but not by 2 ^ 63 levels at once. -/
theorem flatten_levels_beyondWords :
    levels.Nests ⟨4⟩ ∧ levels.payload ⟨5⟩ = .integer (2 ^ 62) ∧
      levels.payload ⟨6⟩ = .integer (2 ^ 62 + 2 ^ 62) ∧
      (∃ b t, (do Arrays.flatten (← Arrays.flatten ⟨4⟩ [⟨5⟩] none) [⟨5⟩] none).run levelsEngine levels =
        .ok b t) ∧
      ¬∃ b t, (Arrays.flatten ⟨4⟩ [⟨6⟩] none).run levelsEngine levels = .ok b t := by
  refine ⟨levels_nests, rfl, rfl, ⟨_, _, rfl⟩, ?_⟩
  rw [flatten_refused (i := 2 ^ 63) (by decide) rfl rfl]
  rintro ⟨b, t, ⟨⟩⟩

end Library

end Garnet
