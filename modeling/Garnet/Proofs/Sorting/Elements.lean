import Garnet.Library.Arrays
import Garnet.Library.Enumerable
import Garnet.Proofs.Heap
import Garnet.Proofs.Sorting.Merging

/-!
# Sorted elements

The operations that sort, and those that look for an extreme element, differ in where the elements
and the comparison come from. What they have in common is said of a comparison that does not stop
on the elements in hand and answers as a total preorder would, in every store that it can meet: the
sort keeps the order of the elements that compare equal, and its first element is the one that the
search for a least one finds.
-/

namespace Garnet

open Eval
open Library (Arrays.first)
open Library.Enumerable hiding none map

/-- From every store with `I`, the comparison of two members of `xs` ends with what `ord` says, in a
store with `I`. -/
def Compares (cmp : Value → Value → Op Ordering) (e : Engine) (I : Store → Prop)
    (ord : Value → Value → Ordering) (xs : List Value) : Prop :=
  ∀ x ∈ xs, ∀ y ∈ xs, ∀ s, I s → ∃ t, (cmp x y).run e s = .ok (ord x y) t ∧ I t

variable {cmp : Value → Value → Op Ordering} {e : Engine} {I : Store → Prop}
  {ord : Value → Value → Ordering} {xs : List Value} {m : Value} {s t u : Store}

/-! ## The sort -/

theorem perm_of_sortedWith {ys : List Value} (h : (sortedWith cmp xs).run e s = .ok ys t) :
    ys.Perm xs := by
  rw [Sorting.sortedWith_run] at h
  exact ((Sorting.ofList_ends xs).of_run h).1

theorem sortedWith_ends (hcmp : Compares cmp e I ord xs) (hord : TotalPreorder ord xs) (hs : I s) :
    ∃ ys t, (sortedWith cmp xs).run e s = .ok ys t ∧ SortedStably ord xs ys ∧ I t := by
  have hends := Sorting.ofList_ends (A := fun x y o => o = ord x y) xs
  have hanswers : ∀ x ∈ xs, ∀ y ∈ xs, ∀ s, I s →
      ∃ o t, (cmp x y).run e s = .ok o t ∧ o = ord x y ∧ I t := fun x hx y hy s hs => by
    obtain ⟨t, hrun, ht⟩ := hcmp x hx y hy s hs
    exact ⟨_, t, hrun, rfl, ht⟩
  obtain ⟨ys, t, hrun, hys, ht⟩ := hends.run_ok hanswers hs
  rw [Sorting.sortedWith_run]
  exact ⟨ys, t, hrun, hys.2 ord (fun _ _ _ => id) hord, ht⟩

/-! ## The least element -/

/-- The search for a least element goes on from the first least one of what it has seen. -/
theorem extreme_from (hord : TotalPreorder ord xs) {seen rest : List Value}
    (hxs : seen ++ rest = xs) (hcmp : Compares cmp e I ord xs) (hm : FirstLeast ord seen m)
    (hs : I s) :
    ∃ n t, (extreme cmp .lt rest (some m)).run e s = .ok (some n) t ∧
      FirstLeast ord xs n ∧ I t := by
  induction rest generalizing seen m s with
  | nil =>
    rw [List.append_nil] at hxs
    exact ⟨m, s, rfl, hxs ▸ hm, hs⟩
  | cons x rest ih =>
    have hmem : m ∈ xs := hxs ▸ List.mem_append_left _ hm.mem
    have hx : x ∈ xs := hxs ▸ List.mem_append_right _ List.mem_cons_self
    obtain ⟨t, hrun, ht⟩ := hcmp x hx m hmem s hs
    have hseen : (seen ++ [x]) ++ rest = xs := by
      rw [List.append_assoc, List.singleton_append, hxs]
    have hnext := FirstLeast.concat (hord.mono (hseen ▸ List.subset_append_left _ _)) hm
    simp only [extreme, Act.run_bind, hrun, Ending.andThen_ok]
    exact ih hseen hnext ht

theorem extreme_ends (hord : TotalPreorder ord xs) (hcmp : Compares cmp e I ord xs) (hs : I s) :
    ∃ n t, (extreme cmp .lt xs none).run e s = .ok n t ∧ I t ∧
      ∀ ys, SortedStably ord xs ys → n = ys.head? := by
  cases xs with
  | nil =>
    refine ⟨none, s, rfl, hs, fun ys hys => ?_⟩
    rw [hys.perm.eq_nil]
    rfl
  | cons x rest =>
    have hx : TotalPreorder ord [x] := hord.mono (by simp)
    obtain ⟨n, t, hrun, hn, ht⟩ := extreme_from hord rfl hcmp (.singleton hx) hs
    refine ⟨some n, t, hrun, ht, fun ys hys => ?_⟩
    cases ys with
    | nil => cases hys.perm.nil_eq
    | cons y ys => rw [hn.unique hord (hys.firstLeast_head hord), List.head?_cons]

/-! ## Elements with keys -/

/-- Every array of `s` is the same array in `t`. -/
def Store.KeepsArrays (s t : Store) : Prop := ∀ v ys, s.array? v = some ys → t.array? v = some ys

/-- The pair of a key with the element `x`. -/
def Store.Pairs (s : Store) (p x : Value) : Prop := ∃ key, s.array? p = some #[key, x]

theorem Store.Pairs.pairValue_eq {p x : Value} (h : s.Pairs p x) : pairValue s p = x := by
  obtain ⟨key, hp⟩ := h
  simp only [pairValue, hp, Option.bind_some, List.getElem?_toArray, List.getElem?_cons_succ,
    List.getElem?_cons_zero, Option.getD_some]

theorem Store.Pairs.keep {p x : Value} (h : s.Pairs p x) (hst : s.KeepsArrays t) : t.Pairs p x :=
  h.imp fun _ hp => hst _ _ hp

theorem newList_run (xs : List Value) (e : Engine) (s : Store) :
    ∃ t, (newList xs).run e s = .ok ⟨s.objects.size⟩ t ∧
      t.array? ⟨s.objects.size⟩ = some xs.toArray ∧ s.KeepsArrays t := by
  let o : Object := { cls := CoreClass.array.value, payload := .array xs.toArray }
  refine ⟨(s.alloc o).2, rfl, ?_, fun _ _ h => Store.array?_alloc o h⟩
  rw [Store.array?_eq_some, Store.payload, Store.object_alloc]

/-- A visit adds the pair of the element with what the block has answered. -/
theorem visitItem_keyed {b item : Value} {p : Progress} {out : Progress × Bool}
    (hb : ∀ x s k t, (callBlock b [x]).run e s = .ok k t → s.KeepsArrays t)
    (h : (visitItem (.keyed b) p item).run e s = .ok out t) :
    ∃ pair, out = ({ p with items := p.items.push pair }, false) ∧ t.Pairs pair item ∧
      s.KeepsArrays t := by
  obtain ⟨key, u, hkey, h⟩ := Act.run_bind_ok h
  obtain ⟨v, hpair, hv, huv⟩ := newList_run [key, item] e u
  rw [Act.run_bind, hpair] at h
  cases h
  exact ⟨_, rfl, ⟨key, hv⟩, fun w ys hw => huv w ys (hb _ _ _ _ hkey w ys hw)⟩

/-- One round of a walk over an array: it looks for the element at a position and visits it. -/
def Eval.arrayRound (v : Visit) (recv : Value) :
    Nat × Progress → Op ((Nat × Progress) ⊕ Progress) :=
  fun (i, p) => do
    match ← view fun s => (s.array? recv).bind (·[i]?) with
    | none => pure (.inr p)
    | some item =>
      let (p, stop) ← visitItem v p item
      pure (if stop then .inr p else .inl (i + 1, p))

/-- After the rounds up to a position there are the pairs of the elements before it. -/
theorem repeatFor_keyed {b recv : Value} {ys : Array Value} {p q : Progress} {i : Nat} (n : Nat)
    (hb : ∀ x s k t, (callBlock b [x]).run e s = .ok k t → s.KeepsArrays t)
    (harr : s.array? recv = some ys) (hp : List.Forall₂ s.Pairs p.items.toList (ys.toList.take i))
    (h : (repeatFor (arrayRound (.keyed b) recv) n (i, p)).run e s = .ok q t) :
    List.Forall₂ t.Pairs q.items.toList ys.toList := by
  induction n generalizing i p s with
  | zero => cases h
  | succ n ih =>
    obtain ⟨out, u, hround, h⟩ := Act.run_bind_ok h
    rw [arrayRound, Act.run_bind, run_view, harr, Option.bind_some, Ending.andThen_ok] at hround
    cases hitem : ys[i]? with
    | none =>
      rw [hitem] at hround
      cases hround
      cases h
      rwa [List.take_of_length_le (by simpa using hitem)] at hp
    | some item =>
      rw [hitem] at hround
      obtain ⟨out', u', hvisit, hround⟩ := Act.run_bind_ok hround
      cases hround
      obtain ⟨pair, rfl, hpair, hkeep⟩ := visitItem_keyed hb hvisit
      refine ih (hkeep _ _ harr) ?_ h
      have htake : ys.toList.take (i + 1) = ys.toList.take i ++ [item] := by
        rw [List.take_add_one, Array.getElem?_toList, hitem, Option.toList_some]
      rw [Array.toList_push, htake]
      exact List.rel_append (hp.imp fun _ _ hx => hx.keep hkeep) (.cons hpair .nil)

/-- The pairs of an array that stays as it is hold its elements in order. -/
theorem keyed_pairs {b recv : Value} {ys : Array Value} {pairs : List Value}
    (hb : ∀ x s k t, (callBlock b [x]).run e s = .ok k t → s.KeepsArrays t)
    (harr : s.array? recv = some ys) (h : (keyed recv (some b)).run e s = .ok pairs t) :
    List.Forall₂ t.Pairs pairs ys.toList := by
  rw [keyed, Act.run_bind, needBlock, Act.run_pure, Ending.andThen_ok] at h
  obtain ⟨p, u, hwalk, h⟩ := Act.run_bind_ok h
  cases h
  rw [walk, Act.run_bind, run_view, harr] at hwalk
  exact repeatFor_keyed e.fuel hb harr .nil hwalk

/-- The pairs compare as their keys do while they stay as they are. -/
theorem compares_orderKeys {pairs : List Value}
    (hkeep : ∀ t, I t → ∀ p ∈ pairs, t.array? p = u.array? p)
    (hcmp : Compares order e I ord (pairs.map (pairKey u))) :
    Compares orderKeys e I (fun p q => ord (pairKey u p) (pairKey u q)) pairs := by
  intro p hp q hq s hs
  have hkey : ∀ p ∈ pairs, pairKey s p = pairKey u p := fun p hp => by
    rw [pairKey, pairKey, hkeep s hs p hp]
  rw [orderKeys, Act.run_bind, run_view, Ending.andThen_ok, hkey p hp, hkey q hq]
  exact hcmp _ (List.mem_map_of_mem hp) _ (List.mem_map_of_mem hq) s hs

theorem TotalPreorder.comap {f : Value → Value} (h : TotalPreorder ord (xs.map f)) :
    TotalPreorder (fun x y => ord (f x) (f y)) xs where
  swap _ hx _ hy := h.swap _ (List.mem_map_of_mem hx) _ (List.mem_map_of_mem hy)
  trans _ hx _ hy _ hz :=
    h.trans _ (List.mem_map_of_mem hx) _ (List.mem_map_of_mem hy) _ (List.mem_map_of_mem hz)

theorem sortByKey_ends {recv : Value} {args : List Value} {block : Option Value}
    {pairs : List Value} (hpairs : (keyed recv block).run e s = .ok pairs u) (hu : I u)
    (hkeep : ∀ t, I t → ∀ p ∈ pairs, t.array? p = u.array? p)
    (hcmp : Compares order e I ord (pairs.map (pairKey u)))
    (hord : TotalPreorder ord (pairs.map (pairKey u))) :
    ∃ ps out t, (sortByKey recv args block).run e s = .ok out t ∧
      SortedStably (fun p q => ord (pairKey u p) (pairKey u q)) pairs ps ∧
      t.array? out = some (ps.map (pairValue u)).toArray := by
  obtain ⟨ps, v, hsort, hps, hv⟩ := sortedWith_ends (compares_orderKeys hkeep hcmp) hord.comap hu
  have hvalues : ps.map (pairValue v) = ps.map (pairValue u) := List.map_congr_left fun p hp => by
    rw [pairValue, pairValue, hkeep v hv p (hps.perm.subset hp)]
  obtain ⟨t, hnew, ht, -⟩ := newList_run (ps.map (pairValue u)) e v
  refine ⟨ps, _, t, ?_, hps, ht⟩
  rw [sortByKey, Act.run_bind, hpairs, Ending.andThen_ok, Act.run_bind]
  refine (congrArg (Ending.andThen · _) hsort).trans ?_
  rw [Ending.andThen_ok, Act.run_bind, run_view, Ending.andThen_ok, hvalues, hnew]

/-! ## The first of a sorted array -/

/-- The first element of a sorted array is the very one that the search for a least one gives. -/
theorem first_sort_ends {recv : Value} {args : List Value} {block : Option Value}
    {items : Array Value} (hitems : (gather recv).run e s = .ok items u) (hu : I u)
    (hcmp : Compares (orderBy block) e I ord items.toList)
    (hord : TotalPreorder ord items.toList) :
    ∃ ys out t m v, (sort recv args block).run e s = .ok out t ∧
      t.array? out = some ys.toArray ∧ SortedStably ord items.toList ys ∧
      (minMax .lt recv [] block).run e s = .ok m v ∧
      (Arrays.first out [] none).run e t = .ok m t := by
  obtain ⟨ys, w, hsort, hys, -⟩ := sortedWith_ends hcmp hord hu
  obtain ⟨n, v, hmin, -, hn⟩ := extreme_ends hord hcmp hu
  obtain ⟨t, hnew, ht, -⟩ := newList_run ys e w
  refine ⟨ys, _, t, n.getD .nil, v, ?_, ht, hys, ?_, ?_⟩
  · rw [sort, Act.run_bind, hitems, Ending.andThen_ok, Act.run_bind]
    exact (congrArg (Ending.andThen · _) hsort).trans hnew
  · rw [minMax, Act.run_bind, atMostOneArg, Act.run_pure, Ending.andThen_ok, Act.run_bind, hitems,
      Ending.andThen_ok, Act.run_bind, hmin, Ending.andThen_ok, Act.run_pure]
  · rw [hn ys hys, Arrays.first, Act.run_bind, Library.Arrays.countArg, Act.run_bind, atMostOneArg,
      Act.run_pure, Ending.andThen_ok, Act.run_pure, Ending.andThen_ok, Act.run_bind,
      Library.Arrays.itemsOf, Act.run_bind, run_view, Ending.andThen_ok, Act.run_pure, ht,
      Option.getD_some, Ending.andThen_ok, Act.run_pure, List.getElem?_toArray,
      List.head?_eq_getElem?]

/-- What a sort comes to, whatever the comparison does. A list that it ends with is a permutation of
the one that it was given. It stops exactly when a comparison that it makes stops, in the same store
and with the same signal. When the comparison does not stop on the elements and answers as a total
preorder would, the sort does end, with the elements in that order and those that compare equal as
they came.

So `sort_by` has the pairs of keys and elements in the order of the keys, with the pairs of equal
keys as they were gathered, which for an array that the block leaves alone is the order of its
elements. And the first element of what `sort` gives is the very object that `min` gives. -/
theorem sort_stable (e : Engine) :
    (∀ cmp xs s,
      (sortedWith cmp xs).run e s = (Sorting.ofList xs).run cmp e s ∧
      (∀ ys t, (sortedWith cmp xs).run e s = .ok ys t → ys.Perm xs) ∧
      (∀ stop t, (sortedWith cmp xs).run e s = .error stop t ↔ ∃ x y u,
        (Sorting.ofList xs).Meets cmp e s x y u ∧ (cmp x y).run e u = .error stop t) ∧
      ∀ I ord, I s → Compares cmp e I ord xs → TotalPreorder ord xs →
        ∃ ys t, (sortedWith cmp xs).run e s = .ok ys t ∧ SortedStably ord xs ys) ∧
    (∀ recv args block pairs s u, (keyed recv block).run e s = .ok pairs u →
      (∀ I ord, I u → (∀ t, I t → ∀ p ∈ pairs, t.array? p = u.array? p) →
        Compares order e I ord (pairs.map (pairKey u)) →
        TotalPreorder ord (pairs.map (pairKey u)) →
        ∃ ps out t, (sortByKey recv args block).run e s = .ok out t ∧
          SortedStably (fun p q => ord (pairKey u p) (pairKey u q)) pairs ps ∧
          t.array? out = some (ps.map (pairValue u)).toArray) ∧
      ∀ b ys, block = some b → s.array? recv = some ys →
        (∀ x s k t, (callBlock b [x]).run e s = .ok k t → s.KeepsArrays t) →
        pairs.map (pairValue u) = ys.toList) ∧
    ∀ recv args block items s u, (gather recv).run e s = .ok items u →
      sorted items.toList block = sortedWith (orderBy block) items.toList ∧
      ∀ I ord, I u → Compares (orderBy block) e I ord items.toList →
        TotalPreorder ord items.toList →
        ∃ ys out t m v, (sort recv args block).run e s = .ok out t ∧
          t.array? out = some ys.toArray ∧ SortedStably ord items.toList ys ∧
          (minMax .lt recv [] block).run e s = .ok m v ∧
          (Arrays.first out [] none).run e t = .ok m t := by
  refine ⟨fun cmp xs s => ⟨Sorting.sortedWith_run xs s, fun _ _ => perm_of_sortedWith,
    fun stop t => ?_, fun I ord hs hcmp hord => ?_⟩,
    fun recv args block pairs s u hpairs => ⟨fun I ord hu hkeep hcmp hord =>
      sortByKey_ends hpairs hu hkeep hcmp hord, fun b ys hb harr hkeep => ?_⟩,
    fun recv args block items s u hitems => ⟨rfl, fun I ord hu hcmp hord =>
      first_sort_ends hitems hu hcmp hord⟩⟩
  · rw [Sorting.sortedWith_run]
    exact Sorting.run_error_iff
  · obtain ⟨ys, t, hrun, hys, -⟩ := sortedWith_ends hcmp hord hs
    exact ⟨ys, t, hrun, hys⟩
  · subst hb
    have hall := (keyed_pairs hkeep harr hpairs).imp fun _ _ h => h.pairValue_eq
    rwa [← List.forall₂_map_left_iff, List.forall₂_eq_eq_eq] at hall

/-- Numbers and texts compare without a message. -/
theorem compares_order (h : ∀ x ∈ xs, ∀ y ∈ xs, plainOrder? u x y = some (ord x y)) :
    Compares order e (· = u) ord xs := by
  rintro x hx y hy s rfl
  refine ⟨s, ?_, rfl⟩
  rw [order, Act.run_bind, run_view, Ending.andThen_ok, h x hx y hy, Act.run_pure]

/-- Three integers, the last two of them equal, and an array of them. -/
def oneTwice : Store where
  config := {}
  objects := #[{ cls := ⟨0⟩, payload := .integer 2 }, { cls := ⟨0⟩, payload := .integer 1 },
    { cls := ⟨0⟩, payload := .integer 1 }, { cls := ⟨0⟩, payload := .array #[⟨0⟩, ⟨1⟩, ⟨2⟩] }]
  scopes := #[]
  frames := []
  scopeStack := []

/-- The order of the three. -/
def oneTwiceOrder (x y : Value) : Ordering := (plainOrder? oneTwice x y).getD .eq

/-- Answers every call of a block with the first argument. -/
def echo : Engine where
  fuel := 4
  perform
    | .callProc _ args _ _, s => .ok (args.headD .nil) s
    | _, s => .ok .nil s

/-- The equal integers stay in place, also when they are their own keys, and the first of the two is
the least one. -/
theorem sort_stable_oneTwice :
    (∃ ys t, (sortedWith order [⟨0⟩, ⟨1⟩, ⟨2⟩]).run echo oneTwice = .ok ys t ∧
      ys.filter (oneTwiceOrder ⟨1⟩ · == .eq) = [⟨1⟩, ⟨2⟩]) ∧
    (∃ out t, (sortByKey ⟨3⟩ [] (some .nil)).run echo oneTwice = .ok out t) ∧
    ∃ out t m v, (sort ⟨3⟩ [] none).run echo oneTwice = .ok out t ∧
      (minMax .lt ⟨3⟩ [] none).run echo oneTwice = .ok m v ∧
      (Arrays.first out [] none).run echo t = .ok m t := by
  obtain ⟨hsort, hkeyed, hfirst⟩ := sort_stable echo
  have hord : TotalPreorder oneTwiceOrder [⟨0⟩, ⟨1⟩, ⟨2⟩] := ⟨by decide, by decide⟩
  have hcmp : Compares order echo (· = oneTwice) oneTwiceOrder [⟨0⟩, ⟨1⟩, ⟨2⟩] :=
    compares_order (by decide)
  have hkeys : Compares order echo (· = ((keyed ⟨3⟩ (some .nil)).run echo oneTwice).store)
      oneTwiceOrder [⟨0⟩, ⟨1⟩, ⟨2⟩] := compares_order (by decide)
  refine ⟨?_, ?_, ?_⟩
  · obtain ⟨ys, t, hrun, hys⟩ := (hsort order [⟨0⟩, ⟨1⟩, ⟨2⟩] oneTwice).2.2.2 (· = oneTwice)
      oneTwiceOrder rfl hcmp hord
    exact ⟨ys, t, hrun, hys.stable ⟨1⟩ (by decide)⟩
  · obtain ⟨ps, out, t, hrun, -⟩ := (hkeyed ⟨3⟩ [] (some .nil) [⟨4⟩, ⟨5⟩, ⟨6⟩] oneTwice _ rfl).1
      (· = _) oneTwiceOrder rfl (fun _ h _ _ => h ▸ rfl) hkeys hord
    exact ⟨out, t, hrun⟩
  · obtain ⟨ys, out, t, m, v, hrun, -, -, hmin, hm⟩ :=
      (hfirst ⟨3⟩ [] none #[⟨0⟩, ⟨1⟩, ⟨2⟩] oneTwice oneTwice rfl).2 (· = oneTwice) oneTwiceOrder rfl
        hcmp hord
    exact ⟨out, t, m, v, hrun, hmin, hm⟩

end Garnet
