import Garnet.Proofs.Enumerable.Counting

/-!
# Arrays that are split up

What the ways to split an array have in common is that nothing is lost, nothing comes twice, and the
elements of a part stand in their order in the array.
-/

namespace Garnet

open Eval

/-! ## Invariants of a walk that only adds objects -/

namespace Store

variable {s t : Store} {ys : Array Value}

theorem Keeps.keepsArrays (h : s.Keeps t) : s.KeepsArrays t := fun _ _ hv =>
  (h.array? (index_lt_of_array? hv)).trans hv

theorem Whole.withArray (hs : s.Whole) (hys : ∀ y ∈ ys, y.index < s.objects.size) :
    (s.withArray ys).Whole := by
  have hkeeps : s.Keeps (s.withArray ys) := .alloc _
  intro v zs hv w hw
  refine Nat.lt_of_lt_of_le ?_ hkeeps.size_le
  rcases Nat.lt_or_ge v.index s.objects.size with hlt | hge
  · rw [hkeeps.array? hlt] at hv
    exact hs v zs hv w hw
  · have hlast := index_lt_of_array? hv
    have hsize : (s.withArray ys).objects.size = s.objects.size + 1 := Array.size_push _
    have hnew : v = ⟨s.objects.size⟩ := by
      rw [Value.mk.injEq]
      omega
    rw [hnew, array?_eq_some, payload, Store.withArray, object_alloc] at hv
    cases hv
    exact hys w hw

end Store

namespace Eval

variable {e : Engine} {I : Store → Prop} {b recv : Value} {xs : List Value} {s : Store}

/-- Where everything stays as it is, the array does. -/
theorem Steady.keeps (hrecv : s.array? recv = some xs.toArray) :
    Steady (fun t => s.Keeps t ∧ t.Whole) recv xs where
  array _ ht := (ht.1.array? (Store.index_lt_of_array? hrecv)).trans hrecv
  whole _ ht := ht.2
  withArray _ _ ht hys := ⟨ht.1.trans (.alloc _), ht.2.withArray hys⟩

/-- From every store with `I` the block answers each of the elements with itself, and nothing that is
there changes. -/
def AnswersItself (e : Engine) (I : Store → Prop) (b : Value) (xs : List Value) : Prop :=
  ∀ x ∈ xs, ∀ s, I s → ∃ t, (callBlock b [x]).run e s = .ok x t ∧ I t ∧ s.Keeps t

/-- From every store with `I` the block answers each of the elements, for true or for false as `truth`
says. -/
def Decides (e : Engine) (I : Store → Prop) (b : Value) (xs : List Value) (truth : Value → Bool) : Prop :=
  ∀ x ∈ xs, ∀ s, I s → ∃ k t, (callBlock b [x]).run e s = .ok k t ∧ I t ∧ k.truthy = truth x

theorem AnswersItself.answersEach (h : AnswersItself e I b xs) (hI : Steady I recv xs) :
    AnswersEach e (fun t => I t ∧ s.Keeps t) b xs := by
  rintro x hx t ⟨ht, hst⟩
  obtain ⟨u, hrun, hu, htu⟩ := h x hx t ht
  exact ⟨x, u, hrun, ⟨hu, hst.trans htu⟩, hI.index_lt hu hx, htu.keepsArrays⟩

theorem Steady.and_keeps (hI : Steady I recv xs) : Steady (fun t => I t ∧ s.Keeps t) recv xs where
  array _ ht := hI.array _ ht.1
  whole _ ht := hI.whole _ ht.1
  withArray _ _ ht hys := ⟨hI.withArray _ _ ht.1 hys, ht.2.trans (.alloc _)⟩

end Eval

namespace Library

variable {e : Engine} {I : Store → Prop} {b recv : Value} {xs : List Value} {s : Store}
  {truth : Value → Bool}

/-! ## Groups of elements that are their own keys -/

/-- When a block gives every element back, the keys are the elements. -/
theorem keys_eq_of_answersItself {J : Store → Prop} {ks : List Value} (h : AnswersItself e I b xs)
    (hJ : ∀ t, J t → I t) (hks : List.Forall₂ (Answered e J b) xs ks) : ks = xs := by
  induction hks with
  | nil => rfl
  | cons hk _ ih =>
    obtain ⟨hx, hxs⟩ := List.forall_mem_cons.mp h
    obtain ⟨t, u, ht, hrun⟩ := hk
    obtain ⟨w, hitself, -⟩ := hx t (hJ t ht)
    rw [hitself] at hrun
    cases hrun
    rw [ih hxs]

/-- The groups of elements under themselves, by the equality that there is before. -/
theorem groupBy_itself_ends (hI : Steady I recv xs) (hb : AnswersItself e I b xs) (hs : I s)
    (hfuel : xs.length < e.fuel) :
    ∃ out t, (Enumerable.groupBy recv [] (some b)).run e s = .ok out t ∧
      t.HoldsGroups out (grouped s.keyEql (xs.zip xs)) := by
  obtain ⟨ks, u, out, t, hrun, ⟨-, hsu⟩, hks, hagree, hgroups⟩ :=
    groupBy_ends hI.and_keeps (hb.answersEach hI) ⟨hs, .refl s⟩ hfuel
  obtain rfl := keys_eq_of_answersItself hb (fun _ ht => ht.1) hks
  have hgrouped : grouped t.keyEql (ks.zip ks) = grouped s.keyEql (ks.zip ks) := by
    refine grouped_congr ?_
    rw [map_fst_zip_self]
    intro j hj k hk
    rw [hagree j hj k hk]
    exact hsu.keyEql (hI.whole s hs) (hI.index_lt hs hj) (hI.index_lt hs hk)
  exact ⟨out, t, hrun, hgrouped ▸ hgroups⟩

/-! ## Two parts -/

/-- The operation gives a new array of these values. -/
def EndsInList (x : Op Value) (e : Engine) (s : Store) (ys : List Value) : Prop :=
  ∃ out t, x.run e s = .ok out t ∧ t.array? out = some ys.toArray

/-- The elements that the block accepts, or those that it does not, in order. -/
theorem filterBy_ends (keep : Bool) (hI : Steady I recv xs) (hb : Decides e I b xs truth) (hs : I s)
    (hfuel : xs.length < e.fuel) :
    EndsInList (Enumerable.filterBy keep recv [] (some b)) e s (xs.filter (truth · == keep)) := by
  let J (pre : List Value) (p : Progress) (s : Store) : Prop :=
    I s ∧ p.items.toList = pre.filter (truth · == keep)
  have hstep : ∀ pre x p s, pre ++ [x] <+: xs → J pre p s →
      ∃ q t, (visitItem (.filter b keep) p x).run e s = .ok (q, false) t ∧ J (pre ++ [x]) q t := by
    rintro pre x p s hpre ⟨hs, hp⟩
    have hx : x ∈ xs := hpre.subset (List.mem_append_right _ (List.mem_singleton_self x))
    obtain ⟨k, t, hcall, ht, hk⟩ := hb x hx s hs
    refine ⟨if k.truthy == keep then { p with items := p.items.push x } else p, t, ?_, ht, ?_⟩
    · rw [visitItem, Act.run_bind, hcall, Ending.andThen_ok, Act.run_pure]
    · rw [hk, List.filter_append, ← hp, List.filter_singleton]
      cases truth x == keep with
      | true => exact Array.toList_push
      | false => exact (List.append_nil _).symm
  obtain ⟨q, t, hrun, ht, hq⟩ := walk_array_ends (p := {}) (J := J)
    (fun _ _ s hs => hI.array s hs.1) hstep ⟨hs, rfl⟩ hfuel
  have hnone : t.hash? recv = none := by
    rw [Store.hash?, Store.array?_eq_some.mp (hI.array t ht)]
  obtain ⟨u, hnew, hu, -⟩ := newList_run (xs.filter (truth · == keep)) e t
  have hitems : q.items = (xs.filter (truth · == keep)).toArray := by rw [← hq, Array.toArray_toList]
  refine ⟨_, u, ?_, hu⟩
  rw [Enumerable.filterBy, needBlock, Act.run_bind, Act.run_pure, Ending.andThen_ok, Act.run_bind,
    hrun, Ending.andThen_ok, Enumerable.rebuild, Act.run_bind, run_view, Ending.andThen_ok, hnone,
    hitems]
  exact hnew

/-- The operation gives a new array of new arrays of these values. -/
def EndsInLists (x : Op Value) (e : Engine) (s : Store) (cs : List (List Value)) : Prop :=
  ∃ out gs t, x.run e s = .ok out t ∧ t.array? out = some gs.toArray ∧
    List.Forall₂ (fun g (c : List Value) => t.array? g = some c.toArray) gs cs

theorem partition_ends (hI : Steady I recv xs) (hb : Decides e I b xs truth) (hs : I s)
    (hfuel : xs.length < e.fuel) :
    EndsInLists (Enumerable.partition recv [] (some b)) e s
      [xs.filter (truth · == true), xs.filter (truth · == false)] := by
  let J (pre : List Value) (p : Progress) (s : Store) : Prop :=
    I s ∧ p.items.toList = pre.filter (truth · == true) ∧
      p.others.toList = pre.filter (truth · == false)
  have hstep : ∀ pre x p s, pre ++ [x] <+: xs → J pre p s →
      ∃ q t, (visitItem (.partition b) p x).run e s = .ok (q, false) t ∧ J (pre ++ [x]) q t := by
    rintro pre x p s hpre ⟨hs, hitems, hothers⟩
    have hx : x ∈ xs := hpre.subset (List.mem_append_right _ (List.mem_singleton_self x))
    obtain ⟨k, t, hcall, ht, hk⟩ := hb x hx s hs
    refine ⟨if k.truthy then { p with items := p.items.push x }
      else { p with others := p.others.push x }, t, ?_, ht, ?_⟩
    · rw [visitItem, Act.run_bind, hcall, Ending.andThen_ok, Act.run_pure]
    · rw [hk, List.filter_append, List.filter_append, ← hitems, ← hothers]
      rw [List.filter_singleton, List.filter_singleton]
      cases truth x with
      | true => exact ⟨Array.toList_push, (List.append_nil _).symm⟩
      | false => exact ⟨(List.append_nil _).symm, Array.toList_push⟩
  obtain ⟨q, t, hrun, -, hitems, hothers⟩ := walk_array_ends (p := {}) (J := J)
    (fun _ _ s hs => hI.array s hs.1) hstep ⟨hs, rfl, rfl⟩ hfuel
  obtain ⟨u, hyes, hu, -⟩ := newList_run (xs.filter (truth · == true)) e t
  obtain ⟨w, hno, hw, huw⟩ := newList_run (xs.filter (truth · == false)) e u
  obtain ⟨r, hpair, hr, hwr⟩ := newList_run [⟨t.objects.size⟩, ⟨u.objects.size⟩] e w
  refine ⟨_, _, r, ?_, hr, .cons (hwr _ _ (huw _ _ hu)) (.cons (hwr _ _ hw) .nil)⟩
  rw [← hitems, newList, Array.toArray_toList] at hyes
  rw [← hothers, newList, Array.toArray_toList] at hno
  rw [Enumerable.partition, needBlock, Act.run_bind, Act.run_pure, Ending.andThen_ok, Act.run_bind,
    hrun, Ending.andThen_ok, Act.run_bind, hyes, Ending.andThen_ok, Act.run_bind, hno,
    Ending.andThen_ok, hpair]

/-! ## All ways to split an array -/

/-- An array that stays as it is, and blocks that answer each of its elements. To group it by what a
block answers is to put each element into the group of its key, the groups in the order of the
first ones of their keys and the elements in their order; the groups together have the elements of the
array. To count the elements is to take the sizes of the groups in which they are their own keys, and
the counts add up to the length. The two parts by what a block tells of an element are what is selected and
what is rejected. The slices are the array cut after every so many elements, and the overlapping
groups are its windows; they are handed to a block in order, or else are given in an array. Their size
has to be a positive integer of 64 bits: any other integer is refused, with one message for a size
that is not positive and with another one for a size of more than 64 bits. The laws are about arrays,
as nothing else that can be walked through is known to give the same elements twice. -/
theorem split_laws (hI : Steady I recv xs) (hs : I s) (hfuel : xs.length < e.fuel) :
    (∀ b, AnswersEach e I b xs → ∃ ks out t,
      (Enumerable.groupBy recv [] (some b)).run e s = .ok out t ∧
        List.Forall₂ (Answered e I b) xs ks ∧
        let groups := grouped t.keyEql (ks.zip xs)
        t.HoldsGroups out groups ∧ (groups.flatMap (·.2)).Perm xs ∧
          (∀ k ∈ ks, groups.countP (t.keyEql ·.1 k) = 1) ∧ ∀ g ∈ groups, g.2.Sublist xs) ∧
    (s.IntegersCached → (xs.length : Int) ≤ Number.maxWord →
      let groups := grouped s.keyEql (xs.zip xs)
      (∀ b, AnswersItself e I b xs → ∃ out t,
        (Enumerable.groupBy recv [] (some b)).run e s = .ok out t ∧ t.HoldsGroups out groups) ∧
      (∃ out t, (Enumerable.tally recv [] none).run e s = .ok out t ∧ t.HoldsSizes out groups) ∧
        (groups.map (·.2.length)).sum = xs.length) ∧
    (∀ b truth, Decides e I b xs truth →
      let yes := xs.filter (truth · == true)
      let no := xs.filter (truth · == false)
      EndsInLists (Enumerable.partition recv [] (some b)) e s [yes, no] ∧
        EndsInList (Enumerable.filterBy true recv [] (some b)) e s yes ∧
        EndsInList (Enumerable.filterBy false recv [] (some b)) e s no) ∧
    (∀ count (i : Int), s.payload count = .integer i → 0 < i → Number.isWord i →
      SlicesOf i.toNat xs (groupsOf false i.toNat xs) ∧
      groupsOf true i.toNat xs = windows i.toNat xs ∧
      ∀ overlapping,
        EndsInLists (Enumerable.chunked overlapping recv [count] none) e s
          (groupsOf overlapping i.toNat xs) ∧
        ∀ b, CallsKeep e I b → (Enumerable.chunked overlapping recv [count] (some b)).run e s =
          (do
            (groupsOf overlapping i.toNat xs).forM (handOver b)
            pure recv : Op Value).run e s) ∧
    ∀ count (i : Int), s.payload count = .integer i → i ≤ 0 ∨ Number.isWord i = false →
      ∀ overlapping block,
        (Enumerable.chunked overlapping recv [count] block).run e s =
          (argumentError (if Number.isWord i then "invalid slice size" else "integer out of range") :
            Op Value).run e s := by
  refine ⟨fun b hb => ?_, fun hcached hlength => ⟨fun b hb => groupBy_itself_ends hI hb hs hfuel,
    tally_ends (hI.whole s hs) hcached (hI.array s hs) hlength hfuel [] none, ?_⟩,
    fun b truth hb => ⟨partition_ends hI hb hs hfuel, filterBy_ends true hI hb hs hfuel,
      filterBy_ends false hI hb hs hfuel⟩,
    fun count i hcount hi hword => ⟨groupsOf_slices (by omega), groupsOf_windows (by omega),
      fun overlapping => ⟨chunked_lists hI hcount hi hword hs hfuel,
        fun b hb => chunked_block_run hI hcount hi hword hs hfuel hb⟩⟩,
    fun count i hcount h overlapping block => chunked_refused block hcount h⟩
  · obtain ⟨ks, -, out, t, hrun, -, hks, -, hgroups⟩ := groupBy_ends hI hb hs hfuel
    have hlength : ks.length = xs.length := hks.length_eq.symm
    have hsnd : (ks.zip xs).map (·.2) = xs := List.map_snd_zip (Nat.le_of_eq hlength.symm)
    have hfst : (ks.zip xs).map (·.1) = ks := List.map_fst_zip (Nat.le_of_eq hlength)
    have hequiv := t.keyEql_equivalence
    refine ⟨ks, out, t, hrun, hks, hgroups, ?_, fun k hk => ?_, fun g hg => ?_⟩
    · have hperm := perm_grouped (l := ks.zip xs) hequiv
      rwa [hsnd] at hperm
    · rw [← hfst] at hk
      obtain ⟨p, hp, rfl⟩ := List.mem_map.mp hk
      exact countP_grouped hequiv hp
    · obtain ⟨k, -, rfl⟩ := List.mem_map.mp hg
      have hsublist : (members t.keyEql (ks.zip xs) k).Sublist ((ks.zip xs).map (·.2)) :=
        List.filter_sublist.map _
      rwa [hsnd] at hsublist
  · have hsum := sum_grouped (l := xs.zip xs) s.keyEql_equivalence
    rwa [List.length_zip, Nat.min_self] at hsum

/-- The array `[1, 2, 1]`, and the number 2 ^ 63 beside it. -/
def oneAgain : Store where
  config := { cacheMin := 1, cacheMax := 0 }
  objects := #[{ cls := ⟨0⟩, payload := .integer 1 }, { cls := ⟨0⟩, payload := .integer 2 },
    { cls := ⟨0⟩, payload := .integer 1 }, { cls := ⟨0⟩, payload := .array #[⟨0⟩, ⟨1⟩, ⟨2⟩] },
    { cls := ⟨0⟩, payload := .integer (2 ^ 63) }]
  scopes := #[]
  frames := []
  scopeStack := []

/-- One block gives its argument back, and any other one accepts only the first of the elements. -/
def askedForFirst : Engine where
  fuel := 4
  perform
    | .callProc b args _ _, s =>
      .ok (if b = ⟨0⟩ then args.headD .nil else .ofBool (args == [⟨0⟩])) s
    | _, s => .ok .nil s

theorem oneAgain_whole : oneAgain.Whole := by
  intro v xs hxs w hw
  have hv : v.index < 5 := Store.index_lt_of_array? hxs
  have hall : ∀ i < 5, ∀ w ∈ (oneAgain.array? ⟨i⟩).getD #[], w.index < 5 := by decide
  exact hall v.index hv w (by rw [hxs]; exact hw)

/-- The two ones are one group and are counted twice; the first of them is a part of its own. Slices of
two elements leave one, and there are two windows. -/
theorem split_laws_oneAgain :
    let groups : List (Value × List Value) := [(⟨0⟩, [⟨0⟩, ⟨2⟩]), (⟨1⟩, [⟨1⟩])]
    (∃ (ks : List Value) (out : Value) (t : Store), (Enumerable.groupBy ⟨3⟩ [] (some ⟨0⟩)).run askedForFirst oneAgain = .ok out t ∧
      t.HoldsGroups out (grouped t.keyEql (ks.zip [⟨0⟩, ⟨1⟩, ⟨2⟩]))) ∧
    (∃ out t, (Enumerable.groupBy ⟨3⟩ [] (some ⟨0⟩)).run askedForFirst oneAgain = .ok out t ∧
      t.HoldsGroups out groups) ∧
    (∃ out t, (Enumerable.tally ⟨3⟩ [] none).run askedForFirst oneAgain = .ok out t ∧
      t.HoldsSizes out groups) ∧
    EndsInLists (Enumerable.partition ⟨3⟩ [] (some ⟨1⟩)) askedForFirst oneAgain
      [[⟨0⟩], [⟨1⟩, ⟨2⟩]] ∧
    EndsInLists (Enumerable.chunked false ⟨3⟩ [⟨1⟩] none) askedForFirst oneAgain
      [[⟨0⟩, ⟨1⟩], [⟨2⟩]] ∧
    (Enumerable.chunked true ⟨3⟩ [⟨1⟩] (some ⟨0⟩)).run askedForFirst oneAgain =
      (do
        [[⟨0⟩, ⟨1⟩], [⟨1⟩, ⟨2⟩]].forM (handOver ⟨0⟩)
        pure ⟨3⟩ : Op Value).run askedForFirst oneAgain ∧
    (Enumerable.chunked false ⟨3⟩ [⟨4⟩] none).run askedForFirst oneAgain =
      (argumentError "integer out of range" : Op Value).run askedForFirst oneAgain := by
  let xs : List Value := [⟨0⟩, ⟨1⟩, ⟨2⟩]
  have hI : Steady (fun t => oneAgain.Keeps t ∧ t.Whole) ⟨3⟩ xs := .keeps rfl
  obtain ⟨hgroup, htally, hparts, hchunks, hrefused⟩ :=
    split_laws (e := askedForFirst) hI ⟨.refl oneAgain, oneAgain_whole⟩ (by decide)
  have hcached : oneAgain.IntegersCached := Store.integersCached_of_lt (by decide)
  have hitself : AnswersItself askedForFirst (fun t => oneAgain.Keeps t ∧ t.Whole) ⟨0⟩ xs :=
    fun x _ t ht => ⟨t, rfl, ht, .refl t⟩
  have hdecides : Decides askedForFirst (fun t => oneAgain.Keeps t ∧ t.Whole) ⟨1⟩ xs (· == ⟨0⟩) := by
    intro x hx t ht
    refine ⟨_, t, rfl, ht, ?_⟩
    have htruth : ∀ x ∈ xs, (Value.ofBool ([x] == [⟨0⟩])).truthy = (x == ⟨0⟩) := by decide
    exact htruth x hx
  have hkeep : CallsKeep askedForFirst (fun t => oneAgain.Keeps t ∧ t.Whole) ⟨0⟩ := by
    intro t g c v u ht _ hrun
    cases hrun
    exact ht
  obtain ⟨hitselfGroups, htallied, -⟩ := htally hcached (by decide)
  obtain ⟨ks, out, t, hrun, -, hgroups, -⟩ := hgroup ⟨0⟩ fun x hx t ht =>
    ⟨x, t, rfl, ht, hI.index_lt ht hx, fun _ _ h => h⟩
  obtain ⟨-, -, htwo⟩ := hchunks ⟨1⟩ 2 rfl (by decide) (by decide)
  exact ⟨⟨ks, out, t, hrun, hgroups⟩, hitselfGroups ⟨0⟩ hitself, htallied,
    (hparts ⟨1⟩ _ hdecides).1, (htwo false).1, (htwo true).2 ⟨0⟩ hkeep,
    hrefused ⟨4⟩ (2 ^ 63) rfl (.inr (by decide)) false none⟩

/-- There are no slices of 2 ^ 63 elements, although all elements would fit into one. -/
theorem split_laws_beyondWords :
    oneAgain.array? ⟨3⟩ = some #[⟨0⟩, ⟨1⟩, ⟨2⟩] ∧ oneAgain.payload ⟨4⟩ = .integer (2 ^ 63) ∧
      ¬∃ out t, (Enumerable.chunked false ⟨3⟩ [⟨4⟩] none).run askedForFirst oneAgain = .ok out t := by
  have hrun : (Enumerable.chunked false ⟨3⟩ [⟨4⟩] none).run askedForFirst oneAgain =
      (argumentError "integer out of range" : Op Value).run askedForFirst oneAgain :=
    chunked_refused (i := 2 ^ 63) none rfl (.inr (by decide))
  refine ⟨rfl, rfl, ?_⟩
  rw [hrun]
  rintro ⟨out, t, ⟨⟩⟩

end Library

end Garnet
