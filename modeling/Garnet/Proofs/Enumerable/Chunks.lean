import Garnet.Proofs.Enumerable.Visits

/-!
# Chunks of an array

The elements of an array come into a buffer one by one. When it is full its elements are handed over
as a group, and then it begins empty, or with all of them but the first. The groups of the one kind
make up the array, those of the other are all of its windows.
-/

namespace Garnet

open Eval

/-! ## Groups of a list -/

section Groups

variable {n : Nat} {overlapping : Bool} {buf xs : List Value}

/-- The groups that fill up with what comes behind the buffer, and what is left in it. -/
def chunks (overlapping : Bool) (n : Nat) : List Value → List Value → List (List Value) × List Value
  | buf, [] => ([], buf)
  | buf, x :: xs =>
    if (buf ++ [x]).length < n then chunks overlapping n (buf ++ [x]) xs
    else
      (chunks overlapping n (if overlapping then (buf ++ [x]).tail else []) xs).map
        ((buf ++ [x]) :: ·) id

/-- All groups of a list: the last one of those that do not overlap need not be full. -/
def groupsOf (overlapping : Bool) (n : Nat) (xs : List Value) : List (List Value) :=
  let c := chunks overlapping n [] xs
  if overlapping || c.2.isEmpty then c.1 else c.1 ++ [c.2]

/-- The windows of `n` elements that follow one another. -/
def windows (n : Nat) (xs : List Value) : List (List Value) :=
  (List.range (xs.length + 1 - n)).map fun i => (xs.drop i).take n

/-- The list, cut after every `n` elements: only the last slice may be shorter, and none is empty. -/
structure SlicesOf (n : Nat) (xs : List Value) (cs : List (List Value)) : Prop where
  flatten : cs.flatten = xs
  full : ∀ c ∈ cs.dropLast, c.length = n
  last : ∀ c ∈ cs.getLast?, 0 < c.length ∧ c.length ≤ n

theorem chunks_flatten :
    (chunks false n buf xs).1.flatten ++ (chunks false n buf xs).2 = buf ++ xs := by
  induction xs generalizing buf with
  | nil => rw [chunks, List.flatten_nil, List.nil_append, List.append_nil]
  | cons x xs ih =>
    rw [chunks]
    split
    · rw [ih, List.append_assoc, List.singleton_append]
    · have hrest : (chunks false n [] xs).1.flatten ++ (chunks false n [] xs).2 = xs := ih
      rw [if_neg Bool.false_ne_true, Prod.map_fst, Prod.map_snd, id, List.flatten_cons,
        List.append_assoc, hrest, List.append_assoc, List.singleton_append]

theorem chunks_full (hbuf : buf.length < n) :
    (∀ c ∈ (chunks overlapping n buf xs).1, c.length = n) ∧
      (chunks overlapping n buf xs).2.length < n := by
  induction xs generalizing buf with
  | nil => exact ⟨List.forall_mem_nil _, hbuf⟩
  | cons x xs ih =>
    rw [chunks]
    split
    · rename_i hlt
      exact ih hlt
    · rename_i hfull
      have hlength : (buf ++ [x]).length = n := by
        rw [List.length_append, List.length_singleton] at hfull ⊢
        omega
      have hnext : (if overlapping then (buf ++ [x]).tail else []).length < n := by
        cases overlapping with
        | true =>
          rw [if_pos rfl, List.length_tail, hlength]
          omega
        | false =>
          rw [if_neg Bool.false_ne_true, List.length_nil]
          omega
      obtain ⟨hfulls, hrest⟩ := ih hnext
      exact ⟨List.forall_mem_cons.mpr ⟨hlength, hfulls⟩, hrest⟩

theorem windows_of_lt (h : xs.length < n) : windows n xs = [] := by
  rw [windows, Nat.sub_eq_zero_of_le h, List.range_zero, List.map_nil]

theorem windows_cons {x : Value} (h : n ≤ xs.length + 1) :
    windows n (x :: xs) = (x :: xs).take n :: windows n xs := by
  have hcount : (x :: xs).length + 1 - n = xs.length + 1 - n + 1 := by
    rw [List.length_cons]
    omega
  rw [windows, hcount, List.range_succ_eq_map, List.map_cons, List.map_map]
  rfl

theorem chunks_windows (hbuf : buf.length < n) :
    (chunks true n buf xs).1 = windows n (buf ++ xs) := by
  induction xs generalizing buf with
  | nil => rw [chunks, List.append_nil, windows_of_lt hbuf]
  | cons x xs ih =>
    have happend : buf ++ x :: xs = (buf ++ [x]) ++ xs := by
      rw [List.append_assoc, List.singleton_append]
    rw [chunks, happend]
    split
    · rename_i hlt
      exact ih hlt
    · rename_i hfull
      have hlength : (buf ++ [x]).length = n := by
        rw [List.length_append, List.length_singleton] at hfull ⊢
        omega
      cases hitems : buf ++ [x] with
      | nil => exact absurd hitems (List.append_ne_nil_of_right_ne_nil _ (List.cons_ne_nil _ _))
      | cons y ys =>
        rw [hitems, List.length_cons] at hlength
        have htake : (y :: ys ++ xs).take n = y :: ys := List.take_left' hlength
        have hwindows : windows n (y :: (ys ++ xs)) =
            (y :: (ys ++ xs)).take n :: windows n (ys ++ xs) := by
          refine windows_cons ?_
          rw [List.length_append]
          omega
        rw [List.cons_append, hwindows, ← List.cons_append, htake, if_pos rfl, List.tail_cons,
          Prod.map_fst, ih (by omega)]

theorem groupsOf_windows (hn : 0 < n) : groupsOf true n xs = windows n xs := by
  rw [groupsOf, Bool.true_or, if_pos rfl, chunks_windows hn, List.nil_append]

theorem groupsOf_slices (hn : 0 < n) : SlicesOf n xs (groupsOf false n xs) := by
  obtain ⟨hfull, hrest⟩ : (∀ c ∈ (chunks false n [] xs).1, c.length = n) ∧
      (chunks false n [] xs).2.length < n := chunks_full hn
  have hflatten : (chunks false n [] xs).1.flatten ++ (chunks false n [] xs).2 = [] ++ xs :=
    chunks_flatten
  rw [groupsOf, Bool.false_or]
  split
  · rename_i hempty
    rw [List.isEmpty_iff.mp hempty, List.append_nil] at hflatten
    refine ⟨hflatten, fun c hc => hfull c (List.dropLast_subset _ hc), fun c hc => ?_⟩
    have hlength := hfull c (List.mem_of_getLast? hc)
    omega
  · rename_i hsome
    refine ⟨?_, fun c hc => hfull c ?_, fun c hc => ?_⟩
    · rw [List.flatten_append, List.flatten_singleton, hflatten, List.nil_append]
    · rwa [List.dropLast_concat] at hc
    · rw [List.getLast?_concat] at hc
      cases hc
      refine ⟨List.length_pos_iff.mpr fun hnil => hsome ?_, Nat.le_of_lt hrest⟩
      rw [hnil]
      rfl

end Groups

/-! ## Groups that are handed over -/

namespace Library

variable {e : Engine} {s : Store} {n : Nat} {overlapping : Bool} {b recv v : Value} {p : Progress}
  {xs : List Value}

/-- Makes an array of a group and calls the block with it. -/
def handOver (b : Value) (group : List Value) : Op Unit := do
  discard (callBlock b [← newList group])

/-- A visit that adds an element to a buffer. -/
theorem visitItem_chunks_run (block : Option Value) (x : Value) :
    (visitItem (.chunks block n overlapping) p x).run e s =
      if (p.items.toList ++ [x]).length < n then .ok ({ p with items := p.items.push x }, false) s
      else ((emitChunk block { p with items :=
          (if overlapping then (p.items.toList ++ [x]).tail else []).toArray }
        (p.items.toList ++ [x]).toArray).run e s).andThen fun q => .ok (q, false) := by
  have hsize : (p.items.push x).size = (p.items.toList ++ [x]).length := by
    rw [Array.size_push, List.length_append, List.length_singleton, Array.length_toList]
  have hpush : p.items.push x = (p.items.toList ++ [x]).toArray := by
    rw [← List.push_toArray, Array.toArray_toList]
  have hnext : (if overlapping then
        (p.items.push x).extract 1 (p.items.toList ++ [x]).length else #[]) =
      (if overlapping then (p.items.toList ++ [x]).tail else []).toArray := by
    cases overlapping with
    | false => rfl
    | true =>
      rw [if_pos rfl, if_pos rfl, hpush, List.extract_toArray, List.extract_eq_take_drop,
        List.drop_one, List.take_of_length_le]
      rw [List.length_tail]
  rw [visitItem]
  simp only [Visit.entering, hsize]
  split
  · rfl
  · rw [Act.run_bind, hnext, hpush]
    rfl

theorem emitChunk_block_run (group : List Value) :
    (emitChunk (some b) p group.toArray).run e s =
      ((handOver b group).run e s).andThen fun _ => .ok p := by
  obtain ⟨t, hnew, -⟩ := newList_run group e s
  have hnew' : (newArray group.toArray).run e s = .ok ⟨s.objects.size⟩ t := hnew
  simp only [emitChunk, handOver, Act.run_bind, hnew, hnew', Ending.andThen_ok, Act.run_discard,
    Ending.andThen_assoc, Act.run_pure]

theorem emitChunk_none_run (group : List Value) :
    (emitChunk none p group.toArray).run e s =
      ((newList group).run e s).andThen fun g => .ok { p with others := p.others.push g } := rfl

/-- The visits with a block call it with all full groups. -/
theorem visitAll_chunks_block :
    (visitAll (.chunks (some b) n overlapping) xs p).run e s =
      (((chunks overlapping n p.items.toList xs).1.forM (handOver b)).run e s).andThen fun _ =>
        .ok { p with items := (chunks overlapping n p.items.toList xs).2.toArray } := by
  induction xs generalizing p s with
  | nil => rfl
  | cons x xs ih =>
    rw [visitAll, Act.run_bind, visitItem_chunks_run, chunks]
    split
    · rw [Ending.andThen_ok, ih, Array.toList_push]
    · rw [emitChunk_block_run, Prod.map_fst, Prod.map_snd, Act.run_forM_cons, Ending.andThen_assoc,
        Ending.andThen_assoc, Ending.andThen_assoc]
      cases (handOver b (p.items.toList ++ [x])).run e s with
      | error => rfl
      | ok _ t => simp only [Ending.andThen_ok, ih, id]

/-- The visits without a block make arrays of all full groups. -/
theorem visitAll_chunks_none :
    (visitAll (.chunks none n overlapping) xs p).run e s =
      (((chunks overlapping n p.items.toList xs).1.mapM newList).run e s).andThen fun gs =>
        .ok { p with items := (chunks overlapping n p.items.toList xs).2.toArray,
                     others := p.others ++ gs.toArray } := by
  induction xs generalizing p s with
  | nil =>
    simp only [chunks, List.mapM_nil, visitAll, Act.run_pure, Ending.andThen_ok, Array.append_empty]
  | cons x xs ih =>
    rw [visitAll, Act.run_bind, visitItem_chunks_run, chunks]
    split
    · rw [Ending.andThen_ok, ih, Array.toList_push]
    · rw [emitChunk_none_run, Prod.map_fst, Prod.map_snd, Act.run_mapM_cons]
      obtain ⟨t, hrun, -⟩ := newList_run (p.items.toList ++ [x]) e s
      simp only [Act.run, hrun, Ending.andThen_ok, ih, id]
      cases ((chunks overlapping n
          (if overlapping then (p.items.toList ++ [x]).tail else []) xs).1.mapM newList).run e t with
      | error => rfl
      | ok gs u =>
        have hothers : p.others.push ⟨s.objects.size⟩ ++ gs.toArray =
            p.others ++ (⟨s.objects.size⟩ :: gs).toArray := by
          rw [List.toArray_cons, Array.push_eq_append, Array.append_assoc]
        simp only [Ending.andThen_ok, hothers]

variable {I : Store → Prop} {count : Value} {i : Int}

section Chunked

variable (hI : Steady I recv xs)

/-- Wherever `I` holds, it holds after a call of the block with an array. -/
def CallsKeep (e : Engine) (I : Store → Prop) (b : Value) : Prop :=
  ∀ s g c v t, I s → s.array? g = some c → (callBlock b [g]).run e s = .ok v t → I t

include hI

theorem handOver_keeps {group : List Value} {t : Store} (hs : I s) (hgroup : ∀ y ∈ group, y ∈ xs)
    (hb : CallsKeep e I b) (h : (handOver b group).run e s = .ok () t) : I t := by
  have hnew : (newList group).run e s = .ok ⟨s.objects.size⟩ (s.withArray group.toArray) := rfl
  have hu : I (s.withArray group.toArray) := hI.withArray s _ hs fun y hy =>
    hI.index_lt hs (hgroup y (List.mem_toArray.mp hy))
  have harray : (s.withArray group.toArray).array? ⟨s.objects.size⟩ = some group.toArray := by
    rw [Store.array?_eq_some, Store.payload, Store.withArray, Store.object_alloc]
  rw [handOver, Act.run_bind, hnew, Ending.andThen_ok, Act.run_discard] at h
  cases hcall : (callBlock b [⟨s.objects.size⟩]).run e (s.withArray group.toArray) with
  | error =>
    rw [hcall] at h
    cases h
  | ok v u =>
    rw [hcall] at h
    cases h
    exact hb _ _ _ _ _ hu harray hcall

/-- The walk that hands groups over goes on to the end of the array. -/
theorem walk_chunks_run {block : Option Value} (hs : I s) (hfuel : xs.length < e.fuel)
    (hb : ∀ b ∈ block, CallsKeep e I b) :
    (walk (.chunks block n overlapping) recv {}).run e s =
      (visitAll (.chunks block n overlapping) xs {}).run e s := by
  refine walk_array_run (I := fun p s => I s ∧ ∀ x ∈ p.items.toList, x ∈ xs)
    (fun p s hs => hI.array s hs.1) ?_ ⟨hs, List.forall_mem_nil _⟩ hfuel
  rintro x hx p s out t ⟨hs, hp⟩ hrun
  have hitems : ∀ y ∈ p.items.toList ++ [x], y ∈ xs := fun y hy =>
    (List.mem_append.mp hy).elim (hp y) fun hy => List.mem_singleton.mp hy ▸ hx
  have hnext : ∀ y ∈ (if overlapping then (p.items.toList ++ [x]).tail else []), y ∈ xs := by
    cases overlapping with
    | false => exact List.forall_mem_nil _
    | true => exact fun y hy => hitems y (List.mem_of_mem_tail hy)
  rw [visitItem_chunks_run] at hrun
  split at hrun
  · cases hrun
    exact ⟨rfl, hs, by rwa [Array.toList_push]⟩
  · cases block with
    | none =>
      cases hrun
      refine ⟨rfl, hI.withArray s _ hs fun y hy => ?_, hnext⟩
      exact hI.index_lt hs (hitems y (List.mem_toArray.mp hy))
    | some b =>
      rw [emitChunk_block_run] at hrun
      cases hgive : (handOver b (p.items.toList ++ [x])).run e s with
      | error =>
        rw [hgive] at hrun
        cases hrun
      | ok _ u =>
        rw [hgive] at hrun
        cases hrun
        exact ⟨rfl, handOver_keeps hI hs hitems (hb b rfl) hgive, hnext⟩

variable (hcount : s.payload count = .integer i) (hi : 0 < i) (hword : Number.isWord i)

include hcount hi hword

/-- With a block, the groups are handed to it one after another. -/
theorem chunked_block_run (hs : I s) (hfuel : xs.length < e.fuel) (hb : CallsKeep e I b) :
    (Enumerable.chunked overlapping recv [count] (some b)).run e s =
      (do
        (groupsOf overlapping i.toNat xs).forM (handOver b)
        pure recv : Op Value).run e s := by
  have hpos : ¬i ≤ 0 := by omega
  have hwalk : (walk (.chunks (some b) i.toNat overlapping) recv {}).run e s =
      (visitAll (.chunks (some b) i.toNat overlapping) xs {}).run e s :=
    walk_chunks_run hI hs hfuel fun c hc => Option.mem_some.mp hc ▸ hb
  rw [visitAll_chunks_block] at hwalk
  simp only [Enumerable.chunked, oneArg, Act.run_bind, Act.run_pure, Ending.andThen_ok,
    needWord_run hcount hword, hpos, if_false, hwalk, Ending.andThen_assoc, groupsOf,
    ← Bool.not_or, List.isEmpty_toArray]
  -- the last group is handed over when it is not empty
  cases overlapping || (chunks overlapping i.toNat [] xs).2.isEmpty with
  | true => rfl
  | false =>
    rw [if_neg Bool.false_ne_true, Act.run_forM_append, Ending.andThen_assoc]
    cases ((chunks overlapping i.toNat [] xs).1.forM (handOver b)).run e s with
    | error => rfl
    | ok _ t =>
      simp only [Ending.andThen_ok, Bool.not_false, if_true, Act.run_bind, emitChunk_block_run,
        Ending.andThen_assoc, Act.run_pure, Act.run_forM_cons]
      rfl

/-- Without a block, there is an array of the groups. -/
theorem chunked_none_run (hs : I s) (hfuel : xs.length < e.fuel) :
    (Enumerable.chunked overlapping recv [count] none).run e s =
      (do newList (← (groupsOf overlapping i.toNat xs).mapM newList) : Op Value).run e s := by
  have hpos : ¬i ≤ 0 := by omega
  have hwalk : (walk (.chunks none i.toNat overlapping) recv {}).run e s =
      (visitAll (.chunks none i.toNat overlapping) xs {}).run e s :=
    walk_chunks_run hI hs hfuel fun c hc => absurd hc (Option.not_mem_none c)
  rw [visitAll_chunks_none] at hwalk
  simp only [Enumerable.chunked, oneArg, Act.run_bind, Act.run_pure, Ending.andThen_ok,
    needWord_run hcount hword, hpos, if_false, hwalk, Ending.andThen_assoc, groupsOf,
    ← Bool.not_or, List.isEmpty_toArray]
  -- the last group is added when it is not empty
  cases overlapping || (chunks overlapping i.toNat [] xs).2.isEmpty with
  | true =>
    simp only [Bool.not_true, Bool.false_eq_true, if_false, if_true, Array.empty_append]
    cases ((chunks overlapping i.toNat [] xs).1.mapM newList).run e s <;> rfl
  | false =>
    rw [if_neg Bool.false_ne_true, Act.run_mapM_append, Ending.andThen_assoc]
    cases ((chunks overlapping i.toNat [] xs).1.mapM newList).run e s with
    | error => rfl
    | ok gs t =>
      simp only [Ending.andThen_ok, Bool.not_false, if_true, Act.run_bind, emitChunk_none_run,
        Ending.andThen_assoc, Act.run_mapM_cons]
      obtain ⟨u, hnew, -⟩ := newList_run (chunks overlapping i.toNat [] xs).2 e t
      simp only [Act.run, hnew, Ending.andThen_ok, List.mapM_nil, pure, Array.empty_append,
        List.push_toArray]
      rfl

end Chunked

/-- Arrays of several lists at once. -/
theorem newLists_run (cs : List (List Value)) : ∃ gs t, (cs.mapM newList).run e s = .ok gs t ∧
    List.Forall₂ (fun g (c : List Value) => t.array? g = some c.toArray) gs cs ∧
      s.KeepsArrays t := by
  induction cs generalizing s with
  | nil => exact ⟨[], s, rfl, .nil, fun _ _ h => h⟩
  | cons c cs ih =>
    obtain ⟨t, hnew, ht, hst⟩ := newList_run c e s
    obtain ⟨gs, u, hrun, hgs, htu⟩ := ih (s := t)
    refine ⟨_ :: gs, u, ?_, .cons (htu _ _ ht) hgs, fun v ys hv => htu v ys (hst v ys hv)⟩
    rw [Act.run_mapM_cons]
    simp only [Act.run, hnew, hrun]

theorem chunked_lists (hI : Steady I recv xs) (hcount : s.payload count = .integer i) (hi : 0 < i)
    (hword : Number.isWord i) (hs : I s) (hfuel : xs.length < e.fuel) :
    ∃ out gs t, (Enumerable.chunked overlapping recv [count] none).run e s = .ok out t ∧
      t.array? out = some gs.toArray ∧
      List.Forall₂ (fun g (c : List Value) => t.array? g = some c.toArray) gs
        (groupsOf overlapping i.toNat xs) := by
  obtain ⟨gs, t, hrun, hgs, -⟩ := newLists_run (e := e) (s := s) (groupsOf overlapping i.toNat xs)
  obtain ⟨u, hnew, hu, htu⟩ := newList_run gs e t
  refine ⟨_, gs, u, ?_, hu, hgs.imp fun g c hg => htu g _ hg⟩
  rw [chunked_none_run hI hcount hi hword hs hfuel, Act.run_bind, hrun, Ending.andThen_ok, hnew]

/-- A size that is not positive is refused, and so is one that is no machine word. -/
theorem chunked_refused (block : Option Value) (hcount : s.payload count = .integer i)
    (h : i ≤ 0 ∨ Number.isWord i = false) :
    (Enumerable.chunked overlapping recv [count] block).run e s =
      (argumentError (if Number.isWord i then "invalid slice size" else "integer out of range") :
        Op Value).run e s := by
  cases hword : Number.isWord i with
  | false =>
    simp only [Enumerable.chunked, oneArg, needWord, payload, Act.run_bind, Act.run_pure, run_view,
      Ending.andThen_ok, hcount, hword]
    rfl
  | true =>
    have hneg : i ≤ 0 := h.resolve_right (by rw [hword]; exact Bool.noConfusion)
    simp only [Enumerable.chunked, oneArg, Act.run_bind, Act.run_pure, Ending.andThen_ok,
      needWord_run hcount hword, hneg, if_true]

end Library

end Garnet
