import Garnet.Proofs.Hashes.Selection

/-!
# Merging and splitting hashes

The laws of the operations that put hashes together and take them apart.
-/

namespace Garnet

open Library.Hashes hiding entries
open Library.Enumerable (filterBy)
open Store Eval

/-- Two parts of a list that make up the whole, each in the order of the list. -/
structure Splits {α : Type} (all l r : List α) : Prop where
  left : l.Sublist all
  right : r.Sublist all
  whole : (l ++ r).Perm all

theorem Verdict.splits {keep keep' : Bool} {entries : List (Value × Value)}
    {calls calls' : List Verdict} (hlength : calls.length = entries.length)
    (h : List.Forall₂ (Opposite keep keep') calls calls') :
    Splits entries (kept keep entries calls) (kept keep' entries calls') :=
  ⟨kept_sublist, kept_sublist, kept_perm hlength h⟩

variable {s : Store} {a b c : Value} {da db dc : HashData}

/-- `merge` of hashes without equal keys is associative: the keys are those of the first hash, then
those that only the second one has, then those that only the third one has, each with the last of
its values, and the default is that of the first hash. `merge!` ends as `merge` does and leaves the
entries that it returns.

`keep_if` and `delete_if` leave the entries about which the block says what is wanted, as long as
no key comes to equal another one and nothing touches the hash in which they collect: a block that
finds that hash and writes to it is not covered. `select` and
`reject` return a new hash of these entries, as long as the block does not change the arrays that it
is given either. Opposite verdicts split the entries of a hash. -/
theorem merge_and_split (hkeys : s.KeysExist) (ha : s.hash? a = some da) (hb : s.hash? b = some db)
    (hc : s.hash? c = some dc) (hda : s.Apart da.table) (hdb : s.Apart db.table)
    (hdc : s.Apart dc.table) :
    (∃ d : Table,
      d.keys = da.table.keys ++ db.table.keys.filter (fun k => !da.table.has s.keyEql k) ++
        dc.table.keys.filter (fun k => !(db.table.has s.keyEql k || da.table.has s.keyEql k)) ∧
      (∀ k, d.get? s.keyEql k = (dc.table.get? s.keyEql k).or
        ((db.table.get? s.keyEql k).or (da.table.get? s.keyEql k))) ∧
      ∀ n, ∀ x ∈ [(do merge (← merge a [b] none) [c] none : Op Value),
          (do merge a [← merge b [c] none] none), merge a [b, c] none],
        ∃ out t, x.run (.ofFuel n) s = .ok out t ∧ t.hash? out = some { da with table := d }) ∧
    (∀ n args block,
      (∀ out t, (merge a args block).run (.ofFuel n) s = .ok out t →
        ∃ u, (mergeInPlace a args block).run (.ofFuel n) s = .ok a u ∧
          u.entries a = t.entries out) ∧
      ∀ stop t, (merge a args block).run (.ofFuel n) s = .error stop t →
        (mergeInPlace a args block).run (.ofFuel n) s = .error stop t) ∧
    (∀ n block keep p, p = (⟨n, keepIf keep a [] (some block), s⟩ : Point) →
      p.Interrupted n block ∨
        ∃ calls t, List.Forall₂ (Verdict.Of p n block) da.table.pairs calls ∧
          (keepIf keep a [] (some block)).run (.ofFuel n) s = .ok a t ∧
          ((∀ v ∈ calls, v.after.Apart da.table ∧
              v.after.payload ⟨s.objects.size⟩ = v.before.payload ⟨s.objects.size⟩) →
            (t.entries a).pairs = Verdict.kept keep da.table.pairs calls)) ∧
    (∀ n block keep p, p = (⟨n + 3, filterBy keep a [] (some block), s⟩ : Point) →
      (s.iterate (.filter block keep) {}).AnswersWith a "each" (visit newPair) →
      s.depth < s.config.maxDepth →
      p.Interrupted n block ∨
        ∃ calls, List.Forall₂ (Verdict.Of p n block) da.table.pairs calls ∧
          ((∀ v ∈ calls, v.after.Apart da.table ∧ ∀ w ∈ calls, ∀ xs,
              v.before.array? w.pair = some xs → v.after.array? w.pair = some xs) →
            ∃ out t d, (filterBy keep a [] (some block)).run (.ofFuel (n + 3)) s = .ok out t ∧
              t.hash? out = some { table := d } ∧
              d.pairs = Verdict.kept keep da.table.pairs calls)) ∧
    ∀ keep keep' calls calls', calls.length = da.table.pairs.length →
      List.Forall₂ (Verdict.Opposite keep keep') calls calls' →
      Splits da.table.pairs (Verdict.kept keep da.table.pairs calls)
        (Verdict.kept keep' da.table.pairs calls') := by
  have hsome : (s.hash? a).isSome := ha ▸ rfl
  have hentries : s.entries a = da.table := entries_of_hash? ha
  refine ⟨⟨_, ?_, ?_, merge_assoc hkeys ha hb hc hda hdb hdc⟩, ?_, ?_, ?_, ?_⟩
  · rw [hda.union.keys_union hdc, hda.keys_union hdb]
    simp only [hda.has_union hdb]
  · intro k
    rw [hda.union.get?_union hdc, hda.get?_union hdb]
  · exact fun n args block => mergeInPlace_run hsome args block n
  · rintro n block keep _ rfl
    exact hentries ▸ keepIf_ends hkeys hsome keep n block
  · rintro n block keep _ rfl heach hdepth
    exact hentries ▸ filterBy_ends hkeys hsome keep heach hdepth n
  · exact fun _ _ _ _ hlength h => Verdict.splits hlength h

/-- `{1=>1}`, `{2=>1}` and `{1=>2}`, and the block of an iteration that is over. -/
def threeHashes : Store :=
  let each : MethodDef := ⟨"each", .builtin 395, false⟩
  let hash : ModuleInfo :=
    { name := "Hash", isModule := false, base := none, alloc := .hash
      methods := ({} : MethodTable).insert "each" each .pub }
  { config := { cacheMin := 1, cacheMax := 0 }
    objects := #[{ cls := ⟨0⟩, payload := .module hash }, { cls := ⟨0⟩, payload := .integer 1 },
      { cls := ⟨0⟩, payload := .integer 2 },
      { cls := ⟨0⟩, payload := .hash { table := ⟨[⟨1⟩], [⟨1⟩], rfl⟩ } },
      { cls := ⟨0⟩, payload := .hash { table := ⟨[⟨2⟩], [⟨1⟩], rfl⟩ } },
      { cls := ⟨0⟩, payload := .hash { table := ⟨[⟨1⟩], [⟨2⟩], rfl⟩ } },
      { cls := ⟨0⟩, payload := .proc (visiting 0 .gather 0) }]
    cells := #[none]
    scopes := #[{ kind := .top, parent := none }]
    frames := [.outermost]
    scopeStack := [⟨0⟩] }

/-- The block answers `nil`. -/
theorem threeHashes_block {p : Point} {π : Trail} {x : Value} {u : Store}
    (hp : p.store = threeHashes)
    (h : p.Running π ⟨1, (callBlock ⟨6⟩ [x] : Op Value), u⟩) :
    ∃ t, (callBlock ⟨6⟩ [x]).run (.ofFuel 1) u = .ok .nil t ∧ t.objects = u.objects := by
  have hblock : u.proc? ⟨6⟩ = some (visiting 0 .gather 0) :=
    proc?_of_kind (s := threeHashes) ((hp ▸ Lasting.kind.running h).2 ⟨6⟩ (by decide)) rfl
  have hrun : (callBlock ⟨6⟩ [x]).run (.ofFuel 1) u =
      (runProc runNative ⟨6⟩ [x] none none).run (.ofFuel 0) u :=
    (run_perform (.callProc ⟨6⟩ [x] none none) rfl).trans rfl
  have htake : (takeCell 0).run (.ofFuel 0) u =
      .ok (u.progress? 0) ((Change.setCell 0 none).apply u) := rfl
  have hvisit : ∃ t, (liftM (liftM (runVisit 0 .gather 0 [x]) : Eval Value) :
      Call Value).run (.ofFuel 0) u = .ok .nil t ∧ t.objects = u.objects := by
    change ∃ t, (runVisit 0 .gather 0 [x]).run (.ofFuel 0) u = _ ∧ _
    rw [runVisit, Act.run_bind, htake, Ending.andThen_ok]
    cases u.progress? 0 <;> exact ⟨_, rfl, rfl⟩
  obtain ⟨t, hvisit, ht⟩ := hvisit
  refine ⟨t, ?_, ht⟩
  rw [hrun]
  simp only [runProc, Act.run_bind, run_view, Ending.andThen_ok, hblock, visiting, runNative,
    Act.run, hvisit]

theorem merge_and_split_threeHashes :
    (threeHashes.KeysExist ∧ threeHashes.hash? ⟨3⟩ = some { table := ⟨[⟨1⟩], [⟨1⟩], rfl⟩ } ∧
      threeHashes.hash? ⟨4⟩ = some { table := ⟨[⟨2⟩], [⟨1⟩], rfl⟩ } ∧
      threeHashes.hash? ⟨5⟩ = some { table := ⟨[⟨1⟩], [⟨2⟩], rfl⟩ } ∧
      threeHashes.Apart ⟨[⟨1⟩], [⟨1⟩], rfl⟩ ∧ threeHashes.Apart ⟨[⟨2⟩], [⟨1⟩], rfl⟩ ∧
      threeHashes.Apart ⟨[⟨1⟩], [⟨2⟩], rfl⟩) ∧
    (∃ d : Table, d.keys = [⟨1⟩, ⟨2⟩] ∧ d.get? threeHashes.keyEql ⟨1⟩ = some ⟨2⟩ ∧
      ∃ out t, (do merge (← merge ⟨3⟩ [⟨4⟩] none) [⟨5⟩] none : Op Value).run (.ofFuel 0)
        threeHashes = .ok out t ∧ t.hash? out = some { table := d }) ∧
    ∃ out t d, (filterBy false ⟨3⟩ [] (some ⟨6⟩)).run (.ofFuel 4) threeHashes = .ok out t ∧
      t.hash? out = some { table := d } ∧ d.pairs = [(⟨1⟩, ⟨1⟩)] := by
  have hkeys : threeHashes.KeysExist := by
    have hobjects : ∀ i < 7, ∀ k ∈ threeHashes.keys ⟨i⟩, k.index < 7 := by decide +kernel
    intro v k hk
    by_cases hv : v.index < 7
    · exact hobjects v.index hv k hk
    · rw [keys_of_size_le (Nat.le_of_not_lt hv)] at hk
      cases hk
  have hall := merge_and_split hkeys (a := ⟨3⟩) (b := ⟨4⟩) (c := ⟨5⟩) rfl rfl rfl
    (List.pairwise_singleton _ _) (List.pairwise_singleton _ _) (List.pairwise_singleton _ _)
  obtain ⟨⟨d, hd, hget, hmerge⟩, -, -, hfilter, -⟩ := hall
  refine ⟨⟨hkeys, rfl, rfl, rfl, List.pairwise_singleton _ _, List.pairwise_singleton _ _,
    List.pairwise_singleton _ _⟩, ⟨d, hd.trans (by decide +kernel), ?_,
      hmerge 0 _ List.mem_cons_self⟩, ?_⟩
  · rw [hget]
    decide +kernel
  have heach : (threeHashes.iterate (.filter ⟨6⟩ false) {}).AnswersWith ⟨3⟩ "each"
      (visit newPair) := by
    have hentry : Library.all[395]? =
        some (Entry.methods .hash ["each", "each_pair"] (visit newPair)) := by
      rw [Library.all, List.getElem?_toArray]
      rfl
    exact ⟨_, 395, rfl, rfl, Library.run_eq hentry⟩
  obtain ⟨π, pair, u, stop, t, hp, hrun⟩ | ⟨calls, hcalls, h⟩ :=
    hfilter 1 ⟨6⟩ false _ rfl heach (by decide)
  · obtain ⟨t', hrun', -⟩ := threeHashes_block rfl hp
    rw [hrun'] at hrun
    cases hrun
  · have hone : List.Forall₂ (Verdict.Of _ 1 ⟨6⟩) [(⟨1⟩, ⟨1⟩)] calls := hcalls
    cases hone with
    | @cons _ c _ _ hc hnil =>
    cases hnil
    obtain ⟨π, hp⟩ := hc.running
    obtain ⟨t, hrun, ht⟩ := threeHashes_block rfl hp
    injection hrun.symm.trans hc.answered with hanswer hafter
    obtain ⟨out, u, d, hout, hd, hpairs⟩ := h fun v hv => by
      cases List.mem_singleton.mp hv
      refine ⟨List.pairwise_singleton _ _, fun w _ xs hxs => ?_⟩
      rw [← hafter, array?, Store.payload, object, ht]
      exact hxs
    refine ⟨out, u, d, hout, hd, hpairs.trans ?_⟩
    have hkept : Verdict.kept false [(⟨1⟩, ⟨1⟩)] [c] = [(⟨1⟩, ⟨1⟩)] := by
      rw [Verdict.kept, ← hanswer]
      rfl
    exact hkept

end Garnet
