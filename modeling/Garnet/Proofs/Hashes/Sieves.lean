import Garnet.Proofs.Control.Kept
import Garnet.Proofs.Endings
import Garnet.Proofs.Hashes.Merging
import Mathlib.Data.List.Forall2

/-!
# Verdicts of a block

Some operations hand the entries of a hash to a block one by one, each in an array that is made for
it, and go by the truth of the answers. What such an operation comes to is told by the calls of the
block that it makes; here these are followed through a loop over the entries, whatever the loop does
between two calls.
-/

namespace Garnet

/-- A call of a block with an array, and what it answered. -/
structure Verdict where
  pair : Value
  before : Store
  answer : Value
  after : Store

namespace Verdict

/-- Inside of a run the block is called with an array that holds the entry; `n` tells how deep. -/
structure Of (p : Point) (n : Nat) (b : Value) (entry : Value × Value) (c : Verdict) : Prop where
  running : ∃ π, p.Running π ⟨n, (Eval.callBlock b [c.pair] : Op Value), c.before⟩
  given : c.before.array? c.pair = some #[entry.1, entry.2]
  answered : (Eval.callBlock b [c.pair]).run (.ofFuel n) c.before = .ok c.answer c.after

/-- The entries about which the block said what was wanted. -/
def kept (keep : Bool) : List (Value × Value) → List Verdict → List (Value × Value)
  | entry :: rest, c :: calls =>
    if c.answer.truthy == keep then entry :: kept keep rest calls else kept keep rest calls
  | [], _ | _, [] => []

variable {keep keep' : Bool} {entries : List (Value × Value)} {calls calls' : List Verdict}

theorem kept_cons {entry : Value × Value} {c : Verdict} :
    kept keep (entry :: entries) (c :: calls) =
      kept keep [entry] [c] ++ kept keep entries calls := by
  simp only [kept]
  split <;> rfl

theorem kept_sublist : (kept keep entries calls).Sublist entries := by
  induction entries generalizing calls with
  | nil => exact List.nil_sublist _
  | cons entry rest ih =>
    cases calls with
    | nil => exact List.nil_sublist _
    | cons c calls =>
      simp only [kept]
      split
      · exact ih.cons_cons entry
      · exact ih.cons entry

/-- One of the two keeps its entry. -/
def Opposite (keep keep' : Bool) (c c' : Verdict) : Prop :=
  (c.answer.truthy == keep) = !(c'.answer.truthy == keep')

/-- Opposite verdicts keep each entry once. -/
theorem kept_perm (hlength : calls.length = entries.length)
    (h : List.Forall₂ (Opposite keep keep') calls calls') :
    (kept keep entries calls ++ kept keep' entries calls').Perm entries := by
  induction h generalizing entries with
  | nil =>
    cases entries with
    | nil => exact .nil
    | cons => cases hlength
  | @cons c c' calls calls' hc _ ih =>
    cases entries with
    | nil => cases hlength
    | cons entry rest =>
      have hrest := ih (Nat.succ.inj hlength)
      simp only [kept, show (c.answer.truthy == keep) = _ from hc]
      cases c'.answer.truthy == keep' with
      | true => exact List.perm_middle.trans (hrest.cons entry)
      | false => exact hrest.cons entry

end Verdict

/-- Inside of a run a call of the block does not end with a value. -/
def Point.Interrupted (p : Point) (n : Nat) (b : Value) : Prop :=
  ∃ π pair u stop t, p.Running π ⟨n, (Eval.callBlock b [pair] : Op Value), u⟩ ∧
    (Eval.callBlock b [pair]).run (.ofFuel n) u = .error stop t

/-! ## Loops -/

/-- The body of a loop that calls a block with each entry: what it does before the call and after
it, where `holds` holds. -/
structure Judging (n : Nat) (b : Value) where
  fuel : Nat
  body : Value × Value → Op Unit
  holds : Store → Prop
  start : Value × Value → Store → Store
  next : Store → Value × Value → Verdict → Store
  given : ∀ entry u, (start entry u).array? ⟨u.objects.size⟩ = some #[entry.1, entry.2]
  enters : ∀ {entry u}, holds u → ∃ π, Point.Running ⟨fuel, body entry, u⟩ π
    ⟨n, (Eval.callBlock b [⟨u.objects.size⟩] : Op Value), start entry u⟩
  ends : ∀ {entry u x t}, holds u →
    (Eval.callBlock b [⟨u.objects.size⟩]).run (.ofFuel n) (start entry u) = .ok x t →
    (body entry).run (.ofFuel fuel) u =
        .ok () (next u entry ⟨⟨u.objects.size⟩, start entry u, x, t⟩) ∧
      holds (next u entry ⟨⟨u.objects.size⟩, start entry u, x, t⟩)

namespace Judging

variable {n : Nat} {b : Value}

/-- The calls that are made for the entries, from one store to another. -/
inductive Calls (J : Judging n b) : Store → List (Value × Value) → List Verdict → Store → Prop where
  | nil {u} : Calls J u [] [] u
  | cons {u entry x t rest calls v} (hu : J.holds u)
    (h : (Eval.callBlock b [⟨u.objects.size⟩]).run (.ofFuel n) (J.start entry u) = .ok x t)
    (hrest : Calls J (J.next u entry ⟨⟨u.objects.size⟩, J.start entry u, x, t⟩) rest calls v) :
    Calls J u (entry :: rest) (⟨⟨u.objects.size⟩, J.start entry u, x, t⟩ :: calls) v

/-- A loop is interrupted in a call, or the block answers for every entry. -/
theorem loop (J : Judging n b) {p : Point} {π : Trail} {entries : List (Value × Value)} {u : Store}
    (hu : J.holds u) (hp : p.Running π ⟨J.fuel, entries.forM J.body, u⟩) :
    p.Interrupted n b ∨ ∃ calls t, List.Forall₂ (Verdict.Of p n b) entries calls ∧
      J.Calls u entries calls t ∧ J.holds t ∧
      (entries.forM J.body).run (.ofFuel J.fuel) u = .ok () t := by
  -- what is left of the loop runs inside of `p` all the way, in the store of the last call
  induction entries generalizing u π with
  | nil => exact .inr ⟨[], u, .nil, .nil, hu, rfl⟩
  | cons entry rest ih =>
    obtain ⟨ρ, hcall⟩ : ∃ ρ, Point.Running ⟨J.fuel, J.body entry, u⟩ ρ _ := J.enters hu
    have hcall := (hp.step .first).append hcall
    cases hrun : (Eval.callBlock b [⟨u.objects.size⟩]).run (.ofFuel n) (J.start entry u) with
    | error stop t => exact .inl ⟨_, _, _, stop, t, hcall, hrun⟩
    | ok x t =>
      obtain ⟨hbody, hnext⟩ := J.ends hu hrun
      obtain h | ⟨calls, v, hcalls, hchain, hv, hloop⟩ := ih hnext (hp.step (.second hbody))
      · exact .inl h
      · refine .inr ⟨_, v, .cons ⟨⟨_, hcall⟩, J.given entry u, hrun⟩ hcalls,
          .cons hu hrun hchain, hv, ?_⟩
        rw [Act.run_forM_cons, hbody, Ending.andThen_ok, hloop]

end Judging

end Garnet

/-!
## Keeping some of the entries

`keep_if` and `delete_if` collect the entries about which the block says what is wanted, and write
them back. `select` and `reject` collect the arrays that the block was given, and make a new hash of
what these hold when all calls have been made.
-/

namespace Garnet

open Library.Hashes hiding entries
open Store Eval

variable {n : Nat} {b : Value}

/-! ## In place -/

namespace Store

/-- The store with one more object, an array. -/
def withArray (s : Store) (xs : Array Value) : Store :=
  (s.alloc { cls := CoreClass.array.value, payload := .array xs }).2

theorem array?_newPair (entry : Value × Value) (s : Store) :
    (s.withArray #[entry.1, entry.2]).array? ⟨s.objects.size⟩ = some #[entry.1, entry.2] := by
  rw [array?, payload, withArray, object_alloc]

end Store

theorem Eval.newPair_run {e : Engine} {s : Store} (entry : Value × Value) :
    (newPair entry).run e s = .ok ⟨s.objects.size⟩ (s.withArray #[entry.1, entry.2]) := rfl

/-- What `keep_if` and `delete_if` do with an entry when the block has answered. -/
theorem insertIf_run {e : Engine} {s t : Store} {x out : Value} {keep : Bool}
    (entry : Value × Value)
    (hrun : (callBlock b [⟨s.objects.size⟩]).run e (s.withArray #[entry.1, entry.2]) = .ok x t) :
    (do
      let pair ← newPair entry
      if (← callBlock b [pair]).truthy == keep then insertEntry out entry.1 entry.2 : Op Unit).run
        e s = .ok () (if x.truthy == keep then
          (Change.editHash out (.insert entry.1 entry.2)).apply t else t) := by
  rw [Act.run_bind, newPair_run, Ending.andThen_ok, Act.run_bind, hrun, Ending.andThen_ok]
  split <;> rfl

/-- The loop of `keep_if` and `delete_if`, which collects entries in the hash `out`. -/
def collecting (n : Nat) (b : Value) (keep : Bool) (out : Value) : Judging n b where
  fuel := n
  body entry := do
    let pair ← newPair entry
    if (← callBlock b [pair]).truthy == keep then insertEntry out entry.1 entry.2
  holds _ := True
  start entry u := u.withArray #[entry.1, entry.2]
  next _ entry c :=
    if c.answer.truthy == keep then (Change.editHash out (.insert entry.1 entry.2)).apply c.after
    else c.after
  given := array?_newPair
  enters _ := ⟨_, (Point.Running.start.step (.second rfl)).step .first⟩
  ends _ hrun := ⟨insertIf_run _ hrun, trivial⟩

variable {keep : Bool} {s u v : Store} {out recv : Value} {d : Table}
  {entries rest : List (Value × Value)} {calls : List Verdict}

/-- A key differs from those before it. -/
theorem Store.Apart.keyEql_of_mem {pre : List (Value × Value)} {entry : Value × Value} {a : Value}
    (hd : s.Apart d) (hpairs : d.pairs = pre ++ entry :: rest) (ha : a ∈ pre.map Prod.fst) :
    s.keyEql a entry.1 = false := by
  obtain ⟨p, hp, rfl⟩ := List.mem_map.mp ha
  exact (List.pairwise_append.mp (hpairs ▸ hd.pairs)).2.2 p hp entry List.mem_cons_self

theorem size_collecting_next {c : Verdict} {entry : Value × Value} :
    ((collecting n b keep out).next u entry c).objects.size = c.after.objects.size := by
  simp only [collecting]
  split
  · exact size_modifyObject
  · rfl

/-- After a call the hash has what it had, and the entry if that was wanted. -/
theorem payload_collecting_next {entry : Value × Value} {h : HashData} (keep : Bool) (u : Store)
    (c : Verdict) (hout : c.after.payload out = .hash h)
    (hkey : entry.1.index < c.after.objects.size)
    (hnew : ∀ a ∈ h.table.keys, c.after.keyEql a entry.1 = false) :
    ∃ h', ((collecting n b keep out).next u entry c).payload out = .hash h' ∧
      h'.table.pairs = h.table.pairs ++ Verdict.kept keep [entry] [c] := by
  simp only [collecting, Verdict.kept]
  split
  · refine ⟨_, payload_editHash hout, ?_⟩
    rw [HashEdit.apply, if_pos hkey]
    exact Table.pairs_insert_of_forall hnew
  · exact ⟨h, hout, (List.append_nil _).symm⟩

/-- What the loop has collected at its end. -/
theorem collecting_calls {h : HashData} {l : List (Value × Value)}
    (hcalls : (collecting n b keep out).Calls u rest calls v)
    (hintact : ∀ c ∈ calls, c.after.Apart d ∧ c.after.payload out = c.before.payload out)
    (hd : d.pairs = l ++ rest) (hkeys : ∀ p ∈ rest, p.1.index < u.objects.size)
    (hout : u.payload out = .hash h) (hpairs : h.table.pairs.Sublist l) :
    (v.entries out).pairs = h.table.pairs ++ Verdict.kept keep rest calls := by
  induction hcalls generalizing h l with
  | nil =>
    rw [Store.entries, hash?_eq_some.mpr hout]
    exact (List.append_nil _).symm
  | @cons u entry x t rest calls v _ hrun _ ih =>
    obtain ⟨happart, hsame⟩ := hintact _ List.mem_cons_self
    have hlt : out.index < u.objects.size := index_lt_of_hash? (hash?_eq_some.mpr hout ▸ rfl)
    have hout' : t.payload out = .hash h := by
      rw [hsame, ← hout]
      exact congrArg Object.payload (object_alloc_of_lt u _ hlt)
    have hsize : u.objects.size ≤ t.objects.size := Nat.le_trans (Nat.le_of_lt (size_alloc _))
      (Lasting.kind.kept.outcome_ok (p := ⟨n, callBlock b [⟨u.objects.size⟩], _⟩) hrun).1
    have hkeys' (p) (hp : p ∈ entry :: rest) : p.1.index < t.objects.size :=
      Nat.lt_of_lt_of_le (hkeys p hp) hsize
    -- what has been collected are entries before this one, and so its key is new
    have hnew (a) (ha : a ∈ h.table.keys) : t.keyEql a entry.1 = false :=
      happart.keyEql_of_mem hd ((hpairs.map Prod.fst).subset (h.table.keys_eq ▸ ha))
    obtain ⟨h', hnext, hpairs'⟩ := payload_collecting_next keep u ⟨⟨u.objects.size⟩, _, x, t⟩
      hout' (hkeys' entry List.mem_cons_self) hnew
    rw [ih (fun c hc => hintact c (List.mem_cons_of_mem _ hc)) (l := l ++ [entry])
      (by rw [hd, List.append_assoc]; rfl)
      (fun p hp => size_collecting_next ▸ hkeys' p (List.mem_cons_of_mem entry hp)) hnext
      (hpairs' ▸ hpairs.append Verdict.kept_sublist), hpairs', List.append_assoc,
      ← Verdict.kept_cons]

/-- `keep_if` and `delete_if` are interrupted in a call of the block, or leave the entries about
which the block said what was wanted. -/
theorem keepIf_ends (hkeys : s.KeysExist) (hrecv : (s.hash? recv).isSome) (keep : Bool) (n : Nat)
    (b : Value) :
    let p : Point := ⟨n, keepIf keep recv [] (some b), s⟩
    p.Interrupted n b ∨
      ∃ calls t, List.Forall₂ (Verdict.Of p n b) (s.entries recv).pairs calls ∧
        p.outcome = .ok recv t ∧
        ((∀ c ∈ calls, c.after.Apart (s.entries recv) ∧
            c.after.payload ⟨s.objects.size⟩ = c.before.payload ⟨s.objects.size⟩) →
          (t.entries recv).pairs = Verdict.kept keep (s.entries recv).pairs calls) := by
  intro p
  let out : Value := ⟨s.objects.size⟩
  have hlt := index_lt_of_hash? hrecv
  have hentries : (s.withHash {}).entries recv = s.entries recv := by
    rw [Store.entries, hash?_withHash_of_lt hlt, ← Store.entries]
  have hpairs : (pairsOf recv).run (.ofFuel n) (s.withHash {}) =
      .ok (s.entries recv).pairs (s.withHash {}) := hentries ▸ pairsOf_run
  have hloop := (((Point.Running.start (p := p).step (.second rfl)).step (.second newHash_run)).step
    (.second hpairs)).step .first
  obtain h | ⟨calls, u, hcalls, hchain, -, hrun⟩ := (collecting n b keep out).loop trivial hloop
  · exact .inl h
  refine .inr ⟨calls, (Change.editHash recv (.copy out)).apply u, hcalls, ?_, fun hintact => ?_⟩
  · simp only [collecting] at hrun
    simp only [p, Point.outcome, keepIf, needBlock, Act.run_bind, Act.run_pure, Ending.andThen_ok,
      newHash_run, hpairs]
    rw [hrun]
    rfl
  · have hhash : (u.hash? recv).isSome :=
      hash?_of_run hrun ((hash?_withHash_of_lt hlt).symm ▸ hrecv)
    obtain ⟨r, hr⟩ := payload_of_hash? hhash
    rw [Store.entries, hash?_eq_some.mpr (payload_editHash hr)]
    refine collecting_calls (d := s.entries recv) (l := []) hchain hintact rfl (fun q hq => ?_)
      (hash?_eq_some.mp hash?_withHash) (List.nil_sublist _)
    refine size_withHash ▸ Nat.lt_succ_of_lt (hkeys recv q.1 ?_)
    rw [← keys_entries]
    exact Table.mem_keys_of_mem hq

end Garnet
