import Garnet.Proofs.Control.Balance
import Mathlib.Logic.Relation

/-!
# What later stores keep

Activations are numbered upward and blocks never change. A block therefore always runs in the frame
that was current where it was made, and an activation never has the number of an earlier one.

A session is at each moment at a point of the program or operation that it runs. What lasts holds
between any moment and a later one.
-/

namespace Garnet

structure Later (s t : Store) : Prop where
  activations : s.lastActivation ≤ t.lastActivation
  procs : ∀ p d, s.proc? p = some d → t.proc? p = some d

namespace Later

variable {s t u : Store} {p : Value}

theorem rfl : Later s s := ⟨Nat.le_refl _, fun _ _ h => h⟩

theorem trans (h : Later s t) (h' : Later t u) : Later s u :=
  ⟨Nat.le_trans h.activations h'.activations, fun p d hp => h'.procs p d (h.procs p d hp)⟩

/-- Only the heap and the numbering of activations matter. -/
theorem of_objects (ho : t.objects = s.objects) (ha : s.lastActivation ≤ t.lastActivation) :
    Later s t := by
  refine ⟨ha, fun p d h => ?_⟩
  rw [Store.proc?_eq_some, Store.payload, Store.object] at h ⊢
  rw [ho]
  exact h

theorem of_edited (h : Edited s t) : Later s t := by
  refine ⟨h.lastActivation_le, fun p d hp => ?_⟩
  rw [Store.proc?_eq_some] at hp ⊢
  exact h.payload_eq trivial hp

theorem lasting : Lasting Later where
  trans := trans
  of_same h := of_objects h.objects h.lastActivation_le
  change c _ hc := of_edited (.change c hc)
  exception _ _ _ := of_edited (.newException _ _)

theorem kept : Kept Later := lasting.kept

theorem captured {d : ProcData} (h : Later s t) (hp : s.proc? p = some d) :
    t.captured p = s.captured p := by
  rw [Store.captured, Store.captured, hp, h.procs p d hp]

end Later

namespace Point

variable {p q r : Point} {m : Mark} {π ρ : Trail}

theorem Running.later (h : Running p π q) : Later p.store q.store := Later.lasting.running h

theorem Running.later_outcome (h : Running p π q) : Later q.outcome.store p.outcome.store :=
  Later.lasting.running_outcome h

/-- An activation has a number that no activation before it had. -/
theorem Running.activation_fresh {id : Nat} (h : Running p π q) (hm : (r, .activation id) ∈ π) :
    p.store.lastActivation < id := by
  obtain ⟨ρ, π', rfl⟩ := List.append_of_mem hm
  obtain ⟨hr, _, he, _⟩ := h.split
  cases he with
  | activate => exact Nat.lt_succ_of_le hr.later.activations

/-! ## Blocks and the frames they were made in -/

/-- One point ended before the other began. -/
inductive Before : Point → Point → Prop where
  | sequence {n ℓ α β s t a π ρ b q} {x : Act ℓ β} {f : β → Act ℓ α}
    (hx : outcome ⟨n, x, s⟩ = .ok a t) (hb : Running ⟨n, x, s⟩ π b)
    (hq : Running ⟨n, f a, t⟩ ρ q) : Before b q
  | cleanup {n ℓ α s π ρ b q} {x : Act ℓ α} {cleanup : Act ℓ Unit} (hb : Running ⟨n, x, s⟩ π b)
    (hq : Running ⟨n, cleanup, (outcome ⟨n, x, s⟩).store⟩ ρ q) : Before b q
  | program {s e t e' π ρ b q} (hb : Running (ofProgram s e) π b)
    (ht : Continues (s.runProgram e).2 t) (hq : Running (ofProgram t e') ρ q) : Before b q

/-- The point of a literal block or of a `for` loop where the block is made. -/
inductive Makes : Point → Value → Prop where
  | block {n s b lambda} : Makes ⟨n, Eval.newBlock b lambda, s⟩ ⟨s.objects.size⟩
  | step {n s target body} :
    Makes ⟨n, (Eval.make (.allocStep target body) : Eval Value), s⟩ ⟨s.objects.size⟩

end Point

theorem Later.of_continues {s t : Store} (h : Continues s t) : Later s t := by
  induction h with
  | refl => exact .rfl
  | program _ _ ih => exact ih.trans (Later.kept.runProgram _ _)
  | operation _ x ih => exact ih.trans (Later.kept.evaluate _ _)
  | takeOutput _ ih => exact ih.trans (.of_objects (.refl _) (Nat.le_refl _))

theorem Later.runProgram (s : Store) (e : Expr) :
    Later (Point.ofProgram s e).outcome.store (s.runProgram e).2 :=
  Later.kept.toCarried.runProgram s e

namespace Point

variable {b q : Point} {p : Value}

theorem Before.later (h : Before b q) : Later b.outcome.store q.store := by
  cases h with
  | sequence hx hb hq =>
    have h := hb.later_outcome
    rw [hx] at h
    exact h.trans hq.later
  | cleanup hb hq => exact hb.later_outcome.trans hq.later
  | program hb ht hq =>
    exact ((hb.later_outcome.trans (.runProgram _ _)).trans (.of_continues ht)).trans hq.later

theorem Makes.proc? (h : b.Makes p) :
    ∃ d, b.outcome.store.proc? p = some d ∧ b.outcome.store.captured p = b.store.frame := by
  cases h with
  | @block n s b lambda =>
    have hp : ((Change.allocBlock b lambda).apply s).proc? ⟨s.objects.size⟩ =
        some ⟨.closure ⟨b.params, b.body, s.scopeId, s.frame, b.site⟩, lambda⟩ :=
      Store.proc?_eq_some.mpr (congrArg Object.payload (Store.object_alloc _ _))
    refine ⟨_, hp, ?_⟩
    simp only [outcome, Eval.newBlock, Eval.make, Act.run, Ending.store, Store.captured, hp]
  | @step n s target body =>
    have hp : ((Change.allocStep target body).apply s).proc? ⟨s.objects.size⟩ =
        some ⟨.native (.forStep target body s.frame s.scopeId), false⟩ :=
      Store.proc?_eq_some.mpr (congrArg Object.payload (Store.object_alloc _ _))
    refine ⟨_, hp, ?_⟩
    simp only [outcome, Eval.make, Act.run, Ending.store, Store.captured, hp]

/-- A block closes for good over the frame that was current where it was made. -/
theorem Makes.captured (h : b.Makes p) (hq : Before b q) : q.store.captured p = b.store.frame := by
  obtain ⟨d, hd, hframe⟩ := h.proc?
  exact (hq.later.captured hd).trans hframe

end Point

/-! ## The moments of a session -/

open Relation

/-- A point in the run of a program, or of an operation that a session asks for. -/
inductive Point.InSession (q : Point) : Prop where
  | program {s e π} (h : Point.Running (.ofProgram s e) π q)
  | operation {s α π} {x : Op α} (h : Point.Running ⟨defaultFuel, (.lift x rfl : Eval α), s⟩ π q)

/-- One moment of a session leads to a later one: a construct is entered, runs to its end, or ends
with what it encloses; a program ends, or the output is taken. -/
inductive Leads : Store → Store → Prop where
  | enters {p m q} (hp : Point.InSession p) (he : p.Enters m q) : Leads p.store q.store
  | ends {p} (hp : Point.InSession p) : Leads p.store p.outcome.store
  | leaves {p m q} (hp : Point.InSession p) (he : p.Enters m q) :
    Leads q.outcome.store p.outcome.store
  | program (s : Store) (e : Expr) : Leads (Point.ofProgram s e).outcome.store (s.runProgram e).2
  | takeOutput (s : Store) : Leads s s.takeOutput.2

theorem Store.evaluate_store {α : Type} (s : Store) (x : Eval α) :
    (s.evaluate x).2 = (⟨defaultFuel, x, s⟩ : Point).outcome.store := by
  simp only [Store.evaluate, Point.outcome]
  split <;> rename_i h <;> rw [h] <;> rfl

/-- The stores that a session comes to are among its moments. -/
theorem Continues.leads {s t : Store} (h : Continues s t) : ReflTransGen Leads s t := by
  induction h with
  | refl => exact .refl
  | @program t _ e _ _ ih =>
    have hends : Leads t (Point.ofProgram t e).outcome.store := .ends (.program .start)
    exact (ih.tail hends).tail (.program t e)
  | @operation t _ _ x ih =>
    rw [Store.evaluate_store]
    exact ih.tail (.ends (.operation .start))
  | takeOutput _ ih => exact ih.tail (.takeOutput _)

namespace Point.InSession

variable {p q : Point} {π : Trail} {m : Mark}

theorem running (hp : p.InSession) (h : p.Running π q) : q.InSession := by
  cases hp with
  | program hs => exact .program (hs.append h)
  | operation hs => exact .operation (hs.append h)

theorem enters (hp : p.InSession) (he : p.Enters m q) : q.InSession :=
  hp.running (Running.start.step he)

theorem leads (hp : p.InSession) (h : p.Running π q) : ReflTransGen Leads p.store q.store := by
  induction h with
  | start => exact .refl
  | step h he ih => exact ih.tail (.enters (hp.running h) he)

theorem leads_outcome (hp : p.InSession) (h : p.Running π q) :
    ReflTransGen Leads q.outcome.store p.outcome.store := by
  induction h with
  | start => exact .refl
  | step h he ih => exact ih.head (.leaves (hp.running h) he)

end Point.InSession

/-- From one moment to the next the heap is the same, an exception is made, or a point runs to its
end. -/
theorem Leads.cases {s t : Store} (h : Leads s t) :
    SameHeap s t ∨ (∃ (c : CoreClass) (message : String), t = (s.newException c.value message).2) ∨
      ∃ p, Point.InSession p ∧ p.store = s ∧ p.outcome.store = t := by
  cases h with
  | enters hp he =>
    obtain h | ⟨m, r, hr, h⟩ := he.store
    · exact .inl h
    · exact .inr (.inr ⟨r, hp.enters hr, h⟩)
  | ends hp => exact .inr (.inr ⟨_, hp, rfl, rfl⟩)
  | leaves hp he =>
    obtain h | ⟨m, r, hr, h⟩ := he.outcome_store
    · exact .inl h
    · exact .inr (.inr ⟨r, hp.enters hr, h⟩)
  | program s e =>
    obtain h | h := s.runProgram_store e
    · exact .inl (h ▸ .rfl)
    · exact .inr (.inl h)
  | takeOutput => exact .inl ⟨rfl, rfl, rfl, Nat.le_refl _⟩

namespace Lasting

variable {R : Store → Store → Prop} {s t : Store}

theorem leads (L : Lasting R) (h : Leads s t) : R s t := by
  obtain h | ⟨c, message, rfl⟩ | ⟨p, -, rfl, rfl⟩ := h.cases
  · exact L.of_same h
  · exact L.exception s c message
  · exact L.kept.outcome p

theorem moments (L : Lasting R) (h : ReflTransGen Leads s t) : R s t := by
  induction h with
  | refl => exact L.refl _
  | tail _ hl ih => exact L.trans ih (L.leads hl)

end Lasting

end Garnet
