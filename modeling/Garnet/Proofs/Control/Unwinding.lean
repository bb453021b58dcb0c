import Garnet.Proofs.Control.Balance

/-!
# How signals leave the constructs they are raised in

A signal goes outward along the way to the point it comes from. A construct that does not await it
ends with the same signal, unless its cleanup fails. The first that awaits it takes it, and a jump
becomes the value of that construct.
-/

namespace Garnet

/-- Whether a construct takes a signal. -/
def Mark.catches : Mark → Signal → Bool
  | .awaitsNext, .next _ | .awaitsRaise, .raise _ | .awaitsAnswer _, _ => true
  | .awaitsBreak site, .breakTo site' _ => site == site'
  | .activation id, .returnTo target _ => target == some id
  | _, _ => false

namespace Point

variable {p q : Point} {m : Mark} {π ρ : Trail} {sig : Signal} {v : Value}

def EndsWith (p : Point) (sig : Signal) : Prop := ∃ t, p.outcome = .error (.signal sig) t

/-- The construct ends with `v` in the place of the value of its body. -/
inductive Yields : Point → Value → Prop where
  | activation {n α s x v t} {f : Value → α} (h : outcome ⟨n, .activate x f, s⟩ = .ok (f v) t) :
    Yields ⟨n, .activate x f, s⟩ v
  | next {n ℓ α s v t} {x : Act ℓ α} {f : Value → α}
    (h : outcome ⟨n, .catchNext x f, s⟩ = .ok (f v) t) : Yields ⟨n, .catchNext x f, s⟩ v
  | loop {n ℓ α s site v t} {x : Act ℓ α} {f : Value → α}
    (h : outcome ⟨n, .catchBreak site x f, s⟩ = .ok (f v) t) :
    Yields ⟨n, .catchBreak site x f, s⟩ v

/-- The cleanup that stands at a point ends normally. -/
def CleansUp : Point → Prop
  | ⟨n, .ensure x cleanup, s⟩ => ∃ t, outcome ⟨n, cleanup, (outcome ⟨n, x, s⟩).store⟩ = .ok () t
  | _ => True

end Point

def Mark.isEnsured : Mark → Bool
  | .ensured => true
  | _ => false

theorem Trail.cleansUp_of_none {π : Trail} (h : π.any (·.2.isEnsured) = false) :
    ∀ c ∈ π, c.2 = .ensured → c.1.CleansUp := by
  intro c hc hm
  have hc := List.any_eq_false.mp h c hc
  rw [hm] at hc
  exact absurd rfl hc

/-- Nothing on the way takes the signal, and what is cleaned up ends normally. -/
def Trail.LetsThrough (π : Trail) (sig : Signal) : Prop :=
  ∀ e ∈ π, e.2.catches sig = false ∧ (e.2 = .ensured → e.1.CleansUp)

namespace Point

variable {p q : Point} {m : Mark} {π ρ : Trail} {sig : Signal} {v : Value}

theorem Enters.passes (he : Enters p m q) (hm : m.catches sig = false)
    (hc : m = .ensured → p.CleansUp) (hq : q.EndsWith sig) : p.EndsWith sig := by
  obtain ⟨t, hq⟩ := hq
  cases he with
  | first => exact ⟨t, by simp only [outcome, Act.run] at hq ⊢; rw [hq]⟩
  | second hx => exact ⟨t, by simp only [outcome, Act.run] at hq hx ⊢; rw [hx]; exact hq⟩
  | lift => exact ⟨t, hq⟩
  | request hr =>
    refine ⟨t, ?_⟩
    simp only [outcome, Act.run, Engine.ofFuel, Engine.run, hr] at hq ⊢
    simp only [Bool.false_eq_true, if_false, hq]
  | call hr hs =>
    refine ⟨{ t with depth := t.depth - 1 }, ?_⟩
    simp only [outcome, Act.run, Engine.ofFuel, Engine.run, hr, if_true, Engine.deeper,
      if_neg (Nat.not_le_of_lt hs)] at hq ⊢
    rw [hq]
  | rescue =>
    refine ⟨t, ?_⟩
    simp only [outcome, Act.run] at hq ⊢
    rw [hq]
    cases sig with
    | raise => cases hm
    | _ => rfl
  | inspected => cases hm
  | ensure =>
    obtain ⟨u, hu⟩ := hc rfl
    refine ⟨u, ?_⟩
    simp only [outcome, Act.run] at hq hu ⊢
    rw [hq] at hu ⊢
    dsimp only [Ending.store] at hu ⊢
    rw [hu]
  | cleanup h =>
    refine ⟨t, ?_⟩
    simp only [outcome, Act.run] at hq h ⊢
    split
    · rename_i hx
      rw [hx] at hq
      dsimp only [Ending.store] at hq
      rw [hq]
    · rename_i hx
      rw [hx] at hq
      dsimp only [Ending.store] at hq
      rw [hq]
    · rename_i hx
      exact absurd hx (h _)
  | within =>
    refine ⟨t.leave, ?_⟩
    simp only [outcome, Act.run] at hq ⊢
    rw [hq]
  | activate =>
    refine ⟨t, ?_⟩
    simp only [outcome, Act.run] at hq ⊢
    rw [hq]
    cases sig with
    | returnTo target v =>
      cases target with
      | none => rfl
      | some id =>
        simp only [Mark.catches, beq_eq_false_iff_ne, ne_eq, Option.some.injEq] at hm
        simp only [beq_iff_eq, if_neg hm]
    | _ => rfl
  | catchNext =>
    refine ⟨t, ?_⟩
    simp only [outcome, Act.run] at hq ⊢
    rw [hq]
    cases sig with
    | next => cases hm
    | _ => rfl
  | catchBreak =>
    refine ⟨t, ?_⟩
    simp only [outcome, Act.run] at hq ⊢
    rw [hq]
    cases sig with
    | breakTo site v =>
      simp only [Mark.catches, beq_eq_false_iff_ne] at hm
      simp only [beq_iff_eq, if_neg (Ne.symm hm)]
    | _ => rfl
  | @handling n α s exc x =>
    refine ⟨t.setErrorInfo s.errorInfo, ?_⟩
    simp only [outcome, Act.run] at hq ⊢
    rw [hq]

/-- A signal that is let through ends every construct on its way. -/
theorem Running.passes (h : Running p π q) (hπ : π.LetsThrough sig) (hq : q.EndsWith sig) :
    p.EndsWith sig ∧ ∀ e ∈ π, e.1.EndsWith sig := by
  induction h with
  | start => exact ⟨hq, fun e he => absurd he List.not_mem_nil⟩
  | step _ he ih =>
    have hm := hπ _ List.mem_cons_self
    have hq := he.passes hm.1 hm.2 hq
    obtain ⟨hp, hall⟩ := ih (fun e he => hπ e (List.mem_cons_of_mem _ he)) hq
    refine ⟨hp, fun e he => ?_⟩
    rcases List.mem_cons.mp he with rfl | he
    · exact hq
    · exact hall e he

/-! ## Where a jump is caught -/

/-- What takes a signal does not end with it. -/
theorem Enters.not_endsWith (he : Enters p m q) (hm : m.catches sig = true) :
    ¬p.EndsWith sig := by
  rintro ⟨t, hp⟩
  cases he with
  | rescue =>
    cases sig <;> cases hm
    simp only [outcome, Act.run] at hp
    split at hp <;> simp_all
  | inspected hv =>
    simp only [outcome, Act.run, if_pos hv] at hp
    split at hp <;> cases hp
  | activate =>
    cases sig <;> simp only [Mark.catches, Bool.false_eq_true, beq_iff_eq] at hm
    subst hm
    simp only [outcome, Act.run] at hp
    split at hp
    · cases hp
    · split at hp <;> simp_all
    · simp_all
  | catchNext =>
    cases sig <;> cases hm
    simp only [outcome, Act.run] at hp
    split at hp <;> simp_all
  | catchBreak =>
    cases sig <;> simp only [Mark.catches, Bool.false_eq_true, beq_iff_eq] at hm
    subst hm
    simp only [outcome, Act.run] at hp
    split at hp
    · split at hp <;> simp_all
    · simp_all
  | _ => cases hm

theorem Enters.yields_next (he : Enters p .awaitsNext q) (hq : q.EndsWith (.next v)) :
    p.Yields v := by
  obtain ⟨t, hq⟩ := hq
  cases he with
  | catchNext =>
    refine .next (t := t) ?_
    simp only [outcome, Act.run] at hq ⊢
    rw [hq]

theorem Enters.yields_break {site : Nat} (he : Enters p (.awaitsBreak site) q)
    (hq : q.EndsWith (.breakTo site v)) : p.Yields v := by
  obtain ⟨t, hq⟩ := hq
  cases he with
  | catchBreak =>
    refine .loop (t := t) ?_
    simp only [outcome, Act.run] at hq ⊢
    rw [hq]
    simp only [BEq.rfl, if_true]

theorem Enters.yields_return {id : Nat} (he : Enters p (.activation id) q)
    (hq : q.EndsWith (.returnTo (some id) v)) : p.Yields v := by
  obtain ⟨t, hq⟩ := hq
  cases he with
  | activate =>
    refine .activation (t := t) ?_
    simp only [outcome, Act.run] at hq ⊢
    rw [hq]
    simp only [BEq.rfl, if_true]

end Point

/-! ## Jumps that nothing catches -/

/-- A program ended with an exception of this class and message. -/
def Outcome.Fails (out : Outcome) (s : Store) (c : CoreClass) (message : String) : Prop :=
  ∃ exc, out = .uncaught exc ∧ s.classOf exc = c.value ∧ s.exceptionMessage exc = message

namespace Store

variable {s : Store} {e : Expr}

theorem strayJump_fails (message : String) :
    (s.strayJump message).1.Fails (s.strayJump message).2 .localJumpError message :=
  ⟨_, rfl, s.classOf_newException .., s.exceptionMessage_newException ..⟩

theorem runProgram_of_break {site : Nat} {v : Value}
    (h : (Point.ofProgram s e).EndsWith (.breakTo site v)) :
    (s.runProgram e).1.Fails (s.runProgram e).2 .localJumpError "break from proc-closure" := by
  obtain ⟨t, h⟩ := h
  have hrun : s.runProgram e = t.strayJump "break from proc-closure" := by
    simp only [Point.outcome, Point.ofProgram] at h
    simp only [runProgram, evaluate, h]
  rw [hrun]
  exact strayJump_fails _

theorem runProgram_of_return {id : Nat} {v : Value}
    (h : (Point.ofProgram s e).EndsWith (.returnTo (some id) v)) :
    (s.runProgram e).1.Fails (s.runProgram e).2 .localJumpError "unexpected return" := by
  obtain ⟨t, h⟩ := h
  have hrun : s.runProgram e = t.strayJump "unexpected return" := by
    simp only [Point.outcome, Point.ofProgram] at h
    simp only [runProgram, evaluate, h]
  rw [hrun]
  exact strayJump_fails _

end Store

end Garnet

/-!
## Where a break goes

A `break` names the site of the loop or the block it is written in, and ends the innermost construct
in progress that awaits this site. Sites are places in the text of a program. A call that began
inside of the call a block was given to, at the same place, therefore comes first, and so does one
of another program whose place has the same number.
-/

namespace Garnet

/-- No construct awaits this site or takes every signal. -/
def Trail.FreeOf (π : Trail) (site : Nat) : Prop :=
  ∀ c ∈ π, c.2 ≠ .awaitsBreak site ∧ ∀ v, c.2 ≠ .awaitsAnswer v

theorem Mark.catches_break {m : Mark} {site : Nat} {v : Value} :
    m.catches (.breakTo site v) = false ↔ m ≠ .awaitsBreak site ∧ ∀ w, m ≠ .awaitsAnswer w := by
  cases m with
  | awaitsBreak site' => simp [Mark.catches]
  | awaitsAnswer w => simp [Mark.catches]
  | _ => simp [Mark.catches]

theorem Trail.freeOf_of_none {π : Trail} {site : Nat} {v : Value}
    (h : π.any (·.2.catches (.breakTo site v)) = false) : π.FreeOf site := by
  intro c hc
  have hc := List.any_eq_false.mp h c hc
  exact Mark.catches_break.mp (Bool.eq_false_iff.mpr hc)

namespace Point

variable {p q k k' : Point} {m : Mark} {π ρ : Trail} {site : Nat} {v : Value}

/-- The evaluation of a call with a literal block, once the block has been made as `blk`. -/
inductive GivenBlock (b : BlockLiteral Expr) (blk : Value) : Point → Prop where
  | message {n s recv name args} :
    GivenBlock b blk
      ⟨n, Eval.catchBlockBreak (.literal b) (Eval.callMethod recv name args (some blk)), s⟩
  | toSelf {n s name args} :
    GivenBlock b blk
      ⟨n, Eval.catchBlockBreak (.literal b) (Eval.sendSelf name args (some blk)), s⟩
  | super {n s args} :
    GivenBlock b blk ⟨n, Eval.catchBlockBreak (.literal b) (Eval.callSuper args (some blk)), s⟩

theorem GivenBlock.enters {b : BlockLiteral Expr} {blk : Value} (hk : k.GivenBlock b blk)
    (he : Enters k m k') : m = .awaitsBreak b.site := by
  cases hk <;> cases he <;> rfl

theorem letsThrough_iff (hπ : ∀ c ∈ π, c.2 = .ensured → c.1.CleansUp) :
    π.LetsThrough (.breakTo site v) ↔ π.FreeOf site := by
  constructor
  · intro h c hc
    exact Mark.catches_break.mp (h c hc).1
  · intro h c hc
    exact ⟨Mark.catches_break.mpr (h c hc), hπ c hc⟩

/-- A break passes everything on its way exactly when nothing there awaits its site. -/
theorem Running.passes_break_iff (h : Running p π q) (hq : q.EndsWith (.breakTo site v))
    (hπ : ∀ c ∈ π, c.2 = .ensured → c.1.CleansUp) :
    (∀ c ∈ π, c.1.EndsWith (.breakTo site v)) ↔ π.FreeOf site := by
  constructor
  · intro hall c hc
    obtain ⟨ρ, π', rfl⟩ := List.append_of_mem hc
    obtain ⟨_, _, he, _⟩ := h.split
    have hpass : c.2.catches (.breakTo site v) = false :=
      Bool.eq_false_iff.mpr fun hcatch => he.not_endsWith hcatch (hall c hc)
    exact Mark.catches_break.mp hpass
  · intro hfree
    exact (h.passes ((letsThrough_iff hπ).mpr hfree) hq).2

end Point

/-- A break ends the call its block was given to, passing all that is inside of it, exactly when
nothing inside awaits the same site; and it ends the program with an error, passing everything,
exactly when nothing at all awaits the site. -/
theorem Store.runProgram_break {s : Store} {e : Expr} {π : Trail} {q : Point}
    {b : BlockLiteral Expr} {v : Value} (hq : (Point.ofProgram s e).Running π q)
    (hb : q.EndsWith (.breakTo b.site v)) (hπ : ∀ c ∈ π, c.2 = .ensured → c.1.CleansUp) :
    (∀ (ρ : Trail) k m π' blk, π = ρ ++ (k, m) :: π' → k.GivenBlock b blk →
      (k.Yields v ∧ (∀ c ∈ ρ, c.1.EndsWith (.breakTo b.site v)) ↔ ρ.FreeOf b.site)) ∧
    ((s.runProgram e).1.Fails (s.runProgram e).2 .localJumpError "break from proc-closure" ∧
      (∀ c ∈ π, c.1.EndsWith (.breakTo b.site v)) ↔ π.FreeOf b.site) := by
  constructor
  · rintro ρ k m π' blk rfl hk
    obtain ⟨_, k', he, hin⟩ := hq.split
    obtain rfl := hk.enters he
    have hρ : ∀ c ∈ ρ, c.2 = .ensured → c.1.CleansUp :=
      fun c hc => hπ c (List.mem_append_left _ hc)
    refine ⟨fun h => (hin.passes_break_iff hb hρ).mp h.2, fun hfree => ⟨?_, ?_⟩⟩
    · have hend := (hin.passes ((Point.letsThrough_iff hρ).mpr hfree) hb).1
      exact he.yields_break hend
    · exact (hin.passes_break_iff hb hρ).mpr hfree
  · refine ⟨fun h => (hq.passes_break_iff hb hπ).mp h.2, fun hfree => ⟨?_, ?_⟩⟩
    · exact runProgram_of_break (hq.passes ((Point.letsThrough_iff hπ).mpr hfree) hb).1
    · exact (hq.passes_break_iff hb hπ).mpr hfree

/-- The break of a block that a method yields to. -/
theorem Store.runProgram_break_yield :
    let m : MethodDef := ⟨"m", .compiled {} (.yield []) none, true⟩
    let top : Scope := { kind := .top, parent := none, pending := ⟨[("m", ⟨m, .pub⟩)]⟩ }
    let s : Store :=
      { config := {}, objects := #[], scopes := #[top], frames := [], scopeStack := [⟨0⟩] }
    let b : BlockLiteral Expr := ⟨{}, .breakTo 1 .nil, 1⟩
    ∃ π k, (Point.ofProgram s (.send none "m" [] (.literal b) false false)).Running π k ∧
      k.GivenBlock b ⟨0⟩ ∧ k.Yields .nil := by
  intro m top s b
  have h := (Point.Running.start
    (p := .ofProgram s (.send none "m" [] (.literal b) false false))).step (.request rfl)
  -- the call with its block
  have h := (((h.step .lift).step (.second rfl)).step (.second rfl)).step (.second rfl)
  have hk := h.step .first
  have h := ((hk.step .catchBreak).step (.second rfl)).step (.second rfl)
  -- the body of the method
  have h := (((h.step (.call rfl (by decide))).step .activate).step (.second rfl)).step .within
  have h := (((h.step (.second rfl)).step (.request rfl)).step .lift).step (.second rfl)
  have h := (h.step .lift).step (.second rfl)
  -- the body of the block
  have h := ((h.step (.request rfl)).step (.second rfl)).step (.call rfl (by decide))
  have h := (((h.step (.second rfl)).step .catchNext).step .within).step (.second rfl)
  have h := ((h.step (.request rfl)).step .lift).step (.second rfl)
  have hbreak := Store.runProgram_break (b := b) (v := .nil) h ⟨_, rfl⟩
    (Trail.cleansUp_of_none rfl)
  have hcall := hbreak.1 [_, _, _, _, _, _, _, _, _, _, _, _, _, _, _, _, _, _, _, _, _, _] _ _ _
    ⟨0⟩ rfl .toSelf
  exact ⟨_, _, hk, .toSelf, (hcall.mpr (Trail.freeOf_of_none (v := .nil) rfl)).1⟩

end Garnet
