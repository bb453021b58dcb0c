import Garnet.Proofs.Refusals.Forms

/-!
# Programs with an unknown node

A tree of an unknown kind is refused wherever an expression is built, and the fault names it. Every
fault names a node of the tree, and one that calls a kind unsupported names an unknown kind.
-/

namespace Garnet

namespace Tree

variable {t u v new : Tree} {r r' r'' : Role} {i : Nat}

theorem at?_concat {p : List Nat} (hv : t.at? p = some v) (hu : v.tree? i = some u) :
    t.at? (p ++ [i]) = some u := by
  induction p generalizing t with
  | nil =>
    cases hv
    rw [List.nil_append, at?, hu, Option.bind_some, at?]
  | cons j p ih =>
    obtain ⟨w, hw, hv⟩ := Option.bind_eq_some_iff.mp hv
    rw [List.cons_append, at?, hw, Option.bind_some]
    exact ih hv

theorem along_concat {p : List Nat} (hv : t.at? p = some v) (hr : r.along t p = some r')
    (hu : v.tree? i = some u) (hslot : r'.slot v i u = some r'') :
    r.along t (p ++ [i]) = some r'' := by
  induction p generalizing t r with
  | nil =>
    cases hv
    cases hr
    rw [List.nil_append, Role.along, hu, Option.bind_some, hslot, Option.bind_some, Role.along]
  | cons j p ih =>
    obtain ⟨w, hw, hv⟩ := Option.bind_eq_some_iff.mp hv
    rw [Role.along, hw, Option.bind_some] at hr
    obtain ⟨s, hs, hr⟩ := Option.bind_eq_some_iff.mp hr
    rw [List.cons_append, Role.along, hw, Option.bind_some, hs, Option.bind_some]
    exact ih hv hr

/-- In the program `root` the tree `t` is built as `r`. If trees are not `swapped`, there is no
hole in it. -/
def Builds (root : Tree) (swapped : Prop) (r : Role) (t : Tree) (hole : Hole) : Prop :=
  (∃ p, root.at? p = some t ∧ Role.expr.along root p = some r) ∧ (hole.isSome → swapped)

/-- The fault names a node of the program, and an unknown one if it calls it unsupported. -/
def Blames (root : Tree) (fault : Fault) : Prop :=
  (∃ p u, root.at? p = some u ∧ fault.tag = u.tag) ∧
    ∀ tag, fault = .unsupported tag → Tag.lookup tag = none

variable {root : Tree} {swapped : Prop} {hole : Hole}

theorem Builds.below (h : root.Builds swapped r t hole) (hu : t.tree? i = some u)
    (hr : r.slot t i u = some r') : root.Builds swapped r' u (hole.below i) := by
  obtain ⟨⟨p, hat, halong⟩, hswapped⟩ := h
  refine ⟨⟨p ++ [i], at?_concat hat hu, along_concat hat halong hu hr⟩, fun hsome => hswapped ?_⟩
  obtain ⟨q, hq⟩ := Option.isSome_iff_exists.mp hsome
  rw [Hole.below_eq_some.mp hq]
  rfl

theorem builds_self (t : Tree) (swapped : Prop) : t.Builds swapped .expr t none :=
  ⟨⟨[], rfl, rfl⟩, nofun⟩

theorem Builds.whole (h : root.Builds swapped r t hole) : root.Builds swapped r t none :=
  ⟨h.1, nofun⟩

theorem Builds.hole_eq_none (h : root.Builds False r t hole) : hole = none :=
  Option.not_isSome_iff_eq_none.mp h.2

theorem Builds.blames_malformed (h : root.Builds swapped r t hole) (reason : Reason) :
    root.Blames (.malformed t.tag reason) := by
  obtain ⟨⟨p, hat, -⟩, -⟩ := h
  exact ⟨⟨p, t, hat, rfl⟩, nofun⟩

theorem Builds.blames_unsupported (h : root.Builds swapped r t hole) (hk : t.kind = none) :
    root.Blames (.unsupported t.tag) := by
  obtain ⟨⟨p, hat, -⟩, -⟩ := h
  refine ⟨⟨p, t, hat, rfl⟩, fun tag htag => ?_⟩
  cases htag
  exact hk

end Tree

namespace Build

variable {root new : Tree}

/-- The new tree itself is refused. -/
theorem Follows.unknown {S : Fault → Prop} {x y : Builder Expr} {b' : Below}
    (h : Follows S new false x y) (hnew : new.kind = none) :
    Follows S new true x (expr b' new) where
  refused := h.refused
  built _ _ _ _ := by
    rw [expr, hnew]
    rfl

/-- What is built to a certain depth, by induction on the depth. -/
theorem below_swaps (hnew : new.kind = none) (n m : Nat) :
    Pass (root.Builds True) root.Blames new m (below n) (below m) := by
  induction n generalizing m with
  | zero =>
    exact
      { unknown := hnew
        closed := Tree.Builds.below
        malformed := fun h _ _ => h.blames_malformed _
        unsupported := Tree.Builds.blames_unsupported
        expr := fun _ h => .malformed (h.built.blames_malformed _) _
        target := fun h => .malformed (h.built.blames_malformed _) _
        pattern := fun h _ => .malformed (h.built.blames_malformed _) _ }
  | succ n ih =>
    refine
      { unknown := hnew
        closed := Tree.Builds.below
        malformed := fun h _ _ => h.blames_malformed _
        unsupported := Tree.Builds.blames_unsupported
        expr := fun {r u hole} hr h => ?_
        target := fun {u hole} h => ?_
        pattern := fun {u} h hk => ?_ }
    · obtain ⟨k, rfl⟩ := Nat.exists_eq_add_one.mpr h.pos
      by_cases hhole : hole = some []
      -- The exchanged tree stands here. What was built in its place without the exchange blames
      -- the program, and the table refuses the new tree at once.
      · subst hhole
        have hwhole : Inside (root.Builds True) new (u.depth + 1) r u none :=
          .whole h.built.whole (Nat.le_succ _)
        exact (expr_follows (ih u.depth) hr hwhole).unknown hnew
      · exact expr_follows (ih k) hr { toPart := h, ne := hhole }
    · obtain ⟨k, rfl⟩ := Nat.exists_eq_add_one.mpr h.pos
      exact target_follows (ih k) { toPart := h, ne := h.ne (by decide) }
    · obtain ⟨k, rfl⟩ := Nat.exists_eq_add_one.mpr h.pos
      exact patterns_follows (ih k) (.whole h.built h.depth) fun i v => if_pos hk

/-- No tree of depth at most `m` is too deep for `below m`. -/
theorem below_reaches (hnew : new.kind = none) (m : Nat) :
    Pass (root.Builds False) (fun fault => ∀ tag, fault ≠ .malformed tag .tooDeep) new m
      (below m) (below m) := by
  have hmalformed {r : Role} {t : Tree} {hole : Hole} (_ : root.Builds False r t hole)
      {reason : Reason} (hlocal : reason.isLocal) (tag : String) :
      Fault.malformed t.tag reason ≠ .malformed tag .tooDeep := by
    rintro ⟨⟩
    cases hlocal
  have hunsupported {r : Role} {t : Tree} {hole : Hole} (_ : root.Builds False r t hole)
      (_ : t.kind = none) (tag : String) :
      Fault.unsupported t.tag ≠ .malformed tag .tooDeep := by
    rintro ⟨⟩
  have hinside {n : Nat} {r : Role} {t : Tree} {hole : Hole}
      (h : Part (root.Builds False) new n r t hole) :
      Inside (root.Builds False) new n r t hole :=
    { toPart := h, ne := h.built.hole_eq_none ▸ (Option.some_ne_none []).symm }
  induction m with
  | zero =>
    exact
      { unknown := hnew
        closed := Tree.Builds.below
        malformed := hmalformed
        unsupported := hunsupported
        expr := fun _ h => absurd h.pos (Nat.lt_irrefl 0)
        target := fun h => absurd h.pos (Nat.lt_irrefl 0)
        pattern := fun h _ => absurd h.pos (Nat.lt_irrefl 0) }
  | succ m ih =>
    exact
      { unknown := hnew
        closed := Tree.Builds.below
        malformed := hmalformed
        unsupported := hunsupported
        expr := fun hr h => expr_follows ih hr (hinside h)
        target := fun h => target_follows ih (hinside h)
        pattern := fun h hk => patterns_follows ih (hinside h) fun i v => if_pos hk }

end Build

namespace Expr

open Build

variable {t new : Tree} {e : Expr} {fault : Fault}

theorem run_of_ofTree_eq_ok (h : ofTree t = .ok e) :
    ∃ next, (below t.depth).expr t none 1 = .ok (e, next) := by
  unfold ofTree at h
  split at h
  case h_1 e' next hrun =>
    cases h
    exact ⟨next, hrun⟩
  case h_2 => cases h

theorem run_of_ofTree_eq_error (h : ofTree t = .error fault) :
    (below t.depth).expr t none 1 = .error fault := by
  unfold ofTree at h
  split at h
  case h_1 => cases h
  case h_2 fault' hrun =>
    cases h
    exact hrun

/-- An unknown tree where an expression is built is refused by its tag. -/
theorem ofTree_put {p : List Nat} (h : ofTree t = .ok e) (hp : t.Lowers p)
    (hnew : new.kind = none) : ofTree (t.put p new) = .error (.unsupported new.tag) := by
  have hpart : Part (t.Builds True) new (t.put p new).depth .expr t (some p) :=
    { built := ⟨⟨[], rfl, rfl⟩, fun _ => trivial⟩
      fits := fun q hq => Option.some.inj hq ▸ hp
      depth := Nat.le_refl _ }
  have hfollows := (below_swaps hnew t.depth _).expr (.inl rfl) hpart
  obtain ⟨next, hrun⟩ := run_of_ofTree_eq_ok h
  have hbuilt : (below (t.put p new).depth).expr (t.put p new) none 1 =
      .error (.unsupported new.tag) := hfollows.built none 1 _ hrun
  rw [ofTree, hbuilt]

/-- Some tree of an unknown kind, which is not put anywhere. -/
private def nowhere : Tree := ⟨"", []⟩

private theorem kind_nowhere : nowhere.kind = none := by decide

/-- A refusal names a node of the tree. -/
theorem blames_of_ofTree (h : ofTree t = .error fault) : t.Blames fault := by
  have hpart : Part (t.Builds True) nowhere t.depth .expr t none :=
    .whole (t.builds_self True) (Nat.le_refl _)
  have hfollows := (below_swaps kind_nowhere t.depth _).expr (.inl rfl) hpart
  exact hfollows.refused none 1 fault (run_of_ofTree_eq_error h)

/-- A tree is never too deep for the depth to which it is built. -/
theorem ofTree_ne_tooDeep (t : Tree) (tag : String) :
    ofTree t ≠ .error (.malformed tag .tooDeep) := by
  intro h
  have hpart : Part (t.Builds False) nowhere t.depth .expr t none :=
    .whole (t.builds_self False) (Nat.le_refl _)
  have hfollows := (below_reaches kind_nowhere t.depth).expr (.inl rfl) hpart
  exact hfollows.refused none 1 _ (run_of_ofTree_eq_error h) tag rfl

/-- Building fails closed. An unknown tree in place of any expression is refused by its tag, and
every refusal names a node of the tree, one with an unknown tag if it calls it unsupported. No tree
is refused for its depth. -/
theorem ofTree_fails_closed (t : Tree) :
    (∀ e p new, ofTree t = .ok e → t.Lowers p → new.kind = none →
      ofTree (t.put p new) = .error (.unsupported new.tag)) ∧
    (∀ fault, ofTree t = .error fault →
      (∃ p u, t.at? p = some u ∧ fault.tag = u.tag) ∧
        ∀ tag, fault = .unsupported tag → Tag.lookup tag = none) ∧
    ∀ tag, ofTree t ≠ .error (.malformed tag .tooDeep) :=
  ⟨fun _ _ _ h hp hnew => ofTree_put h hp hnew, fun _ h => blames_of_ofTree h,
    ofTree_ne_tooDeep t⟩

/-- A test of a case is exchanged, and the refusal names what has taken its place. -/
theorem ofTree_fails_closed_whenTest :
    let t : Tree := ⟨"case", [.node "lvar" [.text "a"],
      .node "when" [.node "int" [.int 1], .node "str" [.text "one"]], .absent]⟩
    let new : Tree := ⟨"pin", [.node "lvar" [.text "b"]]⟩
    (∃ e, ofTree t = .ok e) ∧ t.Lowers [1, 0] ∧ new.kind = none ∧
      ofTree (t.put [1, 0] new) = .error (.unsupported "pin") ∧
      (∃ p u, (t.put [1, 0] new).at? p = some u ∧ "pin" = u.tag) ∧ Tag.lookup "pin" = none := by
  intro t new
  have he : ∃ e, ofTree t = .ok e := ⟨_, rfl⟩
  have hp : t.Lowers [1, 0] := by decide
  have hnew : new.kind = none := by decide
  have hput : ofTree (t.put [1, 0] new) = .error (.unsupported "pin") :=
    he.elim fun e he => (ofTree_fails_closed t).1 e [1, 0] new he hp hnew
  obtain ⟨hnamed, hunknown⟩ := (ofTree_fails_closed (t.put [1, 0] new)).2.1 _ hput
  exact ⟨he, hp, hnew, hput, hnamed, hunknown "pin" rfl⟩

end Expr

end Garnet
