import Garnet.Program.Build.Forms
import Garnet.Proofs.Refusals.Targets

/-!
# Literals after an exchange
-/

namespace Garnet.Build

variable {V : Role → Tree → Hole → Prop} {S : Fault → Prop} {new : Tree} {m : Nat}
variable {b b' : Below}
variable {r r' : Role} {t u : Tree} {hole : Hole}
variable (hp : Pass V S new m b b')

include hp

/-! ## Texts and patterns -/

/-- A child as a piece of an interpolated text. -/
def PieceOf (V : Role → Tree → Hole → Prop) (new : Tree) (m : Nat) (k : Child × Hole) : Prop :=
  match k.1.tree? with
  | some u => if u.hasKind .str then k.2 = none else Part V new m .expr u k.2
  | none => k.2 = none

omit hp in
/-- A tree in front of other pieces. -/
theorem pieces_toChild (below : Below) (u : Tree) (cs : List Child) :
    pieces below (u.toChild :: cs) = (do
      let here ← if u.hasKind .str then pure [Piece.literal ((u.text? 0).getD "")]
        else (fun e => [Piece.hole e]) <$> below.expr u
      pure (here ++ (← pieces below cs))) := by
  rw [Tree.toChild, pieces]

theorem pieces_follows {ks : List (Child × Hole)} (hks : ∀ k ∈ ks, PieceOf V new m k) :
    Follows S new (ks.any (·.2.isSome)) (pieces b (ks.map (·.1)))
      (pieces b' (ks.map fun k => k.1.patched k.2 new)) := by
  induction ks with
  | nil => exact .pure _
  | cons k ks ih =>
    obtain ⟨hk, hks⟩ := List.forall_mem_cons.mp hks
    have hrest (here : List (Piece Expr)) : Follows S new (ks.any (·.2.isSome))
        (do pure (here ++ (← pieces b (ks.map (·.1)))))
        (do pure (here ++ (← pieces b' (ks.map fun k => k.1.patched k.2 new)))) :=
      .congr (.bind (ih hks) fun rest => .pure _) (Bool.or_false _)
    obtain ⟨c, hole⟩ := k
    rw [List.map_cons, List.map_cons, List.any_cons]
    cases c with
    | text | int | float | absent =>
      have hk : hole = none := hk
      subst hk
      rw [Child.patched_none]
      exact .bind (.pure _) hrest
    | node tag children =>
      -- The slot is put together as a tree, of which only the kind matters from here on.
      have hk : PieceOf V new m ((⟨tag, children⟩ : Tree).toChild, hole) := hk
      change Follows S new _ (pieces b ((⟨tag, children⟩ : Tree).toChild :: _))
        (pieces b' (((⟨tag, children⟩ : Tree).patched hole new).toChild :: _))
      generalize (⟨tag, children⟩ : Tree) = u at hk
      rw [PieceOf, Tree.toChild, Child.tree?] at hk
      dsimp only at hk
      rw [pieces_toChild, pieces_toChild]
      by_cases hstr : u.hasKind .str = true
      · rw [if_pos hstr] at hk
        subst hk
        rw [Tree.patched_none, if_pos hstr, if_pos hstr]
        exact .bind (.pure _) hrest
      · rw [if_neg hstr] at hk
        rw [if_neg hstr, hk.hasKind_patched hp.unknown fun h => absurd h hstr, if_neg hstr]
        exact .bind (.map _ (hp.expr (.inl rfl) hk)) hrest

/-- All children are pieces where the table says so. -/
theorem pieceOf_kids (h : Inside V new (m + 1) r t hole) {k : Child × Hole} {i : Nat}
    (hc : t.child? i = some k.1) (hk : k.2 = hole.below i)
    (hi : ∀ u, t.tree? i = some u → r.slot t i u = Role.piece u) : PieceOf V new m k := by
  have htree : t.tree? i = k.1.tree? := by rw [Tree.tree?, hc]; rfl
  unfold PieceOf
  cases hu : k.1.tree? with
  | none =>
    rw [hk]
    exact h.below_of_tree?_eq_none (htree.trans hu)
  | some u =>
    rw [hu] at htree
    have hpiece := hi u htree
    dsimp only
    split
    case isTrue hstr =>
      rw [Role.piece, if_pos hstr] at hpiece
      rw [hk]
      exact h.below_eq_none fun u' hu' => by
        cases htree.symm.trans hu'
        exact hpiece
    case isFalse hstr =>
      rw [Role.piece, if_neg hstr] at hpiece
      rw [hk]
      exact h.child hp htree hpiece

theorem interpolated_follows (h : Inside V new (m + 1) r t hole)
    (hi : ∀ i u, r.slot t i u = Role.piece u) :
    Follows S new hole.isSome (pieces b t.children) (pieces b' (t.patched hole new).children) := by
  rw [← t.map_fst_kids hole, Tree.patched_eq h.ne]
  refine .congr (pieces_follows hp fun k hk => ?_) h.covered_kids
  obtain ⟨i, hc, hk⟩ := Tree.mem_kids hk
  exact pieceOf_kids hp h hc hk fun u _ => hi i u

omit hp in
/-- A pattern without options. -/
theorem regexp_eq {below : Below}
    (h : ∀ u, t.children.getLast?.bind Child.tree? = some u → u.hasKind .regopt = false) :
    regexp below t = (do
      let ps ← pieces below t.children
      pure (.regexp ps "")) := by
  unfold regexp
  cases hlast : t.children.getLast?.bind Child.tree? with
  | none => rfl
  | some u => simp only [h u hlast, Bool.false_eq_true, if_false]

omit hp in
/-- A pattern with options. -/
theorem regexp_eq_of_options {below : Below} {cs : List Child} {c : Child}
    (ht : t.children = cs ++ [c]) (hc : c.tree? = some u) (hu : u.hasKind .regopt = true) :
    regexp below t = (do
      let ps ← pieces below cs
      pure (.regexp ps (String.join (u.children.filterMap Child.text?)))) := by
  unfold regexp
  simp only [ht, List.getLast?_concat, Option.bind_some, List.dropLast_concat, hc, hu, if_true]

/-- A piece is no options after the exchange if it was none before. -/
theorem PieceOf.hasKind_patched {k : Child × Hole} (hk : PieceOf V new m k)
    (hoptions : ∀ u, k.1.tree? = some u → u.hasKind .regopt = false) {v : Tree}
    (hv : (k.1.patched k.2 new).tree? = some v) : v.hasKind .regopt = false := by
  rw [Child.tree?_patched] at hv
  obtain ⟨u, hu, rfl⟩ := Option.map_eq_some_iff.mp hv
  have hregopt := hoptions u hu
  rw [PieceOf, hu] at hk
  dsimp only at hk
  split at hk
  case isTrue =>
    rw [hk, Tree.patched_none]
    exact hregopt
  case isFalse =>
    rw [hk.hasKind_patched hp.unknown fun h => absurd (hregopt.symm.trans h) Bool.false_ne_true]
    exact hregopt

section

variable (h : Inside V new (m + 1) r t hole)
variable (hi : ∀ i u, r.slot t i u =
  if i + 1 = t.size ∧ u.hasKind .regopt then none else Role.piece u)

include h hi

/-- All children of a pattern are pieces, apart from the last one if it holds options. -/
theorem pieceOf_regexp {k : Child × Hole} {i : Nat} (hk : (t.kids hole)[i]? = some k)
    (hplain : i + 1 = t.size → ∀ u, k.1.tree? = some u → u.hasKind .regopt = false) :
    PieceOf V new m k := by
  obtain ⟨hc, hbelow⟩ := Tree.child?_of_kids hk
  refine pieceOf_kids hp h hc hbelow fun u hu => ?_
  have htree : k.1.tree? = some u := by rw [Tree.tree?, hc] at hu; exact hu
  rw [hi, if_neg]
  rintro ⟨hlast, hregopt⟩
  exact Bool.false_ne_true ((hplain hlast u htree).symm.trans hregopt)

theorem regexp_follows_plain
    (hplain : ∀ k, (t.kids hole).getLast? = some k →
      ∀ u, k.1.tree? = some u → u.hasKind .regopt = false) :
    Follows S new hole.isSome (regexp b t) (regexp b' (t.patched hole new)) := by
  have hchildren := t.map_fst_kids hole
  have hpatched : (t.patched hole new).children =
      (t.kids hole).map fun k => k.1.patched k.2 new := by rw [Tree.patched_eq h.ne]
  have hpieces : ∀ k ∈ t.kids hole, PieceOf V new m k := by
    intro k hk
    obtain ⟨i, hki⟩ := List.mem_iff_getElem?.mp hk
    refine pieceOf_regexp hp h hi hki fun hlast => hplain k ?_
    rw [Tree.size, ← hchildren, List.length_map] at hlast
    rw [List.getLast?_eq_getElem?, ← hlast, Nat.add_sub_cancel, hki]
  rw [regexp_eq fun u hu => ?before, regexp_eq fun u hu => ?after, hpatched, ← hchildren]
  case before =>
    rw [← hchildren, List.getLast?_map] at hu
    obtain ⟨c, hc, hu⟩ := Option.bind_eq_some_iff.mp hu
    obtain ⟨k, hk, rfl⟩ := Option.map_eq_some_iff.mp hc
    exact hplain k hk u hu
  case after =>
    rw [hpatched, List.getLast?_map] at hu
    obtain ⟨c, hc, hu⟩ := Option.bind_eq_some_iff.mp hu
    obtain ⟨k, hk, rfl⟩ := Option.map_eq_some_iff.mp hc
    exact (hpieces k (List.mem_of_getLast? hk)).hasKind_patched hp (hplain k hk) hu
  exact .congr (.bind (pieces_follows hp hpieces) fun ps => .pure _)
    ((Bool.or_false _).trans h.covered_kids)

theorem regexp_follows_options {ks : List (Child × Hole)} {k : Child × Hole}
    (hkids : t.kids hole = ks ++ [k]) (hu : k.1.tree? = some u) (hregopt : u.hasKind .regopt) :
    Follows S new hole.isSome (regexp b t) (regexp b' (t.patched hole new)) := by
  have hchildren := t.map_fst_kids hole
  have hpatched : (t.patched hole new).children =
      (t.kids hole).map fun k => k.1.patched k.2 new := by rw [Tree.patched_eq h.ne]
  rw [hkids, List.map_append] at hchildren hpatched
  have hlength : t.size = ks.length + 1 := by
    rw [Tree.size, ← hchildren, List.length_append, List.length_map, List.length_map,
      List.length_singleton]
  have hinit : ∀ k' ∈ ks, PieceOf V new m k' := by
    intro k' hk'
    obtain ⟨i, hk'⟩ := List.mem_iff_getElem?.mp hk'
    obtain ⟨hlt, -⟩ := List.getElem?_eq_some_iff.mp hk'
    refine pieceOf_regexp hp h hi (i := i) ?_ fun hlast => absurd hlast (by omega)
    rw [hkids, List.getElem?_append_left hlt, hk']
  have hnone : k.2 = none := by
    have hkid : (t.kids hole)[ks.length]? = some k := by rw [hkids, List.getElem?_concat_length]
    obtain ⟨hc, hbelow⟩ := Tree.child?_of_kids hkid
    rw [hbelow]
    refine h.below_eq_none fun u' hu' => ?_
    rw [Tree.tree?, hc, Option.bind_some, hu] at hu'
    cases hu'
    rw [hi, if_pos ⟨hlength.symm, hregopt⟩]
  have hafter : (k.1.patched k.2 new).tree? = some u := by rw [hnone, Child.patched_none, hu]
  have hhit : ks.any (·.2.isSome) = hole.isSome := by
    rw [← h.covered_kids, hkids, List.any_append, List.any_cons, hnone]
    exact (Bool.or_false _).symm
  rw [regexp_eq_of_options hchildren.symm hu hregopt,
    regexp_eq_of_options hpatched hafter hregopt]
  exact .congr (.bind (pieces_follows hp hinit) fun ps => .pure _) ((Bool.or_false _).trans hhit)

/-- A pattern, whose last child may hold its options. -/
theorem regexp_follows :
    Follows S new hole.isSome (regexp b t) (regexp b' (t.patched hole new)) := by
  by_cases hoptions : ∃ k u, (t.kids hole).getLast? = some k ∧ k.1.tree? = some u ∧
      u.hasKind .regopt = true
  · obtain ⟨k, u, hlast, hu, hregopt⟩ := hoptions
    obtain ⟨ks, hkids⟩ := List.getLast?_eq_some_iff.mp hlast
    exact regexp_follows_options hp h hi hkids hu hregopt
  · refine regexp_follows_plain hp h hi fun k hk u hu => ?_
    exact Bool.eq_false_iff.mpr fun hregopt => hoptions ⟨k, u, hk, hu, hregopt⟩

end

/-! ## Numbers -/

theorem int_follows (h : V r t hole) : Follows S new false (int t) (int t) := by
  unfold int
  split
  · exact .pure _
  · split
    · exact .pure _
    · exact .malformed (hp.malformed h rfl) _
  · exact .malformed (hp.malformed h rfl) _

theorem float_follows (h : V r t hole) : Follows S new false (float t) (float t) := by
  unfold float
  split
  · exact .pure _
  · exact .pure _
  · exact .malformed (hp.malformed h rfl) _

theorem group_follows (h : V r t hole) : Follows S new false (group t) (group t) := by
  unfold group
  split
  · split
    · exact .malformed (hp.malformed h rfl) _
    · exact .pure _
  · exact .malformed (hp.malformed h rfl) _

/-! ## Collections -/

theorem array_follows (h : Inside V new (m + 1) r t hole)
    (hi : ∀ i u, r.slot t i u = some (.item u)) :
    Follows S new hole.isSome (array b t) (array b' (t.patched hole new)) := by
  have hcovered := h.covered_spots [] 0 fun i _ _ _ _ => .inr i.zero_le
  exact .map _ (.congr (items_follows hp h 0 fun i u _ => hi i u) hcovered)

theorem hash_follows (h : Inside V new (m + 1) r t hole)
    (hi : ∀ i u, r.slot t i u = some .pair) :
    Follows S new hole.isSome (hash b t) (hash b' (t.patched hole new)) := by
  have hcovered := h.covered_spots [] 0 fun i _ _ _ _ => .inr i.zero_le
  refine .congr (.bind (treesFrom_follows h 0 fun i u _ hu => ?_) fun pairs => .pure _)
    ((Bool.or_false _).trans hcovered)
  have hin := (h.child hp hu (hi i u)).inside nofun
  have hrow := hin.covered_row [(0, .expr), (1, .expr)] fun _ _ => rfl
  rw [Tree.hasKind_patched hin.ne]
  split
  · exact .malformed (hp.malformed h.built rfl) _
  · exact .congr (treeAt_follows hp hin 0 fun v hv =>
      .bind (hp.expr (.inl rfl) (hin.child hp hv rfl)) fun key =>
      treeAt_follows hp hin 1 fun w hw =>
      .bind (hp.expr (.inl rfl) (hin.child hp hw rfl)) fun value => .pure _) hrow

theorem range_follows (h : Inside V new (m + 1) r t hole)
    (hi : ∀ i u, r.slot t i u = [(0, .expr), (1, .expr)].lookup i) (exclusive : Bool) :
    Follows S new hole.isSome (range b t exclusive) (range b' (t.patched hole new) exclusive) :=
  .congr (.bind (slot_follows hp h 0 (hi 0)) fun _ =>
    .bind (slot_follows hp h 1 (hi 1)) fun _ => .pure _) (h.covered_row _ hi)

end Garnet.Build
