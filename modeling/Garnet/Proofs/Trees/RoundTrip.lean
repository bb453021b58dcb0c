import Garnet.Proofs.Trees.Reread

/-!
# Writing a tree and reading it back

The written form of a tree is read back as an equal tree exactly when every tag in it stands as one
word, every double in it is finite and no character of a text in it is written by its code point.
-/

namespace Garnet

open Decimal Reader

/-! ## Which slots stay as they are -/

namespace Child

variable {c : Child} {cs : List Child}

/-- A slot is read back as an equal one. -/
def Returns (c : Child) : Prop := ∃ d, reread c = some d ∧ beq d c = true

def ReturnsAll (cs : List Child) : Prop := ∃ ds, rereadAll cs = some ds ∧ beqAll ds cs = true

theorem returns_node {tag : String} : Returns (.node tag cs) ↔ ReturnsAll cs := by
  simp [Returns, ReturnsAll, reread, beq]

theorem returnsAll_cons : ReturnsAll (c :: cs) ↔ c.Returns ∧ ReturnsAll cs := by
  simp only [Returns, ReturnsAll, rereadAll]
  constructor
  · rintro ⟨ds, hds, heq⟩
    obtain ⟨d, hd, hds⟩ := Option.bind_eq_some_iff.mp hds
    obtain ⟨es, hes, rfl⟩ := Option.map_eq_some_iff.mp hds
    simp only [beqAll, Bool.and_eq_true] at heq
    exact ⟨⟨d, hd, heq.1⟩, es, hes, heq.2⟩
  · rintro ⟨⟨d, hd, hbeq⟩, es, hes, hbeqs⟩
    refine ⟨d :: es, by rw [hd, hes]; rfl, ?_⟩
    simp only [beqAll, hbeq, hbeqs, Bool.and_self]

theorem returns_float {x : Float} (hx : (Finite.ofFloat? x).isSome → ReadsBack x) :
    Returns (.float x) ↔ (Finite.ofFloat? x).isSome := by
  constructor
  · rintro ⟨d, hd, -⟩
    by_contra h
    rw [reread, if_neg h] at hd
    cases hd
  · intro h
    obtain ⟨y, hy, heq⟩ := hx h
    exact ⟨.float y, by rw [reread, if_pos h, hy]; rfl, by rw [beq, heq]⟩

theorem returns_text {s : String} : Returns (.text s) ↔ ∀ ch ∈ s.toList, ¬IsEscaped ch := by
  rw [← flatMap_rereadChar_eq_self_iff]
  simp only [Returns, reread, Option.some.injEq, exists_eq_left', beq, beq_iff_eq]
  rw [← String.toList_inj, String.toList_ofList]

mutual

/-- A slot returns from the reader when all that it is made of stays as it is. -/
theorem returns_iff : ∀ {c : Child}, c.Named →
    (∀ x, .float x ∈ c.parts → (Finite.ofFloat? x).isSome → ReadsBack x) →
    (c.Returns ↔ ∀ p ∈ c.parts, p.Stays)
  | .node tag cs, hc, hx => by
    obtain ⟨htag, hcs⟩ := named_node.mp hc
    rw [returns_node, returnsAll_iff hcs fun x h => hx x (List.mem_cons_of_mem _ h), parts,
      List.forall_mem_cons]
    exact (and_iff_right htag).symm
  | .int v, _, _ => by simp [Returns, reread, beq, parts, Stays]
  | .float x, _, hx => by
    rw [returns_float (hx x List.mem_cons_self)]
    simp [parts, Stays]
  | .text s, _, _ => by
    rw [returns_text]
    simp [parts, Stays]
  | .absent, _, _ => by simp [Returns, reread, beq, parts, Stays]

theorem returnsAll_iff : ∀ {cs : List Child}, NamedAll cs →
    (∀ x, .float x ∈ partsAll cs → (Finite.ofFloat? x).isSome → ReadsBack x) →
    (ReturnsAll cs ↔ ∀ p ∈ partsAll cs, p.Stays)
  | [], _, _ => by simp [ReturnsAll, rereadAll, beqAll, partsAll]
  | c :: cs, hc, hx => by
    obtain ⟨hhead, htail⟩ := namedAll_cons.mp hc
    rw [returnsAll_cons, returns_iff hhead fun x h => hx x (List.mem_append_left _ h),
      returnsAll_iff htail fun x h => hx x (List.mem_append_right _ h), partsAll,
      List.forall_mem_append]

end

end Child

/-! ## Tags that were read -/

namespace Reader

open Child

theorem isName_word {r : Cursor} (h : r.word.1 ≠ []) : IsName (String.ofList r.word.1) := by
  refine ⟨by simpa using h, ?_⟩
  intro c hc
  have hends : endsWord c = false := by
    have := List.mem_takeWhile_imp (String.toList_ofList ▸ hc)
    simpa using this
  simp only [endsWord, isBlank, Bool.or_eq_false_iff, beq_eq_false_iff_ne] at hends
  simp [hends]

theorem named_of_number? {w : List Char} {x : Child} (h : number? w = some x) : x.Named := by
  simp only [number?] at h
  split at h
  · cases h
  · split at h
    · cases h
    · split at h
      · split at h <;> split at h <;> cases h
        · exact named_int _
        · exact named_text _
        · exact named_int _
        · exact named_text _
      · obtain ⟨v, -, rfl⟩ := Option.map_eq_some_iff.mp h
        exact named_float v

theorem exists_of_bind_ok {ε α β : Type} {r : Except ε α} {f : α → Except ε β} {b : β}
    (h : r >>= f = .ok b) : ∃ a, r = .ok a ∧ f a = .ok b := by
  cases r with
  | error e => cases h
  | ok a => exact ⟨a, rfl, h⟩

/-- Every tag that the reader gives was a word of the text. -/
theorem named_of_read (fuel : Nat) :
    (∀ {r t after}, node fuel r = .ok (t, after) → t.toChild.Named) ∧
    (∀ {r xs after}, siblings fuel r = .ok (xs, after) → NamedAll xs) ∧
    ∀ {r x after}, child fuel r = .ok (x, after) → x.Named := by
  induction fuel with
  | zero => refine ⟨?_, ?_, ?_⟩ <;> intro _ _ _ h <;> cases h
  | succ fuel ih =>
    obtain ⟨hnode, hsiblings, hchild⟩ := ih
    refine ⟨fun {r t after} h => ?_, fun {r xs after} h => ?_, fun {r x after} h => ?_⟩
    · rw [node.eq_def] at h
      dsimp only at h
      split at h
      · split at h
        · cases h
        · rename_i hne
          obtain ⟨⟨cs, _⟩, hcs, h⟩ := exists_of_bind_ok h
          cases h
          exact named_node.mpr ⟨isName_word (by simpa using hne), hsiblings hcs⟩
      · cases h
    · rw [siblings.eq_def] at h
      dsimp only at h
      split at h
      · cases h
      · cases h
        exact namedAll_nil
      · obtain ⟨⟨c, _⟩, hc, h⟩ := exists_of_bind_ok h
        obtain ⟨⟨cs, _⟩, hcs, h⟩ := exists_of_bind_ok h
        cases h
        exact namedAll_cons.mpr ⟨hchild hc, hsiblings hcs⟩
    · rw [child.eq_def] at h
      dsimp only at h
      split at h
      · obtain ⟨⟨t, _⟩, ht, h⟩ := exists_of_bind_ok h
        cases h
        exact hnode ht
      · obtain ⟨⟨s, _⟩, -, h⟩ := exists_of_bind_ok h
        cases h
        exact named_text s
      · obtain ⟨⟨s, _⟩, -, h⟩ := exists_of_bind_ok h
        cases h
        exact named_text s
      · split at h
        · cases h
        · cases h
          exact named_text _
      · split at h
        · cases h
          exact named_absent
        · split at h
          · rename_i hx
            cases h
            exact named_of_number? hx
          · cases h

end Reader

/-! ## The round trip -/

namespace Tree

open Child

variable {t u : Tree} {text : String}

theorem named_of_parse (h : Tree.parse text = .ok t) : t.toChild.Named := by
  obtain ⟨⟨t, after⟩, ht, h⟩ := exists_of_bind_ok h
  dsimp only at h
  split at h
  · cases h
    exact (named_of_read _).1 ht
  · cases h

theorem beq_iff : (u == t) = true ↔ Child.beq u.toChild t.toChild = true := by
  simp only [toChild, Child.beq]
  rfl

/-- The reader on the written form of a tree whose tags stand as words. -/
theorem parse_print (h : t.toChild.Named) :
    (Tree.parse t.print).toOption = (rereadAll t.children).map (⟨t.tag, ·⟩) := by
  obtain ⟨ht, hcs⟩ := named_node.mp h
  have hprint : t.print.toList = t.toChild.print := String.toList_ofList
  have hskip : (Cursor.mk t.print.toList 0).skipBlanks = ⟨t.toChild.print, 0⟩ := by
    rw [hprint]
    obtain ⟨d, ds, heq, hblank, -⟩ := exists_print_eq t.toChild
    rw [heq]
    exact skipBlanks_of_head hblank 0
  have hread : outcome (node (2 * t.toChild.print.length + 2) ⟨t.toChild.print, 0⟩) =
      (rereadAll t.children).map fun ds => (⟨t.tag, ds⟩, []) := by
    have hlength : 2 * (printAll t.children).length + 1 ≤ 2 * t.toChild.print.length + 1 := by
      simp [toChild, Child.print]
      omega
    have := outcome_node ht (fun o => outcome_siblings t.children [] o hcs hlength) 0
    rwa [List.append_nil] at this
  rw [Tree.parse, hskip]
  generalize node (2 * t.toChild.print.length + 2) ⟨t.toChild.print, 0⟩ = read at hread
  match read, rereadAll t.children, hread with
  | .error _, none, _ => rfl
  | .ok (u, ⟨rest, offset⟩), some ds, hread =>
    cases hread
    rfl

theorem exists_parse_print_iff (h : t.toChild.Named) :
    (∃ u, Tree.parse t.print = .ok u ∧ (u == t) = true) ↔ t.toChild.Returns := by
  have hread := parse_print h
  rw [toChild, returns_node]
  constructor
  · rintro ⟨u, hu, heq⟩
    rw [hu] at hread
    obtain ⟨ds, hds, rfl⟩ := Option.map_eq_some_iff.mp hread.symm
    exact ⟨ds, hds, (Bool.and_eq_true_iff.mp heq).2⟩
  · rintro ⟨ds, hds, heq⟩
    rw [hds] at hread
    refine ⟨⟨t.tag, ds⟩, ?_, Bool.and_eq_true_iff.mpr ⟨beq_self_eq_true t.tag, heq⟩⟩
    generalize Tree.parse t.print = r at hread
    cases r with
    | error e => cases hread
    | ok u => rw [Option.some.inj hread]

/-- A tree is read back from its written form as an equal tree exactly when it is legible, provided
that what is written for each finite double in it reads back. -/
theorem parse_print_iff (t : Tree)
    (hfloat : ∀ x, .float x ∈ t.toChild.parts → (Finite.ofFloat? x).isSome → ReadsBack x) :
    (∃ u, Tree.parse t.print = .ok u ∧ (u == t) = true) ↔ t.toChild.Legible := by
  constructor
  · rintro ⟨u, hu, heq⟩
    have hnamed : t.toChild.Named := (named_of_parse hu).of_beq (beq_iff.mp heq)
    have hreturns := (exists_parse_print_iff hnamed).mp ⟨u, hu, heq⟩
    exact legible_iff.mpr ((returns_iff hnamed hfloat).mp hreturns)
  · intro h
    have hreturns := (returns_iff h.named hfloat).mpr (legible_iff.mp h)
    exact (exists_parse_print_iff h.named).mpr hreturns

/-- A call with doubles, a quoted text, a nested tree and an absent child. -/
def sampleCall : Tree :=
  ⟨"send", [.node "float" [.float 1.5], .text "say \"hi\"\n", .float (-0.0), .int (-3), .absent]⟩

theorem parse_print_sampleCall :
    (∀ x, .float x ∈ sampleCall.toChild.parts → (Finite.ofFloat? x).isSome → ReadsBack x) ∧
      ∃ u, Tree.parse sampleCall.print = .ok u ∧ (u == sampleCall) = true := by
  have hfloat : ∀ x, .float x ∈ sampleCall.toChild.parts →
      (Finite.ofFloat? x).isSome → ReadsBack x := by
    intro x hx _
    simp only [sampleCall, toChild, parts, partsAll, List.mem_cons, List.mem_append,
      Child.float.injEq, List.not_mem_nil, reduceCtorEq, or_false, false_or] at hx
    rcases hx with rfl | rfl
    · exact ⟨1.5, by decide +kernel, by decide +kernel⟩
    · exact ⟨-0.0, by decide +kernel, by decide +kernel⟩
  exact ⟨hfloat, (parse_print_iff sampleCall hfloat).mpr (by decide +kernel)⟩

end Tree

end Garnet
