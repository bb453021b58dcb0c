import Garnet.Proofs.Trees.Words

/-!
# Written trees

What a tree is made of, and what the reader makes of what the printer has written.
-/

/-!
## What a tree is made of

The slots nested in a slot, and what each must be for the written form of the whole to be read back:
a tag has to stand as one word, a double has to be finite, and no character of a text may be written
by its code point.
-/

namespace Garnet

/-- A tag that stands as one word in the written form of a tree. -/
def IsName (tag : String) : Prop :=
  tag ≠ "" ∧ ∀ c ∈ tag.toList, c ∉ [' ', '\t', '\n', '\x0c', '\r', ',', '(', ')']

-- by the characters of the tag, not by all characters that there are
instance (tag : String) : Decidable (IsName tag) :=
  @instDecidableAnd _ _ inferInstance (List.decidableBAll _ _)

namespace Child

mutual

/-- A slot and all slots nested in it. -/
def parts : Child → List Child
  | .node tag children => .node tag children :: partsAll children
  | c => [c]

def partsAll : List Child → List Child
  | [] => []
  | c :: cs => parts c ++ partsAll cs

end

/-- Every tag in the slot stands as one word. -/
def Named (c : Child) : Prop := ∀ tag cs, .node tag cs ∈ c.parts → IsName tag

def NamedAll (cs : List Child) : Prop := ∀ tag ds, .node tag ds ∈ partsAll cs → IsName tag

/-- Nothing in the slot is written in a way that reads as something else. -/
structure Legible (c : Child) : Prop where
  named : c.Named
  finite : ∀ x, .float x ∈ c.parts → (Decimal.Finite.ofFloat? x).isSome
  shown : ∀ s, .text s ∈ c.parts → ∀ ch ∈ s.toList, ¬Reader.IsEscaped ch

variable {c d : Child} {cs ds : List Child} {tag : String}

@[simp] theorem named_node : Named (.node tag cs) ↔ IsName tag ∧ NamedAll cs := by
  simp only [Named, NamedAll, parts, List.mem_cons, node.injEq]
  constructor
  · intro h
    exact ⟨h tag cs (.inl ⟨rfl, rfl⟩), fun t ds hd => h t ds (.inr hd)⟩
  · rintro ⟨ht, hcs⟩ t ds (⟨rfl, rfl⟩ | hd)
    · exact ht
    · exact hcs t ds hd

/-- A slot with nothing nested in it. -/
theorem named_leaf (h : c.parts = [c]) (hc : ∀ tag cs, .node tag cs ≠ c) : c.Named := by
  intro t ds hd
  rw [h, List.mem_singleton] at hd
  exact absurd hd (hc t ds)

@[simp] theorem named_int (v : Int64) : Named (.int v) :=
  named_leaf rfl (by simp)

@[simp] theorem named_float (x : Float) : Named (.float x) :=
  named_leaf rfl (by simp)

@[simp] theorem named_text (s : String) : Named (.text s) :=
  named_leaf rfl (by simp)

@[simp] theorem named_absent : Named .absent :=
  named_leaf rfl (by simp)

@[simp] theorem namedAll_nil : NamedAll [] := by
  simp [NamedAll, partsAll]

@[simp] theorem namedAll_cons : NamedAll (c :: cs) ↔ c.Named ∧ NamedAll cs := by
  simp only [Named, NamedAll, partsAll, List.mem_append, or_imp, forall_and]

/-- What a slot must be to stay as it is, apart from the slots nested in it. -/
def Stays : Child → Prop
  | .node tag _ => IsName tag
  | .float x => (Decimal.Finite.ofFloat? x).isSome
  | .text s => ∀ ch ∈ s.toList, ¬Reader.IsEscaped ch
  | .int _ | .absent => True

instance (c : Child) : Decidable c.Stays :=
  match c with
  | .node tag _ => inferInstanceAs (Decidable (IsName tag))
  | .float x => inferInstanceAs (Decidable ((Decimal.Finite.ofFloat? x).isSome = true))
  | .text s => List.decidableBAll _ s.toList
  | .int _ | .absent => .isTrue trivial

theorem legible_iff : c.Legible ↔ ∀ p ∈ c.parts, p.Stays := by
  constructor
  · rintro ⟨hnamed, hfinite, hshown⟩ p hp
    cases p with
    | node tag cs => exact hnamed tag cs hp
    | float x => exact hfinite x hp
    | text s => exact hshown s hp
    | int _ | absent => trivial
  · intro h
    exact ⟨fun tag cs hc => h _ hc, fun x hx => h _ hx, fun s hs => h _ hs⟩

instance (c : Child) : Decidable c.Legible := decidable_of_iff _ legible_iff.symm

/-! ### Equal trees -/

mutual

/-- Equal slots have the same tags. -/
theorem Named.of_beq : ∀ {c d : Child}, beq c d → c.Named → d.Named
  | .node s xs, .node t ys, h, hc => by
    simp only [beq, Bool.and_eq_true, beq_iff_eq] at h
    obtain ⟨rfl, h⟩ := h
    rw [named_node] at hc ⊢
    exact ⟨hc.1, NamedAll.of_beqAll h hc.2⟩
  | _, .int v, _, _ => named_int v
  | _, .float x, _, _ => named_float x
  | _, .text s, _, _ => named_text s
  | _, .absent, _, _ => named_absent

theorem NamedAll.of_beqAll : ∀ {cs ds : List Child}, beqAll cs ds → NamedAll cs → NamedAll ds
  | [], [], _, hc => hc
  | c :: cs, d :: ds, h, hc => by
    simp only [beqAll, Bool.and_eq_true] at h
    rw [namedAll_cons] at hc ⊢
    exact ⟨hc.1.of_beq h.1, NamedAll.of_beqAll h.2 hc.2⟩

end

end Child

end Garnet

/-!
## What the reader makes of a written tree

For a tree whose tags stand as words the reader follows the printer slot by slot, so the outcome can
be written down as a function of the tree: integers and absent children stay, a double becomes what
its numeral stands for, and a character that was written by its code point stays spelled out.
-/

namespace Garnet

open Decimal Reader

variable {c : Child} {cs : List Child} {rest : List Char}

namespace Child

mutual

/-- What reading the written form of a slot gives, if it gives anything. -/
def reread : Child → Option Child
  | .node tag children => (rereadAll children).map (.node tag)
  | .int v => some (.int v)
  | .float v => if (Finite.ofFloat? v).isSome then (float? (plainWithPoint v)).map .float else none
  | .text s => some (.text (String.ofList (s.toList.flatMap rereadChar)))
  | .absent => some .absent

def rereadAll : List Child → Option (List Child)
  | [] => some []
  | c :: cs => (reread c).bind fun d => (rereadAll cs).map (d :: ·)

end

end Child

namespace Reader

open Child

/-! ### The written form -/

theorem not_endsWord_of_name {tag : String} (h : IsName tag) :
    ∀ c ∈ tag.toList, endsWord c = false := by
  intro c hc
  have := h.2 c hc
  simp only [List.mem_cons, List.not_mem_nil, or_false, not_or] at this
  simp [endsWord, isBlank, this]

/-- The written form of a slot starts with what neither separates slots nor closes a tree. -/
theorem exists_print_eq (c : Child) :
    ∃ d ds, c.print = d :: ds ∧ isBlank d = false ∧ d ≠ ')' := by
  have hbare : ∀ w, Bare w → ∃ d ds, w = d :: ds ∧ isBlank d = false ∧ d ≠ ')' := by
    intro w hw
    obtain ⟨d, ds, rfl, -⟩ := hw.head
    have hd := hw.chars d List.mem_cons_self
    simp only [endsWord, Bool.or_eq_false_iff, beq_eq_false_iff_ne] at hd
    exact ⟨d, ds, rfl, hd.1.1, hd.2⟩
  cases c with
  | node tag cs => exact ⟨'(', _, by rw [print]; rfl, by decide, by decide⟩
  | int v => exact hbare _ (by rw [print]; exact bare_intText _)
  | float v => exact hbare _ (by rw [print]; exact bare_plainWithPoint v)
  | text s => exact ⟨'"', _, by rw [print]; rfl, by decide, by decide⟩
  | absent => exact ⟨'n', _, by rw [print]; rfl, by decide, by decide⟩

theorem stops_printAll (cs : List Child) (rest : List Char) :
    Stops (printAll cs ++ ')' :: rest) := by
  cases cs with
  | nil => exact ⟨')', rest, by rw [printAll]; rfl, by decide⟩
  | cons c cs => exact ⟨' ', _, by rw [printAll]; rfl, by decide⟩

/-! ### The reader on it -/

theorem skipBlanks_of_head {d : Char} {ds : List Char} (hd : isBlank d = false) (offset : Nat) :
    (Cursor.mk (d :: ds) offset).skipBlanks = ⟨d :: ds, offset⟩ := by
  simp [Cursor.skipBlanks, Cursor.skipWhile, hd, byteLength]

theorem skipBlanks_blank {d : Char} {ds : List Char} (hd : isBlank d = false) (offset : Nat) :
    (Cursor.mk (' ' :: d :: ds) offset).skipBlanks = ⟨d :: ds, offset + 1⟩ := by
  have hblank : isBlank ' ' = true := by decide
  simp only [Cursor.skipBlanks, Cursor.skipWhile, List.dropWhile_cons, List.takeWhile_cons, hd,
    hblank, if_true, Bool.false_eq_true, if_false]
  rfl

theorem outcome_siblings_close (fuel offset : Nat) (rest : List Char) :
    outcome (siblings (fuel + 1) ⟨')' :: rest, offset⟩) = some ([], rest) := by
  rw [siblings.eq_def]
  dsimp only
  rw [skipBlanks_of_head (by decide)]
  rfl

/-- A further slot after a blank. -/
theorem outcome_siblings_cons {x : Option Child} {xs : Option (List Child)} {fuel : Nat}
    {more rest : List Char}
    (hc : ∀ offset, outcome (child fuel ⟨c.print ++ more, offset⟩) = x.map (·, more))
    (hcs : ∀ offset, outcome (siblings fuel ⟨more, offset⟩) = xs.map (·, rest)) (offset : Nat) :
    outcome (siblings (fuel + 1) ⟨' ' :: c.print ++ more, offset⟩) =
      (x.bind fun y => xs.map (y :: ·)).map (·, rest) := by
  obtain ⟨d, ds, hprint, hblank, hclose⟩ := exists_print_eq c
  have hskip : (Cursor.mk (' ' :: c.print ++ more) offset).skipBlanks =
      ⟨c.print ++ more, offset + 1⟩ := by
    rw [hprint]
    exact skipBlanks_blank hblank offset
  rw [siblings.eq_def]
  dsimp only
  rw [hskip]
  dsimp only
  split
  case h_1 h => simp [hprint] at h
  case h_2 h =>
    rw [hprint] at h
    exact absurd (List.cons.inj h).1 hclose
  case h_3 =>
    rw [outcome_bind (fun y => (xs.map (y :: ·)).map (·, rest)) (hc _)]
    · cases x <;> rfl
    · intro y o
      dsimp only
      rw [outcome_bind_ok, hcs]
      cases xs <;> rfl

/-- A tree whose tag stands as one word, given the reader on its children. -/
theorem outcome_node {tag : String} {fuel : Nat} (ht : IsName tag)
    (hcs : ∀ offset, outcome (siblings fuel ⟨printAll cs ++ ')' :: rest, offset⟩) =
      (rereadAll cs).map (·, rest)) (offset : Nat) :
    outcome (node (fuel + 1) ⟨(Child.node tag cs).print ++ rest, offset⟩) =
      (rereadAll cs).map fun ds => (⟨tag, ds⟩, rest) := by
  have hname := not_endsWord_of_name ht
  have hne : tag.toList ≠ [] := by simpa using ht.1
  have hprint : (Child.node tag cs).print ++ rest =
      '(' :: (tag.toList ++ (printAll cs ++ ')' :: rest)) := by
    simp [print]
  have hskip : (Cursor.mk (tag.toList ++ (printAll cs ++ ')' :: rest)) (offset + 1)).skipBlanks =
      ⟨tag.toList ++ (printAll cs ++ ')' :: rest), offset + 1⟩ := by
    obtain ⟨d, ds, htag⟩ := List.exists_cons_of_ne_nil hne
    have hd := hname d (htag ▸ List.mem_cons_self)
    simp only [endsWord, Bool.or_eq_false_iff] at hd
    rw [htag]
    exact skipBlanks_of_head hd.1.1 _
  rw [hprint, node_open, hskip, word_append hname (stops_printAll cs rest)]
  dsimp only
  rw [if_neg (by simpa using hne), outcome_bind_ok, hcs, String.ofList_toList, Option.map_map]
  rfl

theorem outcome_text (s : String) (fuel offset : Nat) (rest : List Char) :
    outcome (child (fuel + 1) ⟨(Child.text s).print ++ rest, offset⟩) =
      (reread (.text s)).map (·, rest) := by
  have hprint : (Child.text s).print ++ rest =
      '"' :: (s.toList.flatMap Text.Quoted.encodeChar ++ '"' :: rest) := by
    simp [print, Text.Quoted.encode]
  rw [hprint, child_quote, outcome_bind_ok, outcome_quoted]
  rfl

mutual

/-- The reader on the written form of a slot. -/
theorem outcome_child : ∀ (c : Child) {fuel : Nat} {rest : List Char} (offset : Nat), c.Named →
    2 * c.print.length ≤ fuel → Stops rest →
    outcome (child fuel ⟨c.print ++ rest, offset⟩) = (reread c).map (·, rest)
  | .node tag cs, fuel, rest, offset, hc, hf, _ => by
    rw [named_node] at hc
    obtain ⟨fuel, rfl⟩ : ∃ f, fuel = f + 2 := ⟨fuel - 2, by simp [print] at hf; omega⟩
    have hcs : ∀ o, outcome (siblings fuel ⟨printAll cs ++ ')' :: rest, o⟩) =
        (rereadAll cs).map (·, rest) :=
      fun o => outcome_siblings cs rest o hc.2 (by simp [print] at hf; omega)
    have hopen : (Child.node tag cs).print ++ rest =
        '(' :: (tag.toList ++ printAll cs ++ ')' :: rest) := by
      simp [print]
    rw [hopen, child_open, outcome_bind_ok, ← hopen, outcome_node hc.1 hcs, reread, Option.map_map,
      Option.map_map]
    rfl
  | .int v, fuel + 1, rest, offset, _, _, hr => by
    rw [print, (bare_intText _).outcome_child hr, wordValue?_intText, reread]
  | .float v, fuel + 1, rest, offset, _, _, hr => by
    rw [print, (bare_plainWithPoint v).outcome_child hr, wordValue?_plainWithPoint, reread]
  | .text s, fuel + 1, rest, offset, _, _, _ => outcome_text s fuel offset rest
  | .absent, fuel + 1, rest, offset, _, _, hr => by
    have hbare : Bare "nil".toList := ⟨⟨'n', _, rfl, by decide⟩, not_endsWord_of_all (by decide)⟩
    rw [print, hbare.outcome_child hr]
    rfl
  | c, 0, _, _, _, hf, _ => by
    obtain ⟨d, ds, hprint, -⟩ := exists_print_eq c
    rw [hprint, List.length_cons] at hf
    omega

/-- The reader on the written form of slots up to the closing parenthesis. -/
theorem outcome_siblings : ∀ (cs : List Child) {fuel : Nat} (rest : List Char) (offset : Nat),
    NamedAll cs → 2 * (printAll cs).length + 1 ≤ fuel →
    outcome (siblings fuel ⟨printAll cs ++ ')' :: rest, offset⟩) = (rereadAll cs).map (·, rest)
  | [], fuel + 1, rest, offset, _, _ => by
    rw [printAll, List.nil_append, outcome_siblings_close]
    rfl
  | c :: cs, fuel + 1, rest, offset, hc, hf => by
    rw [namedAll_cons] at hc
    simp only [printAll, List.length_append, List.length_cons] at hf
    rw [printAll, List.append_assoc]
    exact outcome_siblings_cons
      (fun o => outcome_child c o hc.1 (by omega) (stops_printAll cs rest))
      (fun o => outcome_siblings cs rest o hc.2 (by omega)) offset

end

end Reader

end Garnet
