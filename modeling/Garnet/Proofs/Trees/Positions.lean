import Garnet.Tree.Reader
import Mathlib.Data.String.Basic

/-!
# Where the reader stands

The cursors that the reader goes through lie one behind the other, and the offset of each of them
counts the bytes in front of it. So every place at which a result ends or an error was found is one
at which a character of the text begins, or the end of the text.
-/

namespace Garnet.Reader

variable {α β : Type} {text : String} {c d e : Cursor} {w rest : List Char} {offset : Nat}

/-! ## Lengths in bytes -/

theorem byteLength_eq_utf8Len (cs : List Char) : byteLength cs = String.utf8Len cs := by
  have hfold (n : Nat) : cs.foldl (fun n c => n + c.utf8Size) n = n + String.utf8Len cs := by
    induction cs generalizing n with
    | nil => rfl
    | cons c cs ih =>
      rw [List.foldl_cons, ih, String.utf8Len_cons]
      omega
  rw [byteLength, hfold, Nat.zero_add]

@[simp] theorem byteLength_nil : byteLength [] = 0 := rfl

@[simp] theorem byteLength_cons (c : Char) (cs : List Char) :
    byteLength (c :: cs) = c.utf8Size + byteLength cs := by
  simp only [byteLength_eq_utf8Len, String.utf8Len_cons, Nat.add_comm]

@[simp] theorem byteLength_append (cs ds : List Char) :
    byteLength (cs ++ ds) = byteLength cs + byteLength ds := by
  simp only [byteLength_eq_utf8Len, String.utf8Len_append]

theorem byteLength_toList (text : String) : byteLength text.toList = text.utf8ByteSize := by
  rw [byteLength_eq_utf8Len, String.utf8Len_toList]

theorem byteLength_pos (h : w ≠ []) : 0 < byteLength w := by
  cases w with
  | nil => exact absurd rfl h
  | cons c cs =>
    rw [byteLength_cons]
    exact Nat.add_pos_left c.utf8Size_pos _

/-! ## Cursors one behind the other -/

namespace Cursor

/-- The second cursor stands behind characters that are left at the first one. -/
def Reaches (c d : Cursor) : Prop := ∃ w, c.rest = w ++ d.rest ∧ d.offset = c.offset + byteLength w

/-- The second cursor stands behind at least one of the characters left at the first one. -/
structure Passes (c d : Cursor) : Prop where
  reaches : c.Reaches d
  length_lt : d.rest.length < c.rest.length

theorem Reaches.refl (c : Cursor) : c.Reaches c := ⟨[], rfl, rfl⟩

theorem Reaches.trans (hd : c.Reaches d) (he : d.Reaches e) : c.Reaches e := by
  obtain ⟨v, hv, hd⟩ := hd
  obtain ⟨w, hw, he⟩ := he
  refine ⟨v ++ w, by rw [hv, hw, List.append_assoc], ?_⟩
  rw [he, hd, byteLength_append, Nat.add_assoc]

theorem Reaches.length_le (h : c.Reaches d) : d.rest.length ≤ c.rest.length := by
  obtain ⟨w, hw, -⟩ := h
  rw [hw, List.length_append]
  exact Nat.le_add_left _ _

theorem Reaches.passes (hd : c.Reaches d) (he : d.Passes e) : c.Passes e :=
  ⟨hd.trans he.reaches, Nat.lt_of_lt_of_le he.length_lt hd.length_le⟩

theorem Passes.trans_reaches (hd : c.Passes d) (he : d.Reaches e) : c.Passes e :=
  ⟨hd.reaches.trans he, Nat.lt_of_le_of_lt he.length_le hd.length_lt⟩

theorem Passes.offset_lt (h : c.Passes d) : c.offset < d.offset := by
  obtain ⟨⟨w, hw, hd⟩, hlt⟩ := h
  have hne : w ≠ [] := by
    rintro rfl
    rw [hw] at hlt
    exact absurd hlt (Nat.lt_irrefl _)
  rw [hd]
  exact Nat.lt_add_of_pos_right (byteLength_pos hne)

/-- One character further. -/
theorem passes_cons (ch : Char) (rest : List Char) (offset : Nat) :
    (Cursor.mk (ch :: rest) offset).Passes ⟨rest, offset + ch.utf8Size⟩ :=
  ⟨⟨[ch], rfl, by rw [byteLength_cons, byteLength_nil, Nat.add_zero]⟩, Nat.lt_succ_self _⟩

theorem reaches_skipWhile (p : Char → Bool) (c : Cursor) : c.Reaches (c.skipWhile p) :=
  ⟨c.rest.takeWhile p, List.takeWhile_append_dropWhile.symm, rfl⟩

theorem reaches_skipBlanks (c : Cursor) : c.Reaches c.skipBlanks := reaches_skipWhile isBlank c

theorem reaches_word (c : Cursor) : c.Reaches c.word.2 := reaches_skipWhile _ c

theorem rest_eq_word_append (c : Cursor) : c.rest = c.word.1 ++ c.word.2.rest :=
  List.takeWhile_append_dropWhile.symm

theorem passes_word (h : c.word.1 ≠ []) : c.Passes c.word.2 := by
  refine ⟨reaches_word c, ?_⟩
  rw [rest_eq_word_append c, List.length_append]
  exact Nat.lt_add_of_pos_left (List.length_pos_of_ne_nil h)

/-! ## Cursors in a text -/

/-- The cursor stands in a text: it lies behind the start of it. -/
def StandsIn (text : String) (c : Cursor) : Prop := (Cursor.mk text.toList 0).Reaches c

namespace StandsIn

theorem trans (h : StandsIn text c) (hd : c.Reaches d) : StandsIn text d := Reaches.trans h hd

theorem exists_append (h : StandsIn text c) :
    ∃ before, text.toList = before ++ c.rest ∧ c.offset = byteLength before := by
  obtain ⟨w, hw, hc⟩ := h
  exact ⟨w, hw, by rw [hc, Nat.zero_add]⟩

theorem offset_add (h : StandsIn text c) : c.offset + byteLength c.rest = text.utf8ByteSize := by
  obtain ⟨before, htext, hc⟩ := h.exists_append
  rw [← byteLength_toList, htext, byteLength_append, hc]

theorem offset_le (h : StandsIn text c) : c.offset ≤ text.utf8ByteSize :=
  h.offset_add ▸ Nat.le_add_right _ _

/-- The position is the end of the text if no characters are left. -/
theorem offset_eq_iff (h : StandsIn text c) : c.offset = text.utf8ByteSize ↔ c.rest = [] := by
  have hsize := h.offset_add
  constructor
  · intro hend
    by_contra hne
    have hpos := byteLength_pos hne
    omega
  · intro hrest
    rw [hrest, byteLength_nil, Nat.add_zero] at hsize
    exact hsize

theorem isValid (h : StandsIn text c) : String.Pos.Raw.IsValid text ⟨c.offset⟩ := by
  obtain ⟨before, htext, hc⟩ := h.exists_append
  refine String.Pos.Raw.isValid_iff_exists_append.mpr
    ⟨String.ofList before, String.ofList c.rest, ?_, ?_⟩
  · rw [← String.ofList_append, ← htext, String.ofList_toList]
  · rw [String.rawEndPos_ofList, hc, byteLength_eq_utf8Len]

end StandsIn

/-- At every boundary of a character stands a cursor. -/
theorem exists_standsIn {pos : Nat} (h : String.Pos.Raw.IsValid text ⟨pos⟩) :
    ∃ rest, StandsIn text ⟨rest, pos⟩ := by
  obtain ⟨before, rest, rfl, hpos⟩ := String.Pos.Raw.isValid_iff_exists_append.mp h
  refine ⟨rest.toList, before.toList, String.toList_append, ?_⟩
  rw [byteLength_toList, Nat.zero_add]
  exact congrArg String.Pos.Raw.byteIdx hpos

end Cursor

/-! ## What a reading leaves behind -/

/-- How a reading that starts at a cursor ends: behind at least one more character, or with an error
at a place that the cursor reaches. -/
inductive Advances (c : Cursor) : Except Error (α × Cursor) → Prop where
  | ok {x : α} {d : Cursor} (h : c.Passes d) : Advances c (.ok (x, d))
  | error {d : Cursor} (h : c.Reaches d) (cause : Cause) : Advances c (.error ⟨d.offset, cause⟩)

namespace Advances

variable {r : Except Error (α × Cursor)} {f : α × Cursor → Except Error (β × Cursor)}

theorem passes {x : α} (hr : Advances c r) (h : r = .ok (x, d)) : c.Passes d := by
  cases hr with
  | ok hd =>
    cases h
    exact hd
  | error => cases h

theorem behind (h : c.Reaches d) (hr : Advances d r) : Advances c r := by
  cases hr with
  | ok he => exact .ok (h.passes he)
  | error he cause => exact .error (h.trans he) cause

/-- Two readings in a row, the second of which may end where the first one does. -/
theorem bind (hr : Advances c r) (hf : ∀ x d, c.Passes d → Advances c (f (x, d))) :
    Advances c (r >>= f) := by
  cases hr with
  | ok h => exact hf _ _ h
  | error h cause => exact .error h cause

theorem map (g : α → β) (hr : Advances c r) : Advances c (r >>= fun x => .ok (g x.1, x.2)) :=
  hr.bind fun _ _ h => .ok h

end Advances

open Cursor

/-- Quoted text ends behind its opening quote, or the error is found at that quote. -/
theorem advances_quoted (h : c.Passes ⟨rest, offset⟩) (seen : List Char) :
    Advances c (quoted c.offset rest offset seen) := by
  fun_induction quoted c.offset rest offset seen with
  | case1 => exact .error (.refl c) _
  | case2 => exact .error (.refl c) _
  | case3 ch rest offset seen ih =>
    have hescape := h.trans_reaches (passes_cons '\\' (ch :: rest) offset).reaches
    exact ih (hescape.trans_reaches (passes_cons ch rest _).reaches)
  | case4 rest offset => exact .ok (h.trans_reaches (passes_cons '"' rest offset).reaches)
  | case5 ch rest offset seen _ _ _ ih =>
    exact ih (h.trans_reaches (passes_cons ch rest offset).reaches)

variable {fuel : Nat}

theorem advances_node_succ (hsiblings : ∀ c, Advances c (siblings fuel c)) (c : Cursor) :
    Advances c (node (fuel + 1) c) := by
  obtain ⟨rest, offset⟩ := c
  rw [node.eq_def]
  dsimp only
  split
  case h_1 rest =>
    have hopen := passes_cons '(' rest offset
    have htag := hopen.trans_reaches ((reaches_skipBlanks _).trans (reaches_word _))
    split
    · exact .error htag.reaches _
    · exact ((hsiblings _).map _).behind htag.reaches
  case h_2 => exact .error (.refl _) _

theorem advances_siblings_succ (hchild : ∀ c, Advances c (child fuel c))
    (hsiblings : ∀ c, Advances c (siblings fuel c)) (c : Cursor) :
    Advances c (siblings (fuel + 1) c) := by
  refine .behind (reaches_skipBlanks c) ?_
  rw [siblings.eq_def]
  dsimp only
  generalize c.skipBlanks = c
  obtain ⟨rest, offset⟩ := c
  dsimp only
  split
  case h_1 => exact .error (.refl _) _
  case h_2 rest => exact .ok (passes_cons ')' rest offset)
  case h_3 =>
    exact (hchild _).bind fun x d hd => ((hsiblings d).map (x :: ·)).behind hd.reaches

theorem advances_child_succ (hnode : ∀ c, Advances c (node fuel c)) (c : Cursor) :
    Advances c (child (fuel + 1) c) := by
  obtain ⟨rest, offset⟩ := c
  rw [child.eq_def]
  dsimp only
  split
  case h_1 => exact (hnode _).map Tree.toChild
  case h_2 rest => exact (advances_quoted (passes_cons '"' rest offset) []).map Child.text
  case h_3 rest =>
    have hcolon := passes_cons ':' ('"' :: rest) offset
    exact ((advances_quoted (passes_cons '"' rest (offset + 1)) []).map Child.text).behind
      hcolon.reaches
  case h_4 rest _ =>
    have hname := (passes_cons ':' rest offset).trans_reaches (reaches_word _)
    split
    · exact .error hname.reaches _
    · exact .ok hname
  case h_5 =>
    split
    case isTrue hnil => exact .ok (passes_word (by rw [hnil]; decide))
    case isFalse =>
      split
      case h_1 h => exact .ok (passes_word (ne_nil_of_number? h))
      case h_2 => exact .error (.refl _) _

/-- Whatever the fuel, every reading advances. -/
theorem advances_read (fuel : Nat) :
    (∀ c, Advances c (node fuel c)) ∧ (∀ c, Advances c (siblings fuel c)) ∧
      ∀ c, Advances c (child fuel c) := by
  induction fuel with
  | zero =>
    exact ⟨fun c => .error (.refl c) _, fun c => .error (.refl c) _, fun c => .error (.refl c) _⟩
  | succ fuel ih =>
    obtain ⟨hnode, hsiblings, hchild⟩ := ih
    exact ⟨advances_node_succ hsiblings, advances_siblings_succ hchild hsiblings,
      advances_child_succ hnode⟩

/-- A text is refused at a place where one of its characters begins, or at its end. -/
theorem exists_standsIn_of_parse {e : Error} (h : Tree.parse text = .error e) :
    ∃ c, StandsIn text c ∧ e.offset = c.offset := by
  have hstart := reaches_skipBlanks ⟨text.toList, 0⟩
  have hread := (advances_read (2 * (Cursor.mk text.toList 0).skipBlanks.rest.length + 2)).1
    (Cursor.mk text.toList 0).skipBlanks
  rw [Tree.parse] at h
  dsimp only at h
  generalize node _ (Cursor.mk text.toList 0).skipBlanks = r at h hread
  cases hread with
  | error hd cause =>
    cases h
    exact ⟨_, hstart.trans hd, rfl⟩
  | @ok _ d hd =>
    replace h : (if d.skipBlanks.rest.isEmpty then _ else _) = Except.error e := h
    split at h
    · cases h
    · cases h
      exact ⟨_, hstart.trans (hd.reaches.trans (reaches_skipBlanks d)), rfl⟩

end Garnet.Reader
