import Garnet.Proofs.Decimal.Shortest
import Garnet.Tree.Reader

/-!
# Reading what is written for a leaf

The reader in front of the written form of an integer, a double, a text or an absent child. What it
makes of them is stated with no mention of offsets, which only errors carry.
-/

namespace Garnet.Reader

open Decimal

variable {α β : Type} {w rest : List Char}

/-- What is read and what is left to read, if there is no error. -/
def outcome : Except Error (α × Cursor) → Option (α × List Char)
  | .ok (a, c) => some (a, c.rest)
  | .error _ => none

@[simp] theorem outcome_ok (a : α) (c : Cursor) : outcome (.ok (a, c)) = some (a, c.rest) := rfl

@[simp] theorem outcome_error (e : Error) : outcome (.error e : Except Error (α × Cursor)) = none :=
  rfl

@[simp] theorem outcome_bind_ok (r : Except Error (α × Cursor)) (f : α → β) :
    outcome (r >>= fun x => .ok (f x.1, x.2)) = (outcome r).map fun x => (f x.1, x.2) := by
  cases r <;> rfl

/-- The outcome of two readings in a row, the second of which does not depend on the offset. -/
theorem outcome_bind {r : Except Error (α × Cursor)} {o : Option α}
    {f : α × Cursor → Except Error (β × Cursor)} (g : α → Option (β × List Char))
    (hr : outcome r = o.map (·, rest)) (hf : ∀ a offset, outcome (f (a, ⟨rest, offset⟩)) = g a) :
    outcome (r >>= f) = o.bind g := by
  match r, o, hr with
  | .error _, none, _ => rfl
  | .ok (a, ⟨rest, offset⟩), some b, hr =>
    cases hr
    exact hf a offset

/-! ## One step of the reader -/

theorem child_open (fuel offset : Nat) (rest : List Char) :
    child (fuel + 1) ⟨'(' :: rest, offset⟩ =
      node fuel ⟨'(' :: rest, offset⟩ >>= fun x => .ok (x.1.toChild, x.2) := rfl

theorem child_quote (fuel offset : Nat) (rest : List Char) :
    child (fuel + 1) ⟨'"' :: rest, offset⟩ =
      quoted offset rest (offset + 1) [] >>= fun x => .ok (.text x.1, x.2) := rfl

theorem node_open (fuel offset : Nat) (rest : List Char) :
    node (fuel + 1) ⟨'(' :: rest, offset⟩ =
      let after := (Cursor.mk rest (offset + 1)).skipBlanks.word
      if after.1.isEmpty then .error ⟨after.2.offset, .expectedTag⟩
      else siblings fuel after.2 >>= fun x => .ok (⟨String.ofList after.1, x.1⟩, x.2) := rfl

/-! ## Words -/

/-- The rest of a text in front of which a word ends. -/
def Stops (rest : List Char) : Prop := ∃ c cs, rest = c :: cs ∧ endsWord c = true

theorem word_append (hw : ∀ c ∈ w, endsWord c = false) (hr : Stops rest) (offset : Nat) :
    (Cursor.mk (w ++ rest) offset).word = (w, ⟨rest, offset + byteLength w⟩) := by
  obtain ⟨c, cs, rfl, hc⟩ := hr
  have htake : (w ++ c :: cs).takeWhile (!endsWord ·) = w := by
    rw [List.takeWhile_append_of_pos (by simpa using hw)]
    simp [hc]
  have hdrop : (w ++ c :: cs).dropWhile (!endsWord ·) = c :: cs := by
    rw [List.dropWhile_append_of_pos (by simpa using hw)]
    simp [hc]
  simp only [Cursor.word, Cursor.skipWhile, htake, hdrop]

/-- What a word stands for. -/
def wordValue? (w : List Char) : Option Child :=
  if w = "nil".toList then some .absent else number? w

/-- A word that does not start like a tree, a text or a name. -/
structure Bare (w : List Char) : Prop where
  head : ∃ d ds, w = d :: ds ∧ d ≠ '(' ∧ d ≠ '"' ∧ d ≠ ':'
  chars : ∀ c ∈ w, endsWord c = false

theorem not_endsWord_of_all (h : w.all (!endsWord ·) = true) : ∀ c ∈ w, endsWord c = false := by
  simpa using h

/-- A bare word is read for its value. -/
theorem Bare.outcome_child (hw : Bare w) (hr : Stops rest) (fuel offset : Nat) :
    outcome (child (fuel + 1) ⟨w ++ rest, offset⟩) = (wordValue? w).map (·, rest) := by
  obtain ⟨d, ds, rfl, hopen, hquote, hcolon⟩ := hw.head
  rw [child.eq_def]
  dsimp only
  split
  case h_1 h => exact absurd (List.cons.inj h).1 hopen
  case h_2 h => exact absurd (List.cons.inj h).1 hquote
  case h_3 h => exact absurd (List.cons.inj h).1 hcolon
  case h_4 h => exact absurd (List.cons.inj h).1 hcolon
  case h_5 =>
    rw [word_append hw.chars hr]
    dsimp only [wordValue?]
    split
    · rfl
    · cases number? (d :: ds) <;> rfl

theorem endsWord_of_isDigit {c : Char} (hc : c.isDigit) : endsWord c = false := by
  by_contra h
  simp only [Bool.not_eq_false, endsWord, isBlank, Bool.or_eq_true, beq_iff_eq] at h
  rcases h with ((((((rfl | rfl) | rfl) | rfl) | rfl) | rfl) | rfl) | rfl <;>
    exact absurd hc (by decide)

theorem ne_of_isDigit {c d : Char} (hc : c.isDigit) (hd : d.isDigit = false) : c ≠ d := by
  rintro rfl
  exact absurd hc (ne_true_of_eq_false hd)

/-! ## Numbers -/

theorem filter_eq_self_of_isDigit_or (h : ∀ c ∈ w, c.isDigit ∨ c = '.') :
    w.filter (· != '_') = w := by
  refine List.filter_eq_self.mpr fun c hc => bne_iff_ne.mpr ?_
  rcases h c hc with h | rfl
  · exact ne_of_isDigit h rfl
  · decide

/-- Digits stand for their value. -/
theorem number?_digits {d : Char} {ds : List Char} (h : ∀ c ∈ d :: ds, c.isDigit)
    (hv : Number.isWord (digitsValue (d :: ds)) = true) :
    number? (d :: ds) = some (.int (Int64.ofInt (digitsValue (d :: ds)))) := by
  have hclean := filter_eq_self_of_isDigit_or fun c hc => .inl (h c hc)
  have hd : d.isDigit := h d List.mem_cons_self
  have hminus : d ≠ '-' := ne_of_isDigit hd rfl
  have hds : ds.all Char.isDigit :=
    List.all_eq_true.mpr fun c hc => h c (List.mem_cons_of_mem d hc)
  simp [number?, hd, hclean, hds, hminus, hv]

theorem number?_minus_digits {d : Char} {ds : List Char} (h : ∀ c ∈ d :: ds, c.isDigit)
    (hv : Number.isWord (-(digitsValue (d :: ds) : Int)) = true) :
    number? ('-' :: d :: ds) = some (.int (Int64.ofInt (-(digitsValue (d :: ds) : Int)))) := by
  have hclean := filter_eq_self_of_isDigit_or fun c hc => .inl (h c hc)
  have hd : d.isDigit := h d List.mem_cons_self
  have hds : ds.all Char.isDigit :=
    List.all_eq_true.mpr fun c hc => h c (List.mem_cons_of_mem d hc)
  simp [number?, hd, hclean, hds, hv]

theorem isWord_toInt (i : Int64) : Number.isWord i.toInt = true := by
  have hlow : (-0x8000000000000000 : Int) ≤ i.toInt := i.minValue_le_toInt
  have hhigh : i.toInt ≤ 0x7fffffffffffffff := i.toInt_le
  rw [Number.isWord, Bool.and_eq_true]
  exact ⟨decide_eq_true hlow, decide_eq_true hhigh⟩

/-- The written form of an integer is read back. -/
theorem number?_intText (i : Int64) : number? (intText i.toInt) = some (.int i) := by
  have hword := isWord_toInt i
  obtain ⟨d, ds, hds, hdigit⟩ := exists_toDigits_eq_cons i.toInt.natAbs
  have hvalue : digitsValue (d :: ds) = i.toInt.natAbs := by
    rw [← hds, digitsValue_toDigits]
  rw [intText, hds]
  split
  case isTrue hneg =>
    have hvalue : -(digitsValue (d :: ds) : Int) = i.toInt := by omega
    rw [number?_minus_digits hdigit (by rwa [hvalue]), hvalue, Int64.ofInt_toInt]
  case isFalse hpos =>
    have hvalue : (digitsValue (d :: ds) : Int) = i.toInt := by omega
    rw [number?_digits hdigit (by rwa [hvalue]), hvalue, Int64.ofInt_toInt]

/-- Digits with a point among them, with or without a minus, stand for a double. -/
theorem number?_pointed (hw : Pointed w) (negative : Bool) :
    number? ((if negative then ['-'] else []) ++ w) =
      (float? ((if negative then ['-'] else []) ++ w)).map .float := by
  obtain ⟨⟨d, ds, rfl, hd⟩, hpoint, hchars⟩ := hw
  have hclean := filter_eq_self_of_isDigit_or hchars
  have hminus : d ≠ '-' := ne_of_isDigit hd rfl
  have hds : '.' ∈ ds := by
    rcases List.mem_cons.mp hpoint with rfl | h
    · exact absurd hd (by decide)
    · exact h
  have hall : ds.all Char.isDigit = false := List.all_eq_false.mpr ⟨'.', hds, by decide⟩
  cases negative <;> simp [number?, hd, hclean, hminus, hall]

/-- A word made of the characters of numerals. -/
theorem bare_of_numeral (hne : w ≠ []) (h : ∀ c ∈ w, c.isDigit ∨ c = '.' ∨ c = '-') : Bare w := by
  obtain ⟨d, ds, rfl⟩ := List.exists_cons_of_ne_nil hne
  refine ⟨⟨d, ds, rfl, ?_⟩, ?_⟩
  · rcases h d List.mem_cons_self with hd | rfl | rfl
    · exact ⟨ne_of_isDigit hd rfl, ne_of_isDigit hd rfl, ne_of_isDigit hd rfl⟩
    · decide
    · decide
  · intro c hc
    rcases h c hc with hc | rfl | rfl
    · exact endsWord_of_isDigit hc
    · decide
    · decide

theorem wordValue?_of_numeral (h : ∀ c ∈ w, c.isDigit ∨ c = '.' ∨ c = '-') :
    wordValue? w = number? w := by
  refine if_neg ?_
  rintro rfl
  exact absurd (h 'n' (by decide)) (by decide)

theorem intText_ne_nil (i : Int) : intText i ≠ [] := by
  unfold intText
  split
  · exact List.cons_ne_nil _ _
  · exact Nat.toDigits_ne_nil

theorem numeral_intText (i : Int) : ∀ c ∈ intText i, c.isDigit ∨ c = '.' ∨ c = '-' := by
  have hdigit : ∀ c ∈ Nat.toDigits 10 i.natAbs, c.isDigit ∨ c = '.' ∨ c = '-' :=
    fun c hc => .inl (Nat.isDigit_of_mem_toDigits (by decide) (by decide) hc)
  unfold intText
  split
  · exact List.forall_mem_cons.mpr ⟨.inr (.inr rfl), hdigit⟩
  · exact hdigit

theorem bare_intText (i : Int) : Bare (intText i) :=
  bare_of_numeral (intText_ne_nil i) (numeral_intText i)

theorem wordValue?_intText (i : Int64) : wordValue? (intText i.toInt) = some (.int i) := by
  rw [wordValue?_of_numeral (numeral_intText _), number?_intText]

theorem numeral_of_pointed (hw : Pointed w) (negative : Bool) :
    ∀ c ∈ (if negative then ['-'] else []) ++ w, c.isDigit ∨ c = '.' ∨ c = '-' := by
  intro c hc
  rcases List.mem_append.mp hc with hc | hc
  · cases negative
    · cases hc
    · exact .inr (.inr (List.mem_singleton.mp hc))
  · exact (hw.chars c hc).imp_right .inl

theorem bare_plainWithPoint (v : Float) : Bare (plainWithPoint v) := by
  cases hv : Finite.ofFloat? v with
  | some x =>
    obtain ⟨w, hw, heq⟩ := pointed_plainWithPoint hv
    rw [heq]
    refine bare_of_numeral ?_ (numeral_of_pointed hw x.negative)
    obtain ⟨d, ds, rfl, -⟩ := hw.head
    exact List.append_ne_nil_of_right_ne_nil _ (List.cons_ne_nil d ds)
  | none =>
    have hmem := plainWithPoint_of_none hv
    simp only [List.mem_cons, List.not_mem_nil, or_false] at hmem
    rcases hmem with h | h | h <;> rw [h] <;>
      exact ⟨⟨_, _, rfl, by decide⟩, not_endsWord_of_all (by decide)⟩

/-- The written form of a finite double is read as a numeral, that of another one not at all. -/
theorem wordValue?_plainWithPoint (v : Float) :
    wordValue? (plainWithPoint v) =
      if (Finite.ofFloat? v).isSome then (float? (plainWithPoint v)).map .float else none := by
  cases hv : Finite.ofFloat? v with
  | some x =>
    obtain ⟨w, hw, heq⟩ := pointed_plainWithPoint hv
    rw [Option.isSome_some, if_pos rfl, heq,
      wordValue?_of_numeral (numeral_of_pointed hw x.negative), number?_pointed hw]
  | none =>
    have hmem := plainWithPoint_of_none hv
    simp only [List.mem_cons, List.not_mem_nil, or_false] at hmem
    rcases hmem with h | h | h <;> rw [h] <;> rfl

/-! ## Text -/

/-- The character is written by its code point. -/
def IsEscaped (c : Char) : Prop := "\\u\x7b".toList <+: Text.Quoted.encodeChar c

instance (c : Char) : Decidable (IsEscaped c) := inferInstanceAs (Decidable (_ <+: _))

/-- A character that is not written by its code point is a short escape or stands for itself. -/
theorem encodeChar_cases (c : Char) :
    Text.Quoted.encodeChar c = "\\u\x7b".toList ++ Text.Quoted.hex c.toNat ++ "\x7d".toList ∨
      (∃ e, Text.Quoted.encodeChar c = ['\\', e] ∧ unescape e = c) ∨
      Text.Quoted.encodeChar c = [c] ∧ c ≠ '"' ∧ c ≠ '\\' := by
  unfold Text.Quoted.encodeChar
  split_ifs with htab hreturn hnewline hquote hbackslash hnul hhidden
  · exact .inr (.inl ⟨'t', rfl, htab.symm⟩)
  · exact .inr (.inl ⟨'r', rfl, hreturn.symm⟩)
  · exact .inr (.inl ⟨'n', rfl, hnewline.symm⟩)
  · exact .inr (.inl ⟨'"', rfl, hquote.symm⟩)
  · exact .inr (.inl ⟨'\\', rfl, hbackslash.symm⟩)
  · refine .inr (.inl ⟨'0', rfl, ?_⟩)
    rw [← Char.ofNat_toNat c, hnul]
    rfl
  · exact .inl rfl
  · exact .inr (.inr ⟨rfl, hquote, hbackslash⟩)

/-- What the reader makes of the written form of a character. -/
def rereadChar (c : Char) : List Char :=
  if IsEscaped c then (Text.Quoted.encodeChar c).tail else [c]

theorem isEscaped_of_encodeChar_eq {c : Char}
    (h : Text.Quoted.encodeChar c =
      "\\u\x7b".toList ++ Text.Quoted.hex c.toNat ++ "\x7d".toList) : IsEscaped c :=
  ⟨Text.Quoted.hex c.toNat ++ "\x7d".toList, by rw [h, List.append_assoc]⟩

/-- The escape by code point is the only form of three characters or more. -/
theorem three_le_length_of_isEscaped {c : Char} (h : IsEscaped c) :
    3 ≤ (Text.Quoted.encodeChar c).length :=
  h.length_le

theorem not_isEscaped_of_length {c : Char} (h : (Text.Quoted.encodeChar c).length ≤ 2) :
    ¬IsEscaped c := by
  intro hc
  have := three_le_length_of_isEscaped hc
  omega

theorem rereadChar_of_not {c : Char} (h : ¬IsEscaped c) : rereadChar c = [c] := if_neg h

/-- An escape by code point is read as several characters. -/
theorem two_le_length_rereadChar {c : Char} (h : IsEscaped c) : 2 ≤ (rereadChar c).length := by
  have := three_le_length_of_isEscaped h
  rw [rereadChar, if_pos h, List.length_tail]
  omega

theorem quoted_cons {c : Char} (hq : c ≠ '"') (hb : c ≠ '\\') (start offset : Nat)
    (rest seen : List Char) :
    quoted start (c :: rest) offset seen = quoted start rest (offset + c.utf8Size) (c :: seen) := by
  rw [quoted.eq_def]
  split <;> simp_all

/-- Characters that need no escape are read as they are. -/
theorem quoted_append (h : ∀ c ∈ w, c ≠ '"' ∧ c ≠ '\\') (start offset : Nat)
    (rest seen : List Char) :
    ∃ o, quoted start (w ++ rest) offset seen = quoted start rest o (w.reverse ++ seen) := by
  induction w generalizing offset seen with
  | nil => exact ⟨offset, rfl⟩
  | cons c w ih =>
    obtain ⟨hq, hb⟩ := h c List.mem_cons_self
    obtain ⟨o, ho⟩ := ih (fun c hc => h c (List.mem_cons_of_mem _ hc)) (offset + c.utf8Size)
      (c :: seen)
    refine ⟨o, ?_⟩
    rw [List.cons_append, quoted_cons hq hb, ho, List.reverse_cons, List.append_assoc]
    rfl

theorem ne_of_mem_hex {c : Char} {n : Nat} (hc : c ∈ Text.Quoted.hex n) : c ≠ '"' ∧ c ≠ '\\' := by
  have hdigit : ∀ d < 16, Nat.digitChar d ≠ '"' ∧ Nat.digitChar d ≠ '\\' := by decide
  unfold Text.Quoted.hex at hc
  induction n using Nat.strongRecOn with
  | ind n ih =>
    rw [Nat.toDigits_eq_if (by decide)] at hc
    split at hc
    case isTrue h =>
      rw [List.mem_singleton.mp hc]
      exact hdigit n h
    case isFalse h =>
      rcases List.mem_append.mp hc with hc | hc
      · exact ih (n / 16) (by omega) hc
      · rw [List.mem_singleton.mp hc]
        exact hdigit _ (Nat.mod_lt _ (by decide))

theorem quoted_encodeChar (c : Char) (start offset : Nat) (rest seen : List Char) :
    ∃ o, quoted start (Text.Quoted.encodeChar c ++ rest) offset seen =
      quoted start rest o ((rereadChar c).reverse ++ seen) := by
  rcases encodeChar_cases c with h | ⟨e, h, he⟩ | ⟨h, hq, hb⟩
  · let digits := '\x7b' :: (Text.Quoted.hex c.toNat ++ ['\x7d'])
    have hplain : ∀ d ∈ digits, d ≠ '"' ∧ d ≠ '\\' := by
      intro d hd
      rcases List.mem_cons.mp hd with rfl | hd
      · decide
      · rcases List.mem_append.mp hd with hd | hd
        · exact ne_of_mem_hex hd
        · rw [List.mem_singleton.mp hd]
          decide
    have hencode : Text.Quoted.encodeChar c = '\\' :: 'u' :: digits := h
    have hreread : rereadChar c = 'u' :: digits := by
      rw [rereadChar, if_pos (isEscaped_of_encodeChar_eq h), hencode, List.tail_cons]
    obtain ⟨o, ho⟩ := quoted_append hplain start (offset + 1 + Char.utf8Size 'u') rest
      ('u' :: seen)
    refine ⟨o, ?_⟩
    rw [hencode, hreread, List.reverse_cons, List.append_assoc]
    exact ho
  · refine ⟨offset + 1 + e.utf8Size, ?_⟩
    rw [rereadChar_of_not (not_isEscaped_of_length (by simp [h])), h, ← he]
    rfl
  · refine ⟨offset + c.utf8Size, ?_⟩
    rw [rereadChar_of_not (not_isEscaped_of_length (by simp [h])), h]
    exact quoted_cons hq hb start offset rest seen

/-- A text read back up to its closing quote. -/
theorem outcome_quoted (cs : List Char) (start offset : Nat) (rest seen : List Char) :
    outcome (quoted start (cs.flatMap Text.Quoted.encodeChar ++ '"' :: rest) offset seen) =
      some (String.ofList (seen.reverse ++ cs.flatMap rereadChar), rest) := by
  induction cs generalizing offset seen with
  | nil => simp [quoted]
  | cons c cs ih =>
    rw [List.flatMap_cons, List.append_assoc]
    obtain ⟨o, ho⟩ := quoted_encodeChar c start offset
      (cs.flatMap Text.Quoted.encodeChar ++ '"' :: rest) seen
    rw [ho, ih, List.reverse_append, List.reverse_reverse, List.append_assoc, List.flatMap_cons]

theorem length_le_length_flatMap_rereadChar (cs : List Char) :
    cs.length ≤ (cs.flatMap rereadChar).length := by
  induction cs with
  | nil => exact Nat.le_refl 0
  | cons c cs ih =>
    have hc : 1 ≤ (rereadChar c).length := by
      by_cases hc : IsEscaped c
      · have := two_le_length_rereadChar hc
        omega
      · rw [rereadChar_of_not hc, List.length_singleton]
    rw [List.flatMap_cons, List.length_append, List.length_cons]
    omega

/-- A text is read back as it is exactly when none of its characters is written by its code
point. -/
theorem flatMap_rereadChar_eq_self_iff {cs : List Char} :
    cs.flatMap rereadChar = cs ↔ ∀ c ∈ cs, ¬IsEscaped c := by
  induction cs with
  | nil => simp
  | cons c cs ih =>
    rw [List.forall_mem_cons, ← ih, List.flatMap_cons]
    constructor
    · intro h
      by_cases hc : IsEscaped c
      · -- the escape makes the text longer, and no other character makes it shorter
        have hlength := congrArg List.length h
        have hescape := two_le_length_rereadChar hc
        have hrest := length_le_length_flatMap_rereadChar cs
        rw [List.length_append, List.length_cons] at hlength
        omega
      · rw [rereadChar_of_not hc] at h
        exact ⟨hc, (List.cons.inj h).2⟩
    · rintro ⟨hc, h⟩
      rw [rereadChar_of_not hc, h]
      rfl

end Garnet.Reader
