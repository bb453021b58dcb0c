import Garnet.Proofs.Trees.Words

/-!
# The grammar of written trees

The texts that are trees and what they stand for, as rules with no mention of a reader. A tree and a
quoted text end by a sign of their own, so that anything may follow. A tag and a bare word go on as
far as they can, so that a blank or a parenthesis has to follow.
-/

namespace Garnet.Grammar

/-! ## Words and blanks -/

/-- What separates the parts of a tree. -/
def blanks : List Char := [' ', '\t', '\n', '\x0c', '\r', ',']

/-- What ends a word. -/
def ends : List Char := '(' :: ')' :: blanks

def Blanks (w : List Char) : Prop := ∀ c ∈ w, c ∈ blanks

instance (w : List Char) : Decidable (Blanks w) := List.decidableBAll _ _

structure Word (w : List Char) : Prop where
  nonempty : w ≠ []
  chars : ∀ c ∈ w, c ∉ ends

/-- A word in front of this text is as long as it can be. -/
def Stops (rest : List Char) : Prop := ∃ c cs, rest = c :: cs ∧ c ∈ ends

/-! ## Text in quotes -/

/-- What a character stands for behind a backslash. -/
inductive Escape : Char → Char → Prop
  | newline : Escape 'n' '\n'
  | tab : Escape 't' '\t'
  | carriageReturn : Escape 'r' '\r'
  | escape : Escape 'e' '\x1b'
  | nul : Escape '0' '\x00'
  | other {c : Char} : c ∉ ['n', 't', 'r', 'e', '0'] → Escape c c

/-- What stands between two quotes, and the text it stands for. -/
inductive Spelled : List Char → List Char → Prop
  | nil : Spelled [] []
  | plain {c : Char} {w s : List Char} : c ≠ '"' → c ≠ '\\' → Spelled w s →
      Spelled (c :: w) (c :: s)
  | escaped {c d : Char} {w s : List Char} : Escape c d → Spelled w s →
      Spelled ('\\' :: c :: w) (d :: s)

/-! ## Numbers -/

/-- Digits behind an optional minus, and the number they stand for. -/
inductive Digits : List Char → Int → Prop
  | plain {ds : List Char} : ds ≠ [] → (∀ c ∈ ds, c.isDigit) → Digits ds (Decimal.digitsValue ds)
  | minus {ds : List Char} : ds ≠ [] → (∀ c ∈ ds, c.isDigit) →
      Digits ('-' :: ds) (-(Decimal.digitsValue ds : Int))

/-- A word that is read as a number, if at all: an optional minus, a digit, and more. -/
inductive Numeric : List Char → Prop
  | plain {d : Char} {ds : List Char} : d.isDigit → Numeric (d :: ds)
  | minus {d : Char} {ds : List Char} : d.isDigit → Numeric ('-' :: d :: ds)

def clean (w : List Char) : List Char := w.filter (· != '_')

/-- The number that a numeric word stands for. Digits that stand for no integer of 64 bits stand for
themselves. -/
inductive Numeral (w : List Char) : Child → Prop
  | int {i : Int} : Digits (clean w) i → -2 ^ 63 ≤ i → i < 2 ^ 63 → Numeral w (.int (Int64.ofInt i))
  | digits {i : Int} : Digits (clean w) i → ¬(-2 ^ 63 ≤ i ∧ i < 2 ^ 63) →
      Numeral w (.text (String.ofList (clean w)))
  | float {x : Float} : (∀ i, ¬Digits (clean w) i) → Decimal.float? (clean w) = some x →
      Numeral w (.float x)

/-! ## Trees -/

/-- A child that is a word. A word behind a colon is one of `names`. -/
inductive Bare (names : List Char → Prop) : List Char → Child → Prop
  | name {w : List Char} : Word w → names w → Bare names (':' :: w) (.text (String.ofList w))
  | absent : Bare names "nil".toList .absent
  | number {w : List Char} {x : Child} : Word w → Numeric w → Numeral w x → Bare names w x

mutual

inductive Node (names : List Char → Prop) : List Char → Tree → Prop
  | mk {b w body : List Char} {cs : List Child} : Blanks b → Word w → Stops body →
      Siblings names body cs → Node names ('(' :: (b ++ w ++ body)) ⟨String.ofList w, cs⟩

/-- The children of a tree and the parenthesis that closes it. -/
inductive Siblings (names : List Char → Prop) : List Char → List Child → Prop
  | close {b : List Char} : Blanks b → Siblings names (b ++ [')']) []
  | delimited {b w body : List Char} {c : Child} {cs : List Child} : Blanks b →
      Delimited names w c → Siblings names body cs → Siblings names (b ++ w ++ body) (c :: cs)
  | bare {b w body : List Char} {c : Child} {cs : List Child} : Blanks b → Bare names w c →
      Stops body → Siblings names body cs → Siblings names (b ++ w ++ body) (c :: cs)

/-- A child that ends by a sign of its own. -/
inductive Delimited (names : List Char → Prop) : List Char → Child → Prop
  | node {w : List Char} {t : Tree} : Node names w t → Delimited names w t.toChild
  | text {w s : List Char} : Spelled w s →
      Delimited names ('"' :: (w ++ ['"'])) (.text (String.ofList s))
  | name {w s : List Char} : Spelled w s →
      Delimited names (':' :: '"' :: (w ++ ['"'])) (.text (String.ofList s))

end

/-- A text is a tree with nothing but blanks around it. -/
def Written (names : List Char → Prop) (text : String) (t : Tree) : Prop :=
  ∃ before w after, text.toList = before ++ w ++ after ∧ Blanks before ∧ Node names w t ∧
    Blanks after

/-- A word that does not begin like a quoted text. -/
def Unquoted (w : List Char) : Prop := w.head? ≠ some '"'

/-! ## The same in terms of the reader's tests -/

open Reader (isBlank endsWord unescape number?)

variable {names : List Char → Prop} {c d : Char} {w body : List Char} {cs : List Child} {x : Child}

theorem isBlank_iff : isBlank c = true ↔ c ∈ blanks := by
  simp [isBlank, blanks, or_assoc]

theorem endsWord_iff : endsWord c = true ↔ c ∈ ends := by
  rw [endsWord, Bool.or_eq_true, Bool.or_eq_true, isBlank_iff]
  simp only [ends, List.mem_cons, beq_iff_eq]
  tauto

theorem stops_iff : Stops w ↔ Reader.Stops w := by
  simp only [Stops, Reader.Stops, endsWord_iff]

theorem Word.not_endsWord (h : Word w) : ∀ c ∈ w, endsWord c = false := fun c hc =>
  Bool.not_eq_true _ ▸ fun he => h.chars c hc (endsWord_iff.mp he)

theorem escape_iff : Escape c d ↔ unescape c = d := by
  constructor
  · intro h
    cases h with
    | newline | tab | carriageReturn | escape | nul => rfl
    | other hc =>
      simp only [List.mem_cons, List.not_mem_nil, or_false, not_or] at hc
      simp [unescape, hc]
  · rintro rfl
    unfold unescape
    split_ifs with hn ht hr he h0
    · exact hn ▸ .newline
    · exact ht ▸ .tab
    · exact hr ▸ .carriageReturn
    · exact he ▸ .escape
    · exact h0 ▸ .nul
    · exact .other (by simp [hn, ht, hr, he, h0])

/-! ## Numbers in terms of the reader -/

/-- The number that digits behind an optional minus stand for. -/
def signedValue : List Char → Int
  | '-' :: ds => -(Decimal.digitsValue ds : Int)
  | ds => Decimal.digitsValue ds

theorem Digits.eq_signedValue {i : Int} (h : Digits w i) : i = signedValue w := by
  cases h with
  | plain hne hdigit =>
    obtain ⟨d, ds, rfl⟩ := List.exists_cons_of_ne_nil hne
    have hminus : d ≠ '-' := Reader.ne_of_isDigit (hdigit d List.mem_cons_self) rfl
    simp [signedValue, hminus]
  | minus => rfl

theorem isWord_iff {i : Int} : Number.isWord i = true ↔ -2 ^ 63 ≤ i ∧ i < 2 ^ 63 := by
  rw [Number.isWord, Bool.and_eq_true, decide_eq_true_iff, decide_eq_true_iff, Number.minWord,
    Number.maxWord]
  omega

/-- What is behind the first character of a cleaned numeric word says whether it is an integer. -/
theorem Numeric.all_iff (h : Numeric w) :
    ((clean w).drop 1).all Char.isDigit = true ↔ Digits (clean w) (signedValue (clean w)) := by
  have hkeep {d : Char} (hd : d.isDigit) : d ≠ '_' := Reader.ne_of_isDigit hd rfl
  have hminus {d : Char} (hd : d.isDigit) : d ≠ '-' := Reader.ne_of_isDigit hd rfl
  cases h with
  | @plain d ds hd =>
    have hclean : clean (d :: ds) = d :: clean ds := by simp [clean, hkeep hd]
    rw [hclean, List.drop_one, List.tail_cons, List.all_eq_true]
    have hvalue : signedValue (d :: clean ds) = Decimal.digitsValue (d :: clean ds) := by
      simp [signedValue, hminus hd]
    constructor
    · intro hall
      rw [hvalue]
      exact .plain (List.cons_ne_nil _ _) (List.forall_mem_cons.mpr ⟨hd, hall⟩)
    · intro hdigits
      generalize signedValue (d :: clean ds) = i at hdigits
      cases hdigits with
      | plain _ hall => exact (List.forall_mem_cons.mp hall).2
      | minus => exact absurd rfl (hminus hd)
  | @minus d ds hd =>
    have hclean : clean ('-' :: d :: ds) = '-' :: d :: clean ds := by simp [clean, hkeep hd]
    rw [hclean, List.drop_one, List.tail_cons, List.all_eq_true]
    constructor
    · intro hall
      exact .minus (List.cons_ne_nil _ _) hall
    · intro hdigits
      generalize signedValue ('-' :: d :: clean ds) = i at hdigits
      cases hdigits with
      | plain _ hall => exact absurd (hall '-' List.mem_cons_self) (by decide)
      | minus _ hall => exact hall

/-- What the reader makes of a numeric word. -/
theorem Numeric.number?_eq (h : Numeric w) :
    number? w =
      if ((clean w).drop 1).all Char.isDigit then
        if Number.isWord (signedValue (clean w)) then
          some (.int (Int64.ofInt (signedValue (clean w))))
        else some (.text (String.ofList (clean w)))
      else (Decimal.float? (clean w)).map .float := by
  cases h with
  | @plain d ds hd =>
    have hminus : d ≠ '-' := Reader.ne_of_isDigit hd rfl
    unfold Reader.number?
    split
    case h_1 h => exact absurd (List.cons.inj h).1 hminus
    case h_2 => exact if_neg (by simp [hd])
  | @minus d ds hd => exact if_neg (by simp [hd])

theorem numeric_of_number? (h : number? w = some x) : Numeric w := by
  have hdigit {d : Char} {y : Option Child} (h : (if !d.isDigit then none else y) = some x) :
      d.isDigit := by
    by_contra hd
    simp [hd] at h
  unfold Reader.number? at h
  split at h
  case h_1 ds =>
    cases ds with
    | nil => cases h
    | cons d ds => exact .minus (hdigit h)
  case h_2 =>
    cases w with
    | nil => cases h
    | cons d ds => exact .plain (hdigit h)

/-- The reader and the grammar agree about numbers. -/
theorem number?_iff : number? w = some x ↔ Numeric w ∧ Numeral w x := by
  constructor
  · intro h
    have hw := numeric_of_number? h
    refine ⟨hw, ?_⟩
    rw [hw.number?_eq] at h
    split at h
    case isTrue hall =>
      have hdigits := hw.all_iff.mp hall
      split at h
      case isTrue hword =>
        cases h
        exact .int hdigits (isWord_iff.mp hword).1 (isWord_iff.mp hword).2
      case isFalse hword =>
        cases h
        exact .digits hdigits fun h => hword (isWord_iff.mpr h)
    case isFalse hall =>
      obtain ⟨y, hy, rfl⟩ := Option.map_eq_some_iff.mp h
      exact .float (fun i hi => hall (hw.all_iff.mpr (hi.eq_signedValue ▸ hi))) hy
  · rintro ⟨hw, hx⟩
    rw [hw.number?_eq]
    cases hx with
    | int hdigits hlow hhigh =>
      have hvalue := hdigits.eq_signedValue
      rw [if_pos (hw.all_iff.mpr (hvalue ▸ hdigits)), ← hvalue,
        if_pos (isWord_iff.mpr ⟨hlow, hhigh⟩)]
    | digits hdigits hword =>
      have hvalue := hdigits.eq_signedValue
      rw [if_pos (hw.all_iff.mpr (hvalue ▸ hdigits)), ← hvalue,
        if_neg fun h => hword (isWord_iff.mp h)]
    | float hnone hy => rw [if_neg fun h => hnone _ (hw.all_iff.mp h), hy, Option.map_some]

end Garnet.Grammar
