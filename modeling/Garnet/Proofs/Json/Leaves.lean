import Garnet.Proofs.Decimal.Shortest
import Garnet.Text.Json

/-!
# Strings and numbers in JSON

A string is written between quotes, with quotes, backslashes and control characters escaped, and is
read back as it was. An integer is a row of digits without a leading zero; a number with a point or
an exponent is read as a double.
-/

namespace Garnet.Text.Json

variable {mode : Mode} {c : Char} {rest seen : List Char} {n fuel : Nat}

/-- A digit of a hexadecimal number. -/
def hexChar (n : Nat) : Char := Char.ofNat (if n < 10 then n + 48 else n + 87)

/-- A character as it stands in a string. -/
def escape (c : Char) : List Char :=
  if c == '"' then ['\\', '"']
  else if c == '\\' then ['\\', '\\']
  else if c == '\x08' then ['\\', 'b']
  else if c == '\x0c' then ['\\', 'f']
  else if c == '\n' then ['\\', 'n']
  else if c == '\r' then ['\\', 'r']
  else if c == '\t' then ['\\', 't']
  else if c.toNat < 0x20 then ['\\', 'u', '0', '0', hexChar (c.toNat / 16), hexChar (c.toNat % 16)]
  else [c]

def escaped (s : String) : List Char := s.toList.flatMap escape

/-- A string in quotes. -/
def quoted (s : String) : List Char := '"' :: (escaped s ++ ['"'])

theorem hexDigit?_hexChar (h : n < 16) : hexDigit? (hexChar n) = some n := by
  revert n
  decide

theorem codePoint?_control (h : c.toNat < 0x20) :
    codePoint? mode ('0' :: '0' :: hexChar (c.toNat / 16) :: hexChar (c.toNat % 16) :: rest) =
      some (c, rest) := by
  have hzero : hexDigit? '0' = some 0 := rfl
  have hhigh := hexDigit?_hexChar (n := c.toNat / 16) (by omega)
  have hlow := hexDigit?_hexChar (n := c.toNat % 16) (by omega)
  have hvalue : ((0 * 16 + 0) * 16 + c.toNat / 16) * 16 + c.toNat % 16 = c.toNat := by omega
  have hlone : ¬(0xDC00 ≤ c.toNat ∧ c.toNat ≤ 0xDFFF) := by omega
  have hpair : ¬(0xD800 ≤ c.toNat ∧ c.toNat ≤ 0xDBFF) := by omega
  simp only [codePoint?, hexFour?, hzero, hhigh, hlow, bind, Option.bind_some, hvalue,
    Char.ofNat_toNat, Bool.and_eq_true, decide_eq_true_eq, if_neg hlone, if_neg hpair, ite_self]

/-- A character is read from what it is written as. -/
theorem string?_escape (c : Char) :
    string? mode (fuel + 1) (escape c ++ rest) seen = string? mode fuel rest (c :: seen) := by
  unfold escape
  split
  case isTrue h => rw [eq_of_beq h]; rfl
  split
  case isTrue h => rw [eq_of_beq h]; rfl
  split
  case isTrue h => rw [eq_of_beq h]; rfl
  split
  case isTrue h => rw [eq_of_beq h]; rfl
  split
  case isTrue h => rw [eq_of_beq h]; rfl
  split
  case isTrue h => rw [eq_of_beq h]; rfl
  split
  case isTrue h => rw [eq_of_beq h]; rfl
  split
  case isTrue h =>
    simp only [List.cons_append, List.nil_append, string?, codePoint?_control h, bind,
      Option.bind_some]
  case isFalse hquote hbackslash _ _ _ _ _ hcontrol =>
    simp only [beq_iff_eq] at hquote hbackslash
    rw [List.singleton_append, string?.eq_def]
    dsimp only
    split
    case h_1 h => cases h
    case h_2 h => exact absurd (List.cons.inj h).1 hquote
    case h_3 h | h_4 h | h_5 h => exact absurd (List.cons.inj h).1 hbackslash
    case h_6 h =>
      cases h
      exact if_neg hcontrol

theorem length_escape_pos (c : Char) : 0 < (escape c).length := by
  unfold escape
  repeat' split
  all_goals exact Nat.succ_pos _

theorem string?_flatMap (cs : List Char) (h : (cs.flatMap escape).length < fuel) :
    string? mode fuel (cs.flatMap escape ++ '"' :: rest) seen =
      some (String.ofList (seen.reverse ++ cs), rest) := by
  induction cs generalizing fuel seen with
  | nil =>
    obtain ⟨fuel, rfl⟩ := Nat.exists_eq_succ_of_ne_zero (Nat.ne_zero_of_lt h)
    rw [List.append_nil]
    rfl
  | cons c cs ih =>
    have hpos := length_escape_pos c
    rw [List.flatMap_cons, List.length_append] at h
    obtain ⟨fuel, rfl⟩ := Nat.exists_eq_succ_of_ne_zero (Nat.ne_zero_of_lt h)
    rw [List.flatMap_cons, List.append_assoc, string?_escape, ih (by omega), List.reverse_cons,
      List.append_assoc, List.singleton_append]

/-- A string is read from what it is written as. -/
theorem string?_escaped (s : String) (rest : List Char) :
    string? mode ((escaped s ++ '"' :: rest).length + 1) (escaped s ++ '"' :: rest) [] =
      some (s, rest) := by
  rw [escaped, string?_flatMap _ (by rw [List.length_append]; omega), List.reverse_nil,
    List.nil_append, String.ofList_toList]

end Garnet.Text.Json

namespace Garnet.Text.Json

open Decimal

/-! ## Numbers of few digits -/

section

variable {ds fs whole : List Char} {m : Nat} {e : Int}

end

/-! ## Written numbers -/

/-- A row of digits. -/
structure Digits (ds : List Char) : Prop where
  ne_nil : ds ≠ []
  isDigit : ∀ c ∈ ds, c.isDigit

/-- The integer part of a number: a lone zero, or digits that do not begin with a zero. -/
structure Whole (ds : List Char) : Prop extends Digits ds where
  head : ds.length > 1 → ds.head? ≠ some '0'

/-- The fraction of a number: nothing, or a point and digits. -/
inductive Fraction : List Char → List Char → Prop where
  | none : Fraction [] []
  | digits {ds : List Char} (h : Digits ds) : Fraction ('.' :: ds) ds

/-- The exponent of a number: nothing, or a mark, a sign that can be left out, and digits. -/
inductive Exponent : List Char → Int → Prop where
  | none : Exponent [] 0
  | unsigned {mark : Char} {ds : List Char} {e : Int} (hmark : mark = 'e' ∨ mark = 'E')
      (h : Digits ds) (he : Decimal.exponent? ('e' :: ds) = some e) : Exponent (mark :: ds) e
  | positive {mark : Char} {ds : List Char} {e : Int} (hmark : mark = 'e' ∨ mark = 'E')
      (h : Digits ds) (he : Decimal.exponent? ('e' :: ds) = some e) :
      Exponent (mark :: '+' :: ds) e
  | negative {mark : Char} {ds : List Char} {e : Int} (hmark : mark = 'e' ∨ mark = 'E')
      (h : Digits ds) (he : Decimal.exponent? ('e' :: ds) = some e) :
      Exponent (mark :: '-' :: ds) (-e)

/-- An unsigned number with a point or an exponent, and the double that it is read as. -/
inductive Unsigned : List Char → Float → Prop where
  | mk {whole fraction fs exponent : List Char} {e : Int} (hwhole : Whole whole)
      (hfraction : Fraction fraction fs) (hexponent : Exponent exponent e)
      (hsome : fraction ≠ [] ∨ exponent ≠ []) :
      Unsigned (whole ++ (fraction ++ exponent)) (double whole fs e)

/-- A number with a point or an exponent. -/
inductive Numeral : List Char → Float → Prop where
  | positive {w : List Char} {x : Float} (h : Unsigned w x) : Numeral w x
  | negative {w : List Char} {x : Float} (h : Unsigned w x) : Numeral ('-' :: w) (-x)

/-! ## What is read -/

variable {mode : Mode} {ds fs rest w : List Char} {c : Char} {e : Int} {n : Nat} {x : Float}

/-- What can follow a number. -/
def Stops (rest : List Char) : Prop := ∃ c cs, rest = c :: cs ∧ (c = ',' ∨ c = ']')

/-- What does not begin with a digit. -/
def NoDigit (rest : List Char) : Prop := ∃ c cs, rest = c :: cs ∧ c.isDigit = false

theorem Stops.noDigit (h : Stops rest) : NoDigit rest := by
  obtain ⟨c, cs, rfl, rfl | rfl⟩ := h <;> exact ⟨_, _, rfl, rfl⟩

theorem Exponent.noDigit (h : Exponent w e) (hrest : NoDigit rest) : NoDigit (w ++ rest) := by
  cases h with
  | none => exact hrest
  | unsigned hmark | positive hmark | negative hmark =>
    obtain rfl | rfl := hmark <;> exact ⟨_, _, rfl, rfl⟩

theorem Fraction.noDigit (h : Fraction w fs) (hrest : NoDigit rest) : NoDigit (w ++ rest) := by
  cases h with
  | none => exact hrest
  | digits => exact ⟨_, _, rfl, rfl⟩

theorem someDigits?_append (h : Digits ds) (hrest : NoDigit rest) :
    someDigits? (ds ++ rest) = some (ds, rest) := by
  obtain ⟨c, cs, rfl, hc⟩ := hrest
  have hne : ds.isEmpty = false := by simpa using h.ne_nil
  simp [someDigits?, List.takeWhile_append_of_pos h.isDigit,
    List.dropWhile_append_of_pos h.isDigit, hc, hne]

theorem integerPart?_append (h : Whole ds) (hrest : NoDigit rest) :
    integerPart? (ds ++ rest) = some (ds, rest) := by
  rw [integerPart?, someDigits?_append h.toDigits hrest]
  have hhead : ¬(decide (ds.length > 1) && ds.head? == some '0') = true := by
    rw [Bool.and_eq_true, decide_eq_true_iff, beq_iff_eq]
    exact fun ⟨hlength, hzero⟩ => h.head hlength hzero
  exact if_neg hhead

theorem fraction?_append (h : Fraction w fs) (hrest : NoDigit rest)
    (hpoint : rest.head? ≠ some '.') :
    fraction? (w ++ rest) = some (if w = [] then none else some fs, rest) := by
  cases h with
  | none =>
    obtain ⟨c, cs, rfl, -⟩ := hrest
    have hc : c ≠ '.' := fun h => hpoint (h ▸ rfl)
    rw [List.nil_append, if_pos rfl, fraction?.eq_def]
    split
    · rename_i h
      exact absurd (List.cons.inj h).1 hc
    · rfl
  | digits h =>
    rw [List.cons_append, fraction?, someDigits?_append h hrest]
    rfl

theorem splitSign_digits (h : Digits ds) (rest : List Char) :
    splitSign (ds ++ rest) = (false, ds ++ rest) := by
  obtain ⟨d, ds, rfl⟩ := List.exists_cons_of_ne_nil h.ne_nil
  have hd := h.isDigit d List.mem_cons_self
  unfold splitSign
  split
  · rename_i h
    cases h
    cases hd
  · rename_i h
    cases h
    cases hd
  · rfl

/-- An exponent is read behind its mark. -/
theorem exponent?_mark {mark : Char} {cs : List Char} {negative : Bool}
    (hmark : mark = 'e' ∨ mark = 'E') (hsign : splitSign cs = (negative, ds ++ rest))
    (h : Digits ds) (he : Decimal.exponent? ('e' :: ds) = some e) (hrest : NoDigit rest) :
    exponent? (mark :: cs) = some (some (if negative then -e else e), rest) := by
  have hmark : (mark == 'e' || mark == 'E') = true := by
    obtain rfl | rfl := hmark <;> rfl
  simp only [exponent?, hmark, if_true, hsign, someDigits?_append h hrest, he, bind,
    Option.bind_some]

theorem exponent?_append (h : Exponent w e) (hrest : Stops rest) :
    exponent? (w ++ rest) = some (if w = [] then none else some e, rest) := by
  cases h with
  | none => obtain ⟨c, cs, rfl, rfl | rfl⟩ := hrest <;> rfl
  | unsigned hmark h he => exact exponent?_mark hmark (splitSign_digits h rest) h he hrest.noDigit
  | @positive mark ds e hmark h he =>
    have hsign : splitSign ('+' :: (ds ++ rest)) = (false, ds ++ rest) := rfl
    exact exponent?_mark hmark hsign h he hrest.noDigit
  | @negative mark ds e hmark h he =>
    have hsign : splitSign ('-' :: (ds ++ rest)) = (true, ds ++ rest) := rfl
    exact exponent?_mark hmark hsign h he hrest.noDigit

/-- The parts of a number as they are read one after the other. -/
theorem Unsigned.parts (h : Unsigned w x) (hrest : Stops rest) :
    ∃ whole f e r r', integerPart? (w ++ rest) = some (whole, r) ∧ fraction? r = some (f, r') ∧
      exponent? r' = some (e, rest) ∧ (f.isSome ∨ e.isSome) ∧
      x = double whole (f.getD []) (e.getD 0) := by
  obtain ⟨hwhole, hfraction, hexponent, hsome⟩ := h
  rename_i whole fraction fs exponent e
  have hpoint : (exponent ++ rest).head? ≠ some '.' := by
    cases hexponent with
    | none => obtain ⟨c, cs, rfl, rfl | rfl⟩ := hrest <;> exact nofun
    | unsigned hmark | positive hmark | negative hmark => obtain rfl | rfl := hmark <;> exact nofun
  refine ⟨whole, _, _, _, _, ?_, fraction?_append hfraction (hexponent.noDigit hrest.noDigit) hpoint,
    exponent?_append hexponent hrest, ?_, ?_⟩
  · rw [List.append_assoc, List.append_assoc]
    exact integerPart?_append hwhole (hfraction.noDigit (hexponent.noDigit hrest.noDigit))
  · obtain h | h := hsome
    · exact .inl (by rw [if_neg h]; rfl)
    · exact .inr (by rw [if_neg h]; rfl)
  · cases hfraction <;> cases hexponent <;> rfl

theorem Whole.head_digit (h : Whole ds) : ∃ d cs, ds = d :: cs ∧ d.isDigit := by
  obtain ⟨d, cs, rfl⟩ := List.exists_cons_of_ne_nil h.ne_nil
  exact ⟨d, cs, rfl, h.isDigit d List.mem_cons_self⟩

theorem Unsigned.head_digit (h : Unsigned w x) : ∃ d cs, w = d :: cs ∧ d.isDigit := by
  obtain ⟨hwhole, -, -, -⟩ := h
  obtain ⟨d, cs, rfl, hd⟩ := hwhole.head_digit
  exact ⟨d, _, rfl, hd⟩

/-! ## Whole numbers -/

variable {negative : Bool} {whole r r' cs : List Char} {f : Option (List Char)} {k : Option Int}

/-- A number is read from its sign and its parts. -/
theorem number?_of_parts {value : Json} (hsign : splitMinus cs = (negative, w))
    (hwhole : integerPart? w = some (whole, r)) (hfraction : fraction? r = some (f, r'))
    (hexponent : exponent? r' = some (k, rest)) (hvalue : numberValue negative whole f k = value)
    (hfinite : ∀ x, value = .float x → x.isInf = false) :
    number? mode cs = some (value, rest) := by
  simp only [number?, hsign, hwhole, hfraction, hexponent, hvalue, bind, Option.bind_some]
  cases mode with
  | pass => rfl
  | read =>
    cases value with
    | float x => exact if_neg (Bool.not_eq_true _ ▸ hfinite x rfl)
    | _ => rfl

theorem splitMinus_digit {d : Char} (hd : d.isDigit) (cs : List Char) :
    splitMinus (d :: cs) = (false, d :: cs) := by
  unfold splitMinus
  split
  case h_1 h =>
    cases h
    cases hd
  case h_2 => rfl

theorem numberValue_of_isSome (h : f.isSome ∨ k.isSome) :
    numberValue negative whole f k =
      .float (if negative then -double whole (f.getD []) (k.getD 0)
        else double whole (f.getD []) (k.getD 0)) := by
  cases f <;> cases k <;> first | rfl | simp at h

theorem Numeral.exists_eq (h : Numeral w x) : ∃ d ds, w = d :: ds ∧ (d.isDigit ∨ d = '-') := by
  cases h with
  | positive h =>
    obtain ⟨d, ds, rfl, hd⟩ := h.head_digit
    exact ⟨d, ds, rfl, .inl hd⟩
  | negative => exact ⟨'-', _, rfl, .inr rfl⟩

/-- A number with a point or an exponent is read as a double. -/
theorem number?_numeral (h : Numeral w x) (hx : x.isInf = false) (hrest : Stops rest) :
    number? mode (w ++ rest) = some (.float x, rest) := by
  cases h with
  | positive h =>
    obtain ⟨whole, f, e, r, r', hwhole, hfraction, hexponent, hsome, rfl⟩ := h.parts hrest
    obtain ⟨d, cs, rfl, hd⟩ := h.head_digit
    refine number?_of_parts (splitMinus_digit hd _) hwhole hfraction hexponent
      (numberValue_of_isSome hsome) ?_
    rintro x ⟨⟩
    exact hx
  | negative h =>
    obtain ⟨whole, f, e, r, r', hwhole, hfraction, hexponent, hsome, rfl⟩ := h.parts hrest
    refine number?_of_parts rfl hwhole hfraction hexponent (numberValue_of_isSome hsome) ?_
    rintro x ⟨⟩
    exact hx

/-! ## Integers -/

/-- The digits of a number other than zero begin with another digit than zero. -/
theorem head?_toDigits (hn : 0 < n) : (Nat.toDigits 10 n).head? ≠ some '0' := by
  induction n using Nat.strongRecOn with
  | ind n ih =>
    by_cases hbase : n < 10
    · have hdigit : ∀ n < 10, 0 < n → [n.digitChar].head? ≠ some '0' := by decide
      rw [Nat.toDigits_of_lt_base hbase]
      exact hdigit n hbase hn
    · rw [Nat.toDigits_of_base_le (by decide) (by omega),
        List.head?_append_of_ne_nil _ Nat.toDigits_ne_nil]
      exact ih (n / 10) (by omega) (by omega)

theorem whole_toDigits (n : Nat) : Whole (Nat.toDigits 10 n) where
  ne_nil := Nat.toDigits_ne_nil
  isDigit _ hc := Nat.isDigit_of_mem_toDigits (by decide) (by decide) hc
  head hlength := by
    obtain rfl | hn := Nat.eq_zero_or_pos n
    · exact absurd hlength (by decide)
    · exact head?_toDigits hn

theorem number?_toDigits (hrest : Stops rest) {value : Int}
    (hsign : splitMinus cs = (negative, Nat.toDigits 10 n ++ rest))
    (hvalue : ofWhole negative (Nat.toDigits 10 n) = .int value) :
    number? mode cs = some (.int value, rest) := by
  refine number?_of_parts hsign (integerPart?_append (whole_toDigits n) hrest.noDigit)
    (fraction?_append .none hrest.noDigit ?_) (exponent?_append .none hrest) ?_ (fun _ => nofun)
  · obtain ⟨c, cs, rfl, rfl | rfl⟩ := hrest <;> exact nofun
  · rw [if_pos rfl, if_pos rfl, numberValue, hvalue]

/-- An integer is read from its digits. -/
theorem number?_intText (i : Int64) (hrest : Stops rest) :
    number? mode (intText i.toInt ++ rest) = some (.int i.toInt, rest) := by
  have hlow : (-0x8000000000000000 : Int) ≤ i.toInt := i.minValue_le_toInt
  have hhigh : i.toInt ≤ 0x7fffffffffffffff := i.toInt_le
  unfold intText
  split
  case isTrue hneg =>
    refine number?_toDigits hrest rfl ?_
    have hfits : 0 < i.toInt.natAbs ∧ i.toInt.natAbs ≤ 0x8000000000000000 := by omega
    simp only [ofWhole, digitsValue_toDigits, hfits, decide_true, Bool.and_self, if_true]
    congr 1
    omega
  case isFalse hpos =>
    obtain ⟨d, ds, hds, hdigit⟩ := exists_toDigits_eq_cons i.toInt.natAbs
    have hsign := splitMinus_digit (hdigit d List.mem_cons_self) (ds ++ rest)
    refine number?_toDigits hrest (by rw [hds]; exact hsign) ?_
    have hfits : i.toInt.natAbs < 0x10000000000000000 := by omega
    simp only [ofWhole, digitsValue_toDigits, hfits, Bool.false_eq_true, if_false, if_true]
    congr 1
    omega

end Garnet.Text.Json
