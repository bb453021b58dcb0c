import Garnet.Library.Strings
import Garnet.Proofs.Adding
import Garnet.Proofs.Texts.Digits
import Garnet.Proofs.Texts.Successor

/-!
# Numerals in a radix

Digits are read back from a text as the number that they were written for, also behind blanks and a
sign, with zeros in front of them and in capital letters.
-/

namespace Garnet

namespace Number

variable {radix n k : Nat} {c : Char} {ds : List Char}

/-- A digit is neither a blank nor a sign nor an underscore. -/
theorem plain_of_digit (h : (digitValue? radix c).isSome) :
    Text.isBlank c = false ∧ c ≠ '-' ∧ c ≠ '+' ∧ c ≠ '_' := by
  have hkind : c.isDigit ∨ c.isLower ∨ c.isUpper := by
    by_contra hnone
    simp only [not_or, Bool.not_eq_true] at hnone
    obtain ⟨hdigit, hlower, hupper⟩ := hnone
    simp [digitValue?, hdigit, hlower, hupper] at h
  rw [Text.isDigit_iff, Text.isLower_iff, Text.isUpper_iff] at hkind
  have hchars : '-'.toNat = 45 ∧ '+'.toNat = 43 ∧ '_'.toNat = 95 := by decide
  refine ⟨?_, ?_, ?_, ?_⟩
  · simp only [Text.isBlank, Bool.or_eq_false_iff, Bool.and_eq_false_iff, beq_eq_false_iff_ne,
      decide_eq_false_iff_not]
    omega
  all_goals
    rintro rfl
    omega

/-- The characters are digits of a radix, at least one, and a number is their value. -/
structure Reads (radix : Nat) (ds : List Char) (n : Nat) : Prop where
  ne_nil : ds ≠ []
  digit : ∀ c ∈ ds, (digitValue? radix c).isSome
  value : ofDigits radix ds = n

theorem ofDigits_zero_cons (ds : List Char) : ofDigits radix ('0' :: ds) = ofDigits radix ds := by
  have hzero : (digitValue? radix '0').getD 0 = 0 := by
    have hchar : '0'.isDigit = true ∧ '0'.toNat - '0'.toNat = 0 := by decide
    simp only [digitValue?, hchar, if_true]
    split <;> rfl
  rw [ofDigits, List.foldl_cons, hzero]
  rfl

theorem Reads.zeros (h : Reads radix ds n) (hradix : 0 < radix) (k : Nat) :
    Reads radix (List.replicate k '0' ++ ds) n := by
  have hchar : '0'.isDigit = true ∧ '0'.toNat - '0'.toNat = 0 := by decide
  refine ⟨List.append_ne_nil_of_right_ne_nil _ h.ne_nil, fun c hc => ?_, ?_⟩
  · rcases List.mem_append.mp hc with hc | hc
    · obtain rfl := List.eq_of_mem_replicate hc
      simp only [digitValue?, hchar, if_true, hradix, Option.isSome_some]
    · exact h.digit c hc
  · induction k with
    | zero => exact h.value
    | succ k ih => rw [List.replicate_succ, List.cons_append, ofDigits_zero_cons, ih]

end Number

/-! ## Numerals in a text -/

open Number

variable {radix n : Nat} {i : Int} {cs ds sign : List Char}

/-- A sign, or none, and the integer that it makes of a magnitude. -/
inductive Signed : List Char → Nat → Int → Prop
  | plain (n : Nat) : Signed [] n n
  | plus (n : Nat) : Signed ['+'] n n
  | minus (n : Nat) : Signed ['-'] n (-n)

theorem Signed.splitSign (h : Signed sign n i) (hne : ds ≠ [])
    (hds : ∀ c ∈ ds, (digitValue? radix c).isSome) (rest : List Char) :
    ∃ negative, Decimal.splitSign (sign ++ (ds ++ rest)) = (negative, ds ++ rest) ∧
      (if negative = true then -(n : Int) else n) = i := by
  cases h with
  | plus => exact ⟨false, rfl, rfl⟩
  | minus => exact ⟨true, rfl, rfl⟩
  | plain =>
    obtain ⟨d, ds, rfl⟩ := List.exists_cons_of_ne_nil hne
    obtain ⟨-, hminus, hplus, -⟩ := plain_of_digit (hds d List.mem_cons_self)
    refine ⟨false, ?_, rfl⟩
    rw [List.nil_append, List.cons_append, Decimal.splitSign]
    · exact fun _ h => hminus (List.cons.inj h).1
    · exact fun _ h => hplus (List.cons.inj h).1

namespace Library.Strings

end Library.Strings

end Garnet
