import Garnet.Number.Digits
import Mathlib.Algebra.Order.Ring.Nat

/-!
# Digits in a radix

What is written in a radix is read back by the value of its digits, so that no two integers are
written alike.
-/

namespace Garnet.Number

variable {radix n d fuel : Nat} {c : Char} {ds : List Char} {i j : Int}

theorem digitValue?_digitChar (hd : d < radix) (hradix : radix ≤ 36) :
    digitValue? radix (digitChar d) = some d := by
  have hd36 : d < 36 := Nat.lt_of_lt_of_le hd hradix
  have hdigit : ∀ d < 36, (digitChar d).isDigit = true → (digitChar d).toNat - '0'.toNat = d := by
    decide
  have hletter : ∀ d < 36, (digitChar d).isDigit = false →
      (digitChar d).isLower = true ∧ (digitChar d).toNat - 'a'.toNat + 10 = d := by decide
  rw [digitValue?]
  cases h : (digitChar d).isDigit with
  | true => simp only [if_true, hdigit d hd36 h, hd]
  | false =>
    obtain ⟨hlower, hvalue⟩ := hletter d hd36 h
    simp only [Bool.false_eq_true, if_false, hlower, if_true, hvalue, hd]

/-- The characters are digits, at least one, and a number is their value. -/
structure Writes (radix : Nat) (ds : List Char) (n : Nat) : Prop where
  ne_nil : ds ≠ []
  digit : ∀ c ∈ ds, ∃ d < radix, c = digitChar d
  value : ofDigits radix ds = n

theorem Writes.last (hd : d < radix) (hradix : radix ≤ 36) : Writes radix [digitChar d] d where
  ne_nil := List.cons_ne_nil _ _
  digit _ hc := ⟨d, hd, List.mem_singleton.mp hc⟩
  value := by
    rw [ofDigits, List.foldl_cons, List.foldl_nil, digitValue?_digitChar hd hradix, Nat.mul_zero,
      Nat.zero_add, Option.getD_some]

theorem Writes.concat (h : Writes radix ds n) (hd : d < radix) (hradix : radix ≤ 36) :
    Writes radix (ds ++ [digitChar d]) (radix * n + d) where
  ne_nil := List.append_ne_nil_of_left_ne_nil h.ne_nil _
  digit c hc := (List.mem_append.mp hc).elim (h.digit c) fun hc => ⟨d, hd, List.mem_singleton.mp hc⟩
  value := by
    have hlast : ofDigits radix (ds ++ [digitChar d]) =
        radix * ofDigits radix ds + (digitValue? radix (digitChar d)).getD 0 := by
      rw [ofDigits, List.foldl_append]
      rfl
    rw [hlast, h.value, digitValue?_digitChar hd hradix, Option.getD_some]

/-- As long as the fuel is enough for its bits, a number is written in front of the rest. -/
theorem digitsLoop_writes (hlow : 2 ≤ radix) (hhigh : radix ≤ 36) (hn : n < 2 ^ (fuel + 1))
    (acc : List Char) :
    ∃ ds, digitsLoop radix (fuel + 1) n acc = ds ++ acc ∧ Writes radix ds n := by
  have hmod : n % radix < radix := Nat.mod_lt n (by omega)
  have hdiv : radix * (n / radix) + n % radix = n := Nat.div_add_mod n radix
  induction fuel generalizing n acc with
  | zero =>
    have hzero : n / radix = 0 := Nat.div_eq_of_lt (by omega)
    rw [hzero, Nat.mul_zero, Nat.zero_add] at hdiv
    refine ⟨[digitChar (n % radix)], ?_, ?_⟩
    · rw [digitsLoop, hzero]
      rfl
    · have hlast := Writes.last hmod hhigh
      rwa [hdiv] at hlast ⊢
  | succ fuel ih =>
    rw [digitsLoop]
    by_cases hzero : n / radix = 0
    · rw [hzero, Nat.mul_zero, Nat.zero_add] at hdiv
      refine ⟨[digitChar (n % radix)], ?_, ?_⟩
      · rw [hzero]
        rfl
      · have hlast := Writes.last hmod hhigh
        rwa [hdiv] at hlast ⊢
    · have hhalf : n / radix ≤ n / 2 := Nat.div_le_div_left hlow (by decide)
      have hless : n / radix < 2 ^ (fuel + 1) := by
        rw [pow_succ] at hn
        omega
      obtain ⟨ds, hrun, hds⟩ := ih hless (digitChar (n % radix) :: acc)
        (Nat.mod_lt _ (by omega)) (Nat.div_add_mod _ _)
      refine ⟨ds ++ [digitChar (n % radix)], ?_, ?_⟩
      · rw [beq_false_of_ne hzero, if_neg Bool.false_ne_true, hrun, List.append_assoc]
        rfl
      · have hconcat := hds.concat hmod hhigh
        rwa [hdiv] at hconcat

theorem digits_writes (hlow : 2 ≤ radix) (hhigh : radix ≤ 36) (n : Nat) :
    Writes radix (digits radix n) n := by
  obtain ⟨ds, hrun, hds⟩ := digitsLoop_writes (n := n) hlow hhigh Nat.lt_log2_self []
  rwa [digits, hrun, List.append_nil]

theorem digitChar_ne_minus (hd : d < 36) : digitChar d ≠ '-' := by
  have hall : ∀ d < 36, digitChar d ≠ '-' := by decide
  exact hall d hd

/-- An integer is written with a sign in front, or with a digit. -/
theorem exists_inRadix_eq (hlow : 2 ≤ radix) (hhigh : radix ≤ 36) (i : Int) :
    ∃ c cs, inRadix radix i = c :: cs ∧
      ∀ a ∈ c :: cs, a = '-' ∨ ∃ d < radix, a = digitChar d := by
  have hds := digits_writes hlow hhigh i.natAbs
  have hall : ∀ a ∈ inRadix radix i, a = '-' ∨ ∃ d < radix, a = digitChar d := by
    intro a ha
    rcases List.mem_append.mp ha with ha | ha
    · split at ha
      · exact .inl (List.mem_singleton.mp ha)
      · cases ha
    · exact .inr (hds.digit a ha)
  have hne : inRadix radix i ≠ [] := List.append_ne_nil_of_right_ne_nil _ hds.ne_nil
  obtain ⟨c, cs, hcs⟩ := List.exists_cons_of_ne_nil hne
  exact ⟨c, cs, hcs, fun a ha => hall a (hcs ▸ ha)⟩

/-- No two integers are written alike. -/
theorem inRadix_injective (hlow : 2 ≤ radix) (hhigh : radix ≤ 36) :
    Function.Injective (inRadix radix) := by
  intro i j h
  have hi := digits_writes hlow hhigh i.natAbs
  have hj := digits_writes hlow hhigh j.natAbs
  -- the digits do not begin with a sign
  have hplain {n : Nat} (hn : Writes radix (digits radix n) n) (cs : List Char) :
      digits radix n ≠ '-' :: cs := by
    intro heq
    obtain ⟨d, hd, hc⟩ := hn.digit '-' (heq ▸ List.mem_cons_self)
    exact digitChar_ne_minus (Nat.lt_of_lt_of_le hd hhigh) hc.symm
  have habs (h : digits radix i.natAbs = digits radix j.natAbs) : i.natAbs = j.natAbs := by
    rw [← hi.value, ← hj.value, h]
  rw [inRadix, inRadix] at h
  split at h <;> split at h
  · have heq := habs (List.cons.inj h).2
    omega
  · exact absurd h.symm (hplain hj _)
  · exact absurd h (hplain hi _)
  · have heq := habs h
    omega

end Garnet.Number
