import Garnet.Proofs.Comparisons

/-!
# Equal doubles

Doubles are compared as numbers. What two equal doubles have in common follows from how a double is
packed: from what it unpacks to, its sign, exponent and mantissa can be read back, so that only the
two zeros are equal and not the same.
-/

namespace Garnet.Doubles

open Float.Model (UnpackedFloat)
open Float.Model.UnpackedFloat
open Float.Model.Format (binary64)

variable {b c : BitVec binary64.numBits} {x y z : Float} {p q : UnpackedFloat}

/-! ## Bits -/

theorem mantissa_toNat : (unpackMantissa b).toNat = b.toNat % 0x10000000000000 := by
  simp [unpackMantissa]

theorem exponent_toNat : (unpackExponent b).toNat = b.toNat / 0x10000000000000 % 0x800 := by
  simp [unpackExponent, Nat.shiftRight_eq_div_pow]

theorem sign_toNat : (unpackSign b).toNat = b.toNat / 0x8000000000000000 % 2 := by
  change (b.extractLsb 63 63).toNat = _
  simp [Nat.shiftRight_eq_div_pow]

/-- A packed double is its sign, its exponent and its mantissa. -/
theorem bits_ext (hsign : unpackSign b = unpackSign c)
    (hexponent : unpackExponent b = unpackExponent c)
    (hmantissa : unpackMantissa b = unpackMantissa c) : b = c := by
  have hb : b.toNat < 2 ^ 64 := b.isLt
  have hc : c.toNat < 2 ^ 64 := c.isLt
  rw [← BitVec.toNat_inj] at hsign hexponent hmantissa ⊢
  rw [sign_toNat, sign_toNat] at hsign
  rw [exponent_toNat, exponent_toNat] at hexponent
  rw [mantissa_toNat, mantissa_toNat] at hmantissa
  omega

theorem sign_injective : Function.Injective Sign.ofBitVec := by
  intro b c h
  obtain rfl | rfl := BitVec.eq_zero_or_eq_one b <;>
    obtain rfl | rfl := BitVec.eq_zero_or_eq_one c <;> first | rfl | cases h

/-- The mantissa of a normal number with the bit that is not stored. -/
theorem lead_toNat (m : BitVec 52) : (1#1 ++ m).toNat = 0x10000000000000 + m.toNat := by
  rw [BitVec.toNat_append, Nat.shiftLeft_eq, Nat.mul_comm, ← Nat.two_pow_add_eq_or_of_lt m.isLt]
  rfl

/-- The sign, the exponent and the mantissa that are stored for what a double unpacks to. -/
def fields : UnpackedFloat → Sign × Nat × Nat
  | .infinity s => (s, 0x7ff, 0)
  | .notANumber => (.positive, 0x7ff, 1)
  | .zero s => (s, 0, 0)
  | .finite s m e _ =>
    (s, if m < 0x10000000000000 then 0 else (e + 1075).toNat, m % 0x10000000000000)

theorem fields_unpack (h : unpack binary64 b ≠ .notANumber) :
    fields (unpack binary64 b) =
      (Sign.ofBitVec (unpackSign b), (unpackExponent b).toNat, (unpackMantissa b).toNat) := by
  have hmantissa : (unpackMantissa b).toNat < 0x10000000000000 := (unpackMantissa b).isLt
  have hbias : (binary64.exponentBias : Int) = 1023 := rfl
  unfold unpack at h ⊢
  dsimp only at h ⊢
  by_cases hones : unpackExponent b = -1#11
  · by_cases hzero : unpackMantissa b = 0#52
    · rw [if_pos hones, if_pos hzero, hones, hzero]
      rfl
    · rw [if_pos hones, if_neg hzero] at h
      exact absurd rfl h
  · rw [if_neg hones]
    by_cases hexponent : unpackExponent b = 0#11
    · rw [if_pos hexponent, hexponent]
      by_cases hzero : unpackMantissa b = 0#52
      · rw [dif_pos hzero, hzero]
        rfl
      · rw [dif_neg hzero]
        dsimp only [fields]
        rw [if_pos hmantissa, Nat.mod_eq_of_lt hmantissa]
        rfl
    · rw [if_neg hexponent]
      dsimp only [fields]
      rw [lead_toNat, Nat.add_mod_left, Nat.mod_eq_of_lt hmantissa, if_neg (by omega)]
      congr 2
      omega

/-- Only what is not a number unpacks from other bits as well. -/
theorem unpack_injective (h : unpack binary64 b = unpack binary64 c)
    (hb : unpack binary64 b ≠ .notANumber) : b = c := by
  have hfields := congrArg fields h
  rw [fields_unpack hb, fields_unpack (h ▸ hb), Prod.mk.injEq, Prod.mk.injEq] at hfields
  obtain ⟨hsign, hexponent, hmantissa⟩ := hfields
  exact bits_ext (sign_injective hsign) (BitVec.eq_of_toNat_eq hexponent)
    (BitVec.eq_of_toNat_eq hmantissa)

/-! ## Equality -/

theorem toBits_injective : Function.Injective Float.toBits := by
  rintro ⟨⟨b, hb⟩⟩ ⟨⟨c, hc⟩⟩ (rfl : b = c)
  rfl

theorem ext_unpack (h : x.toModel.unpack = y.toModel.unpack)
    (hx : x.toModel.unpack ≠ .notANumber) : x = y :=
  toBits_injective (UInt64.eq_of_toBitVec_eq (unpack_injective h hx))

/-- Whether two doubles are the two zeros. -/
def OppositeZeros (x y : Float) : Prop := x = 0.0 ∧ y = -0.0 ∨ x = -0.0 ∧ y = 0.0

theorem eq_zero_of_unpack {s : Sign} (h : x.toModel.unpack = .zero s) : x = 0.0 ∨ x = -0.0 := by
  cases s with
  | positive => exact .inl (ext_unpack (h.trans rfl) (h ▸ nofun))
  | negative => exact .inr (ext_unpack (h.trans rfl) (h ▸ nofun))

/-- What the comparison finds equal is the same, or zero on both sides. -/
theorem same_or_zeros (h : p.compare q = some .eq) :
    p = q ∧ p ≠ .notANumber ∨ (∃ s, p = .zero s) ∧ ∃ s, q = .zero s := by
  cases p with
  | notANumber => cases q <;> cases h
  | zero s => cases q with
    | zero r => exact .inr ⟨⟨s, rfl⟩, r, rfl⟩
    | finite r | infinity r => cases r <;> cases h
    | notANumber => cases h
  | infinity s => cases q with
    | infinity r =>
      refine .inl ⟨?_, nofun⟩
      cases s <;> cases r <;> first | rfl | cases h
    | _ => cases s <;> cases h
  | finite s m e hm => cases q with
    | finite r m' e' hm' =>
      refine .inl ⟨?_, nofun⟩
      have hparts (h : ((compare e e').then (compare m m')) = .eq) : e = e' ∧ m = m' := by
        rwa [Ordering.then_eq_eq, Int.compare_eq_eq, Nat.compare_eq_eq] at h
      cases s <;> cases r
      case negative.positive | positive.negative => cases h
      case negative.negative =>
        obtain ⟨rfl, rfl⟩ := hparts (Ordering.swap_eq_eq.mp (Option.some.inj h))
        rfl
      case positive.positive =>
        obtain ⟨rfl, rfl⟩ := hparts (Option.some.inj h)
        rfl
    | zero r => cases s <;> cases h
    | infinity r => cases s <;> cases r <;> cases h
    | notANumber => cases s <;> cases h

/-- Equal doubles are the same, but for the two zeros. -/
theorem beq_iff : (x == y) = true ↔ x = y ∧ x.isNaN = false ∨ OppositeZeros x y := by
  constructor
  · intro h
    obtain ⟨hsame, hnumber⟩ | ⟨⟨s, hx⟩, r, hy⟩ := same_or_zeros (Eval.beq_iff_compare.mp h)
    · refine .inl ⟨ext_unpack hsame hnumber, ?_⟩
      change x.toModel.unpack.isNaN = false
      cases hx : x.toModel.unpack with
      | notANumber => exact absurd hx hnumber
      | _ => rfl
    · obtain rfl | rfl := eq_zero_of_unpack hx <;> obtain rfl | rfl := eq_zero_of_unpack hy
      · exact .inl ⟨rfl, rfl⟩
      · exact .inr (.inl ⟨rfl, rfl⟩)
      · exact .inr (.inr ⟨rfl, rfl⟩)
      · exact .inl ⟨rfl, rfl⟩
  · rintro (⟨rfl, hx⟩ | ⟨rfl, rfl⟩ | ⟨rfl, rfl⟩)
    · exact Eval.beq_self hx
    · rfl
    · rfl

theorem beq_trans (hxy : (x == y) = true) (hyz : (y == z) = true) : (x == z) = true := by
  rw [beq_iff] at hxy hyz
  obtain ⟨rfl, -⟩ | ⟨rfl, rfl⟩ | ⟨rfl, rfl⟩ := hxy
  · exact beq_iff.mpr hyz
  · obtain ⟨rfl, -⟩ | ⟨h, rfl⟩ | ⟨-, rfl⟩ := hyz <;> rfl
  · obtain ⟨rfl, -⟩ | ⟨-, rfl⟩ | ⟨h, rfl⟩ := hyz <;> rfl

theorem OppositeZeros.ne (h : OppositeZeros x y) : x ≠ y := by
  obtain ⟨rfl, rfl⟩ | ⟨rfl, rfl⟩ := h <;> decide

end Garnet.Doubles
