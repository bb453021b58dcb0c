import Garnet.Proofs.Equality.Keys

/-!
# Data that are built alike

Data are built from nil, truth values, integers, texts and symbols by arrays and by hashes whose
keys are apart. To be built alike is an equivalence. What is compared without a message is told
apart by it.
-/

namespace Garnet

/-- What a value of data holds that has no parts. -/
def Payload.Plain : Payload → Prop
  | .nil | .true | .false | .integer _ | .text _ | .symbol _ => True
  | _ => False

/-- What data hold. -/
def Payload.IsData : Payload → Prop
  | .array _ | .hash _ => True
  | p => p.Plain

namespace Store

variable {s : Store} {r : Value → Value → Prop} {a b c : Value} {n : Nat}

/-- Values that are built in at most `n` steps. -/
inductive Built (s : Store) : Nat → Value → Prop where
  | plain {n : Nat} {v : Value} (hv : (s.payload v).Plain) : s.Built (n + 1) v
  | array {n : Nat} {v : Value} {xs : Array Value} (hv : s.payload v = .array xs)
      (hitems : ∀ x ∈ xs.toList, s.Built n x) : s.Built (n + 1) v
  | hash {n : Nat} {v : Value} {d : HashData} (hv : s.payload v = .hash d)
      (hapart : s.Apart d.table) (hkeys : ∀ p ∈ d.table.pairs, s.Built n p.1)
      (hvalues : ∀ p ∈ d.table.pairs, s.Built n p.2) : s.Built (n + 1) v

theorem Built.isData (ha : s.Built n a) : (s.payload a).IsData := by
  cases ha with
  | plain hv =>
    cases hp : s.payload a <;> rw [hp] at hv <;> first | exact hv | exact hv.elim
  | array hv | hash hv => rw [hv]; exact trivial

theorem Built.items {xs : Array Value} (ha : s.Built (n + 1) a) (hv : s.payload a = .array xs) :
    ∀ x ∈ xs.toList, s.Built n x := by
  cases ha with
  | plain h => rw [hv] at h; exact h.elim
  | array h hitems => cases hv.symm.trans h; exact hitems
  | hash h => cases hv.symm.trans h

theorem Built.entries {d : HashData} (ha : s.Built (n + 1) a) (hv : s.payload a = .hash d) :
    s.Apart d.table ∧ ∀ p ∈ d.table.pairs, s.Built n p.2 := by
  cases ha with
  | plain h => rw [hv] at h; exact h.elim
  | array h => cases hv.symm.trans h
  | hash h hapart _ hvalues => cases hv.symm.trans h; exact ⟨hapart, hvalues⟩

/-- One step of equality: two values are equal keys, where `r` says what is equal in arrays, or
hashes with the same entries. -/
inductive Matches (s : Store) (r : Value → Value → Prop) (a b : Value) : Prop where
  | keys (h : s.HoldSame r a b)
  | hashes {d e : HashData} (ha : s.payload a = .hash d) (hb : s.payload b = .hash e)
      (hd : s.Apart d.table) (he : s.Apart e.table) (h : s.SameEntries r d.table e.table)

/-- Whether two values are built alike, up to `n` steps. -/
def Same (s : Store) : Nat → Value → Value → Prop
  | 0, a, b => a = b
  | n + 1, a, b => s.Matches (s.Same n) a b

namespace Matches

theorem symm (hr : ∀ x y, r x y → r y x) (h : s.Matches r a b) : s.Matches r b a := by
  cases h with
  | keys h => exact .keys (h.symm hr)
  | hashes ha hb hd he h => exact .hashes hb ha he hd (h.symm hr hd he)

theorem trans (hr : ∀ x y z, r x y → r y z → r x z) (hab : s.Matches r a b)
    (hbc : s.Matches r b c) : s.Matches r a c := by
  cases hab with
  | keys hab =>
    cases hbc with
    | keys hbc => exact .keys (hab.trans hr hbc)
    | hashes hb hc hd he h =>
      cases hab with
      | itself hab => exact .hashes (hab ▸ hb) hc hd he h
      | integers _ hb' | floats _ hb' | texts _ hb' | symbols _ hb' | arrays _ hb' =>
        cases hb.symm.trans hb'
  | hashes ha hb hd he h =>
    cases hbc with
    | hashes hb' hc _ hf h' =>
      cases hb.symm.trans hb'
      exact .hashes ha hc hd hf (h.trans hr h')
    | keys hbc =>
      cases hbc with
      | itself hbc => exact .hashes ha (hbc ▸ hb) hd he h
      | integers hb' | floats hb' | texts hb' | symbols hb' | arrays hb' =>
        cases hb.symm.trans hb'

end Matches

theorem Matches.array {xs : Array Value} (h : s.Matches r a b) (ha : s.payload a = .array xs)
    (hne : a ≠ b) : ∃ ys, s.payload b = .array ys ∧ List.Forall₂ r xs.toList ys.toList := by
  cases h with
  | hashes ha' => cases ha.symm.trans ha'
  | keys h =>
    cases h with
    | itself h => exact absurd h hne
    | integers ha' | floats ha' | texts ha' | symbols ha' => cases ha.symm.trans ha'
    | arrays ha' hb h => cases ha.symm.trans ha'; exact ⟨_, hb, h⟩

theorem Matches.hash {d : HashData} (h : s.Matches r a b) (ha : s.payload a = .hash d)
    (hne : a ≠ b) : ∃ e, s.payload b = .hash e ∧ s.SameEntries r d.table e.table := by
  cases h with
  | hashes ha' hb _ _ h => cases ha.symm.trans ha'; exact ⟨_, hb, h⟩
  | keys h =>
    cases h with
    | itself h => exact absurd h hne
    | integers ha' | floats ha' | texts ha' | symbols ha' | arrays ha' =>
      cases ha.symm.trans ha'

/-- To be built alike is an equivalence. -/
theorem same_equivalence (n : Nat) : Equivalence (s.Same n) := by
  induction n with
  | zero => exact ⟨Eq.refl, Eq.symm, Eq.trans⟩
  | succ n ih =>
    exact ⟨fun _ => .keys (.itself rfl), .symm fun _ _ => ih.symm, .trans fun _ _ _ => ih.trans⟩

/-! ## Comparisons without a message -/

theorem Matches.of_plainEqual? (ha : (s.payload a).IsData) (hb : (s.payload b).IsData)
    (h : s.plainEqual? a b = some true) : s.Matches r a b := by
  refine .keys ?_
  unfold plainEqual? at h
  split at h
  case isTrue hab => exact .itself (eq_of_beq hab)
  case isFalse =>
    split at h
    case h_1 hx hy => exact .integers hx (eq_of_beq (Option.some.inj h) ▸ hy)
    case h_2 hx hy | h_4 hx hy => rw [hx] at ha; exact ha.elim
    case h_3 hx hy => rw [hy] at hb; exact hb.elim
    case h_5 hx hy => exact .texts hx (eq_of_beq (Option.some.inj h) ▸ hy)
    case h_6 hx hy => exact .symbols hx (eq_of_beq (Option.some.inj h) ▸ hy)
    case h_7 | h_8 | h_9 | h_10 => cases h

theorem Matches.plainEqual? (h : s.Matches r a b) (ha : (s.payload a).Plain) :
    s.plainEqual? a b = some true := by
  cases h with
  | hashes hx => rw [hx] at ha; exact ha.elim
  | keys h =>
    cases h with
    | itself h => exact h ▸ s.plainEqual?_self a
    | floats hx | arrays hx => rw [hx] at ha; exact ha.elim
    | integers hx hy | texts hx hy | symbols hx hy =>
      rw [Store.plainEqual?, hx, hy]
      simp only [beq_self_eq_true, ite_self]

/-- Arrays and hashes are compared without a message only where they are one value. -/
theorem plainEqual?_of_parts {x : Bool} (h : s.plainEqual? a b = some x)
    (ha : (∃ xs, s.payload a = .array xs) ∨ ∃ d, s.payload a = .hash d) : a = b ∧ x = true := by
  unfold plainEqual? at h
  split at h
  · rename_i hab
    exact ⟨eq_of_beq hab, (Option.some.inj h).symm⟩
  · obtain ⟨xs, ha⟩ | ⟨d, ha⟩ := ha
    all_goals
      rw [ha] at h
      cases hb : s.payload b <;> rw [hb] at h <;> cases h

/-- The comparison without a message tells what is built alike. -/
theorem plainEqual?_iff {x : Bool} (ha : (s.payload a).IsData) (hb : (s.payload b).IsData)
    (h : s.plainEqual? a b = some x) : x = true ↔ s.Matches r a b := by
  have parts (ha : (∃ xs, s.payload a = .array xs) ∨ ∃ d, s.payload a = .hash d) :
      x = true ↔ s.Matches r a b :=
    have ⟨hab, hx⟩ := plainEqual?_of_parts h ha
    iff_of_true hx (.keys (.itself hab))
  cases hp : s.payload a with
  | array xs => exact parts (.inl ⟨xs, hp⟩)
  | hash d => exact parts (.inr ⟨d, hp⟩)
  | _ =>
    refine ⟨fun hx => .of_plainEqual? ha hb (hx ▸ h), fun hm => ?_⟩
    refine Option.some.inj (h.symm.trans (hm.plainEqual? ?_))
    rw [hp] at ha ⊢
    exact ha

end Store

end Garnet
