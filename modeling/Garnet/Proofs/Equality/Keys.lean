import Garnet.Proofs.Equality.Doubles
import Garnet.Proofs.Hierarchy.Link
import Mathlib.Data.List.Forall2
import Mathlib.Data.List.Perm.Subperm
import Mathlib.SetTheory.Cardinal.Finite

/-!
# Equality of keys

Keys are equal if they are one value, or hold the same number, text or symbol, or are arrays whose
elements are equal keys in order. On all values of any store this is an equivalence.
-/

namespace Garnet.Store

variable {s : Store} {r : Value → Value → Prop} {a b c : Value} {n : Nat}

/-- Whether two values are equal keys, where `r` says it of the elements of arrays. -/
inductive HoldSame (s : Store) (r : Value → Value → Prop) (a b : Value) : Prop where
  | itself (h : a = b)
  | integers {i : Int} (ha : s.payload a = .integer i) (hb : s.payload b = .integer i)
  | floats {x y : Float} (ha : s.payload a = .float x) (hb : s.payload b = .float y)
      (h : (x == y) = true)
  | texts {t : String} (ha : s.payload a = .text t) (hb : s.payload b = .text t)
  | symbols {t : String} (ha : s.payload a = .symbol t) (hb : s.payload b = .symbol t)
  | arrays {xs ys : Array Value} (ha : s.payload a = .array xs) (hb : s.payload b = .array ys)
      (h : List.Forall₂ r xs.toList ys.toList)

theorem all_zip_iff {xs ys : Array Value} {f : Value → Value → Bool} :
    (xs.size == ys.size && (xs.toList.zip ys.toList).all fun (x, y) => f x y) = true ↔
      List.Forall₂ (fun x y => f x y = true) xs.toList ys.toList := by
  rw [List.forall₂_iff_zip, Bool.and_eq_true, beq_iff_eq, List.all_eq_true]
  exact and_congr_right fun _ => ⟨fun h _ _ hmem => h _ hmem, fun h _ hmem => h hmem⟩

theorem keyEqlWithin_succ :
    s.keyEqlWithin (n + 1) a b = true ↔
      s.HoldSame (fun x y => s.keyEqlWithin n x y = true) a b := by
  rw [keyEqlWithin, Bool.or_eq_true, beq_iff_eq]
  constructor
  · rintro (h | h)
    · exact .itself h
    · split at h
      case h_1 ha hb => exact .integers ha (eq_of_beq h ▸ hb)
      case h_2 ha hb => exact .floats ha hb h
      case h_3 ha hb => exact .texts ha (eq_of_beq h ▸ hb)
      case h_4 ha hb => exact .symbols ha (eq_of_beq h ▸ hb)
      case h_5 ha hb => exact .arrays ha hb (all_zip_iff.mp h)
      case h_6 => cases h
  · rintro (h | ⟨ha, hb⟩ | ⟨ha, hb, h⟩ | ⟨ha, hb⟩ | ⟨ha, hb⟩ | ⟨ha, hb, h⟩)
    · exact .inl h
    all_goals right; rw [ha, hb]
    · exact beq_self_eq_true _
    · exact h
    · exact beq_self_eq_true _
    · exact beq_self_eq_true _
    · exact all_zip_iff.mpr h

theorem forall₂_trans (hr : ∀ x y z, r x y → r y z → r x z) {l m k : List Value}
    (hlm : List.Forall₂ r l m) (hmk : List.Forall₂ r m k) : List.Forall₂ r l k := by
  induction hlm generalizing k with
  | nil => exact hmk
  | cons hxy _ ih =>
    cases hmk with
    | cons hyz hmk => exact .cons (hr _ _ _ hxy hyz) (ih hmk)

namespace HoldSame

theorem symm (hr : ∀ x y, r x y → r y x) (h : s.HoldSame r a b) : s.HoldSame r b a := by
  cases h with
  | itself h => exact .itself h.symm
  | integers ha hb => exact .integers hb ha
  | floats ha hb h => exact .floats hb ha (Eval.beq_comm _ _ ▸ h)
  | texts ha hb => exact .texts hb ha
  | symbols ha hb => exact .symbols hb ha
  | arrays ha hb h => exact .arrays hb ha (.flip (h.imp hr))

theorem trans (hr : ∀ x y z, r x y → r y z → r x z) (hab : s.HoldSame r a b)
    (hbc : s.HoldSame r b c) : s.HoldSame r a c := by
  -- what both say that `b` holds is one and the same
  cases hab with
  | itself h => exact h ▸ hbc
  | integers ha hb =>
    cases hbc with
    | itself h => exact .integers ha (h ▸ hb)
    | integers hb' hc => cases hb.symm.trans hb'; exact .integers ha hc
    | floats hb' | texts hb' | symbols hb' | arrays hb' => cases hb.symm.trans hb'
  | floats ha hb h =>
    cases hbc with
    | itself heq => exact .floats ha (heq ▸ hb) h
    | floats hb' hc h' => cases hb.symm.trans hb'; exact .floats ha hc (Doubles.beq_trans h h')
    | integers hb' | texts hb' | symbols hb' | arrays hb' => cases hb.symm.trans hb'
  | texts ha hb =>
    cases hbc with
    | itself h => exact .texts ha (h ▸ hb)
    | texts hb' hc => cases hb.symm.trans hb'; exact .texts ha hc
    | integers hb' | floats hb' | symbols hb' | arrays hb' => cases hb.symm.trans hb'
  | symbols ha hb =>
    cases hbc with
    | itself h => exact .symbols ha (h ▸ hb)
    | symbols hb' hc => cases hb.symm.trans hb'; exact .symbols ha hc
    | integers hb' | floats hb' | texts hb' | arrays hb' => cases hb.symm.trans hb'
  | arrays ha hb h =>
    cases hbc with
    | itself heq => exact .arrays ha (heq ▸ hb) h
    | arrays hb' hc h' =>
      cases hb.symm.trans hb'
      exact .arrays ha hc (forall₂_trans hr h h')
    | integers hb' | floats hb' | texts hb' | symbols hb' => cases hb.symm.trans hb'

end HoldSame

/-! ## An equivalence -/

theorem keyEqlWithin_self (n : Nat) (a : Value) : s.keyEqlWithin n a a = true := by
  cases n with
  | zero => exact beq_self_eq_true a
  | succ n => exact keyEqlWithin_succ.mpr (.itself rfl)

theorem keyEqlWithin_symm (h : s.keyEqlWithin n a b = true) : s.keyEqlWithin n b a = true := by
  induction n generalizing a b with
  | zero => exact eq_of_beq h ▸ beq_self_eq_true a
  | succ n ih => exact keyEqlWithin_succ.mpr ((keyEqlWithin_succ.mp h).symm fun _ _ => ih)

theorem keyEqlWithin_trans (hab : s.keyEqlWithin n a b = true)
    (hbc : s.keyEqlWithin n b c = true) : s.keyEqlWithin n a c = true := by
  induction n generalizing a b c with
  | zero => exact eq_of_beq hab ▸ hbc
  | succ n ih =>
    exact keyEqlWithin_succ.mpr ((keyEqlWithin_succ.mp hab).trans (fun _ _ _ => ih) (keyEqlWithin_succ.mp hbc))

/-- Equality of keys is an equivalence on all values, whatever they hold. -/
theorem keyEql_equivalence (s : Store) : Equivalence fun a b => s.keyEql a b = true :=
  ⟨keyEqlWithin_self _, keyEqlWithin_symm, keyEqlWithin_trans⟩

end Garnet.Store

/-!
## The bound on the comparison of keys

The comparison of keys goes down into arrays, through as many levels as there are objects. To go
down further finds more equal keys or none, and each time that it finds some, classes of objects
that were apart fall together. So no bound beyond the number of objects makes a difference, and
whether keys are equal is a matter of what they hold, and not of how many objects there are.
-/

namespace Garnet

/-- What an object holds, as far as it is looked at when keys are compared. -/
def Payload.compared : Payload → Payload
  | .module _ | .nil | .true | .false | .hash _ | .range .. | .proc _ | .regexp _ => .object
  | p => p

theorem Payload.eq_of_compared {p q : Payload} (h : p.compared = q) (hq : q ≠ .object) : p = q := by
  cases p <;> first | exact h | exact absurd h.symm hq

namespace Store

variable {s t : Store} {a b v : Value} {n m : Nat}

/-! ### More levels -/

theorem HoldSame.mono {r r' : Value → Value → Prop} (hr : ∀ x y, r x y → r' x y)
    (h : s.HoldSame r a b) : s.HoldSame r' a b := by
  cases h with
  | itself h => exact .itself h
  | integers ha hb => exact .integers ha hb
  | floats ha hb h => exact .floats ha hb h
  | texts ha hb => exact .texts ha hb
  | symbols ha hb => exact .symbols ha hb
  | arrays ha hb h => exact .arrays ha hb (h.imp hr)

theorem keyEqlWithin_succ_of (h : s.keyEqlWithin n a b = true) :
    s.keyEqlWithin (n + 1) a b = true := by
  induction n generalizing a b with
  | zero => exact keyEqlWithin_succ.mpr (.itself (eq_of_beq h))
  | succ n ih => exact keyEqlWithin_succ.mpr ((keyEqlWithin_succ.mp h).mono fun _ _ => ih)

theorem keyEqlWithin_mono (hnm : n ≤ m) (h : s.keyEqlWithin n a b = true) :
    s.keyEqlWithin m a b = true := by
  induction hnm with
  | refl => exact h
  | step _ ih => exact keyEqlWithin_succ_of ih

/-- One level more finds no equal keys that have not been found. -/
def Settled (s : Store) (n : Nat) : Prop :=
  ∀ a b, s.keyEqlWithin (n + 1) a b = true → s.keyEqlWithin n a b = true

namespace Settled

theorem mono (h : s.Settled n) (hnm : n ≤ m) : s.Settled m := by
  induction hnm with
  | refl => exact h
  | step _ ih =>
    exact fun a b hab => keyEqlWithin_succ.mpr ((keyEqlWithin_succ.mp hab).mono ih)

theorem of_within (h : s.Settled n) (hab : s.keyEqlWithin m a b = true) :
    s.keyEqlWithin n a b = true := by
  rcases Nat.le_total m n with hmn | hnm
  · exact keyEqlWithin_mono hmn hab
  · induction hnm with
    | refl => exact hab
    | step hnm ih => exact ih (h.mono hnm a b hab)

end Settled

/-! ### Classes of objects -/

/-- The objects that are equal keys within some levels. -/
def classes (s : Store) (n : Nat) : Setoid (Fin s.objects.size) where
  r i j := s.keyEqlWithin n ⟨i⟩ ⟨j⟩ = true
  iseqv := ⟨fun i => keyEqlWithin_self n ⟨i⟩, keyEqlWithin_symm, keyEqlWithin_trans⟩

theorem index_lt_of_keyEqlWithin (h : s.keyEqlWithin n a b = true) (hne : a ≠ b) :
    a.index < s.objects.size ∧ b.index < s.objects.size := by
  cases n with
  | zero => exact absurd (eq_of_beq h) hne
  | succ n =>
    cases keyEqlWithin_succ.mp h with
    | itself h => exact absurd h hne
    | integers ha hb | floats ha hb | texts ha hb | symbols ha hb | arrays ha hb =>
      exact ⟨index_lt_of_payload s ha nofun, index_lt_of_payload s hb nofun⟩

/-- One level more leaves fewer classes, unless it changes nothing. -/
theorem card_classes_lt (h : ¬s.Settled n) :
    Nat.card (Quotient (s.classes (n + 1))) < Nat.card (Quotient (s.classes n)) := by
  by_contra hle
  let coarser : Quotient (s.classes n) → Quotient (s.classes (n + 1)) :=
    Quotient.map id fun _ _ => keyEqlWithin_succ_of
  have hsurjective : Function.Surjective coarser := fun q =>
    q.inductionOn fun i => ⟨Quotient.mk _ i, rfl⟩
  -- a map onto as many classes merges none of them
  have hinjective := (hsurjective.bijective_of_nat_card_le (Nat.le_of_not_lt hle)).injective
  refine h fun a b hab => ?_
  by_cases hne : a = b
  · exact hne ▸ keyEqlWithin_self n a
  · obtain ⟨ha, hb⟩ := index_lt_of_keyEqlWithin hab hne
    have hsame : coarser (Quotient.mk _ ⟨a.index, ha⟩) = coarser (Quotient.mk _ ⟨b.index, hb⟩) :=
      Quotient.sound (s := s.classes (n + 1)) hab
    exact Quotient.exact (s := s.classes n) (hinjective hsame)

theorem add_card_classes_le (h : ∀ k < n, ¬s.Settled k) :
    n + Nat.card (Quotient (s.classes n)) ≤ s.objects.size := by
  induction n with
  | zero =>
    have hle := Nat.card_le_card_of_surjective (Quotient.mk (s.classes 0)) Quotient.mk_surjective
    simpa using hle
  | succ n ih =>
    have hlt := card_classes_lt (h n (Nat.lt_succ_self n))
    have hle := ih fun k hk => h k (Nat.lt_succ_of_lt hk)
    omega

/-- As many levels as there are objects are enough. -/
theorem settled_size (s : Store) : s.Settled s.objects.size := by
  by_contra hnot
  have hle := add_card_classes_le (s := s) (n := s.objects.size + 1) fun k hk hsettled =>
    hnot (hsettled.mono (Nat.le_of_lt_succ hk))
  omega

theorem keyEql_iff_exists : s.keyEql a b = true ↔ ∃ n, s.keyEqlWithin n a b = true :=
  ⟨fun h => ⟨_, h⟩, fun ⟨_, h⟩ => s.settled_size.of_within h⟩

/-! ### Other stores -/

theorem HoldSame.of_compared {r : Value → Value → Prop}
    (hst : ∀ v, (t.payload v).compared = (s.payload v).compared) (h : s.HoldSame r a b) :
    t.HoldSame r a b := by
  have holds {v p} (hv : s.payload v = p) (hp : p ≠ .object) (hcompared : p.compared = p) :
      t.payload v = p :=
    Payload.eq_of_compared ((hst v).trans ((congrArg _ hv).trans hcompared)) hp
  cases h with
  | itself h => exact .itself h
  | integers ha hb => exact .integers (holds ha nofun rfl) (holds hb nofun rfl)
  | floats ha hb h => exact .floats (holds ha nofun rfl) (holds hb nofun rfl) h
  | texts ha hb => exact .texts (holds ha nofun rfl) (holds hb nofun rfl)
  | symbols ha hb => exact .symbols (holds ha nofun rfl) (holds hb nofun rfl)
  | arrays ha hb h => exact .arrays (holds ha nofun rfl) (holds hb nofun rfl) h

theorem keyEqlWithin_of_compared (hst : ∀ v, (t.payload v).compared = (s.payload v).compared)
    (h : s.keyEqlWithin n a b = true) : t.keyEqlWithin n a b = true := by
  induction n generalizing a b with
  | zero => exact h
  | succ n ih =>
    exact keyEqlWithin_succ.mpr (((keyEqlWithin_succ.mp h).of_compared hst).mono fun _ _ => ih)

/-- Keys are equal in each store in which objects hold what is compared. -/
theorem keyEql_of_compared (hst : ∀ v, (t.payload v).compared = (s.payload v).compared) :
    t.keyEql = s.keyEql := by
  funext a b
  rw [Bool.eq_iff_iff, keyEql_iff_exists, keyEql_iff_exists]
  exact ⟨fun ⟨n, h⟩ => ⟨n, keyEqlWithin_of_compared (fun v => (hst v).symm) h⟩,
    fun ⟨n, h⟩ => ⟨n, keyEqlWithin_of_compared hst h⟩⟩

end Store

end Garnet

/-!
## Hashes as finite maps

The comparison of two hashes looks up each key of the first one in the second one, and compares how
many there are. As long as no two keys of one hash are equal, counting the classes of equal keys
shows that nothing is left over in the second one: the two are the same finite map.
-/

namespace Garnet.Store

variable {s : Store} {r : Value → Value → Prop} {d e f : Table} {key k v w : Value}

/-! ### Lookups -/

theorem keyEql_congr_right (h : s.keyEql k v = true) (a : Value) :
    s.keyEql a k = s.keyEql a v := by
  rw [Bool.eq_iff_iff]
  exact ⟨fun ha => keyEqlWithin_trans ha h,
    fun ha => keyEqlWithin_trans ha (keyEqlWithin_symm h)⟩

/-- Equal keys are looked up alike. -/
theorem get?_congr (d : Table) (h : s.keyEql k key = true) :
    d.get? s.keyEql k = d.get? s.keyEql key := by
  simp only [Table.get?, Table.position?, keyEql_congr_right h]

theorem exists_of_get? (h : d.get? s.keyEql key = some v) :
    ∃ k, (k, v) ∈ d.pairs ∧ s.keyEql k key = true := by
  rw [Table.get?_eq_find?] at h
  obtain ⟨⟨k, v⟩, hfind, rfl⟩ := Option.map_eq_some_iff.mp h
  exact ⟨k, List.mem_of_find?_eq_some hfind,
    List.find?_some (p := fun p : Value × Value => s.keyEql p.1 key) hfind⟩

/-- No two keys of a table are equal. -/
def Apart (s : Store) (d : Table) : Prop := d.keys.Pairwise fun k l => s.keyEql k l = false

theorem Apart.pairs (hd : s.Apart d) : d.pairs.Pairwise fun p q => s.keyEql p.1 q.1 = false := by
  rwa [Apart, Table.keys_eq, List.pairwise_map] at hd

theorem Apart.get?_of_mem (hd : s.Apart d) (h : (k, v) ∈ d.pairs) : d.get? s.keyEql k = some v :=
  Table.get?_of_mem (s.keyEql_self k) hd h

/-! ### Classes of keys -/

def keySetoid (s : Store) : Setoid Value := ⟨_, s.keyEql_equivalence⟩

/-- The class of the keys that equal a key. -/
def keyClass (s : Store) (k : Value) : Quotient s.keySetoid := Quotient.mk _ k

theorem keyClass_eq : s.keyClass k = s.keyClass key ↔ s.keyEql k key = true :=
  ⟨Quotient.exact (s := s.keySetoid), Quotient.sound (s := s.keySetoid)⟩

theorem Apart.nodup (hd : s.Apart d) : (d.keys.map s.keyClass).Nodup := by
  rw [List.Nodup, List.pairwise_map]
  exact hd.imp fun h heq => Bool.eq_false_iff.mp h (keyClass_eq.mp heq)

theorem length_classes : (d.keys.map s.keyClass).length = d.size := List.length_map _

/-! ### The same entries -/

/-- Whether a table has as many entries as another, which has each of its keys with a value that is
related to its own. -/
def SameEntries (s : Store) (r : Value → Value → Prop) (d e : Table) : Prop :=
  d.size = e.size ∧ ∀ p ∈ d.pairs, ∃ w, e.get? s.keyEql p.1 = some w ∧ r p.2 w

namespace SameEntries

theorem get? (h : s.SameEntries r d e) (hv : d.get? s.keyEql key = some v) :
    ∃ w, e.get? s.keyEql key = some w ∧ r v w := by
  obtain ⟨k, hmem, hk⟩ := exists_of_get? hv
  obtain ⟨w, hw, hr⟩ := h.2 _ hmem
  exact ⟨w, get?_congr e hk ▸ hw, hr⟩

theorem classes_subset (h : ∀ p ∈ d.pairs, ∃ w, e.get? s.keyEql p.1 = some w) :
    d.keys.map s.keyClass ⊆ e.keys.map s.keyClass := by
  intro c hc
  obtain ⟨k, hk, rfl⟩ := List.mem_map.mp hc
  obtain ⟨_, hp⟩ := Table.mem_keys.mp hk
  obtain ⟨w, hw⟩ := h _ hp
  obtain ⟨l, hmem, hl⟩ := exists_of_get? hw
  exact List.mem_map.mpr ⟨l, Table.mem_keys_of_mem hmem, keyClass_eq.mpr hl⟩

/-- The keys of the first table are all that the second one has. -/
theorem exists_get? (h : s.SameEntries r d e) (hd : s.Apart d) (hw : e.get? s.keyEql key = some w) :
    ∃ v, d.get? s.keyEql key = some v := by
  have hsubset : d.keys.map s.keyClass ⊆ e.keys.map s.keyClass :=
    classes_subset fun p hp => (h.2 p hp).imp fun _ => And.left
  have hsize : (d.keys.map s.keyClass).length = (e.keys.map s.keyClass).length := by
    rw [length_classes, length_classes, h.1]
  have hperm := (List.subperm_of_subset hd.nodup hsubset).perm_of_length_le (Nat.le_of_eq hsize.symm)
  obtain ⟨l, hmem, hl⟩ := exists_of_get? hw
  obtain ⟨k, hk, hkl⟩ := List.mem_map.mp
    (hperm.symm.subset (List.mem_map_of_mem (f := s.keyClass) (Table.mem_keys_of_mem hmem)))
  obtain ⟨v, hp⟩ := Table.mem_keys.mp hk
  refine ⟨v, ?_⟩
  rw [← get?_congr d hl, ← get?_congr d (keyClass_eq.mp hkl)]
  exact hd.get?_of_mem hp

theorem symm (hr : ∀ x y, r x y → r y x) (hd : s.Apart d) (he : s.Apart e)
    (h : s.SameEntries r d e) : s.SameEntries r e d := by
  refine ⟨h.1.symm, fun p hp => ?_⟩
  have hw : e.get? s.keyEql p.1 = some p.2 := he.get?_of_mem hp
  obtain ⟨v, hv⟩ := h.exists_get? hd hw
  obtain ⟨w, hw', hr'⟩ := h.get? hv
  cases hw.symm.trans hw'
  exact ⟨v, hv, hr _ _ hr'⟩

theorem trans (hr : ∀ x y z, r x y → r y z → r x z) (hde : s.SameEntries r d e)
    (hef : s.SameEntries r e f) : s.SameEntries r d f := by
  refine ⟨hde.1.trans hef.1, fun p hp => ?_⟩
  obtain ⟨w, hw, hvw⟩ := hde.2 p hp
  obtain ⟨u, hu, hwu⟩ := hef.get? hw
  exact ⟨u, hu, hr _ _ _ hvw hwu⟩

end SameEntries

theorem size_le_of_get? (hd : s.Apart d) (h : ∀ p ∈ d.pairs, ∃ w, e.get? s.keyEql p.1 = some w) :
    d.size ≤ e.size := by
  rw [← length_classes (s := s), ← length_classes (s := s)]
  exact (List.subperm_of_subset hd.nodup (SameEntries.classes_subset h)).length_le

/-- Two tables have the same entries if they are the same finite map. -/
theorem sameEntries_iff (hd : s.Apart d) (he : s.Apart e) :
    s.SameEntries r d e ↔
      ∀ key, Option.Rel r (d.get? s.keyEql key) (e.get? s.keyEql key) := by
  constructor
  · intro h key
    cases hv : d.get? s.keyEql key with
    | some v =>
      obtain ⟨w, hw, hvw⟩ := h.get? hv
      exact hw ▸ .some hvw
    | none =>
      cases hw : e.get? s.keyEql key with
      | none => exact .none
      | some w =>
        obtain ⟨v, hv'⟩ := h.exists_get? hd hw
        cases hv.symm.trans hv'
  · intro h
    have hde (p) (hp : p ∈ d.pairs) : ∃ w, e.get? s.keyEql p.1 = some w ∧ r p.2 w := by
      have hp' := h p.1
      rw [hd.get?_of_mem hp] at hp'
      cases hw : e.get? s.keyEql p.1 with
      | none => rw [hw] at hp'; cases hp'
      | some w =>
        rw [hw] at hp'
        cases hp' with
        | some hvw => exact ⟨w, rfl, hvw⟩
    have hed (p) (hp : p ∈ e.pairs) : ∃ v, d.get? s.keyEql p.1 = some v := by
      have hp' := h p.1
      rw [he.get?_of_mem hp] at hp'
      cases hv : d.get? s.keyEql p.1 with
      | none => rw [hv] at hp'; cases hp'
      | some v => exact ⟨v, rfl⟩
    exact ⟨Nat.le_antisymm (size_le_of_get? hd fun p hp => (hde p hp).imp fun _ => And.left)
      (size_le_of_get? he hed), hde⟩

end Garnet.Store
