import Garnet.Text.Successor
import Mathlib.Data.Char
import Mathlib.Data.List.Induction
import Mathlib.Logic.Function.Iterate
import Mathlib.Tactic.Ring

/-!
# Texts as numerals

The letters and digits of a text are the places of a numeral; each kind of character has a radix of
its own, and a character of no kind counts for nothing. The next text is the next numeral of the same
kinds, or the first one that is longer.
-/

namespace Garnet.Text

/-! ## Places -/

/-- The kinds of characters that are counted up. -/
inductive Kind where
  | digit
  | lower
  | upper
  deriving DecidableEq

namespace Kind

def least : Kind → Char
  | digit => '0'
  | lower => 'a'
  | upper => 'A'

def greatest : Kind → Char
  | digit => '9'
  | lower => 'z'
  | upper => 'Z'

def radix : Kind → Nat
  | digit => 10
  | lower | upper => 26

/-- What a longer numeral begins with. -/
def lead : Kind → Char
  | digit => '1'
  | lower => 'a'
  | upper => 'A'

end Kind

def kind? (c : Char) : Option Kind :=
  if c.isDigit then some .digit
  else if c.isLower then some .lower
  else if c.isUpper then some .upper
  else none

/-- How many numerals of one character there are of the kind of a character. -/
def radix (c : Char) : Nat := (kind? c).elim 1 Kind.radix

/-- How many characters of its kind come before a character. -/
def place (c : Char) : Nat := (kind? c).elim 0 fun k => c.toNat - k.least.toNat

/-- The number that a text stands for. -/
def value (cs : List Char) : Nat := cs.foldl (fun n c => n * radix c + place c) 0

variable {c d : Char} {k : Kind} {cs : List Char}

theorem isDigit_iff : c.isDigit ↔ 48 ≤ c.toNat ∧ c.toNat ≤ 57 := by
  have h : c.isDigit = (decide ('0'.val ≤ c.val) && decide (c.val ≤ '9'.val)) := rfl
  rw [h, Bool.and_eq_true, decide_eq_true_eq, decide_eq_true_eq, UInt32.le_iff_toNat_le,
    UInt32.le_iff_toNat_le]
  exact Iff.rfl

theorem isLower_iff : c.isLower ↔ 97 ≤ c.toNat ∧ c.toNat ≤ 122 := by
  have h : c.isLower = (decide ('a'.val ≤ c.val) && decide (c.val ≤ 'z'.val)) := rfl
  rw [h, Bool.and_eq_true, decide_eq_true_eq, decide_eq_true_eq, UInt32.le_iff_toNat_le,
    UInt32.le_iff_toNat_le]
  exact Iff.rfl

theorem isUpper_iff : c.isUpper ↔ 65 ≤ c.toNat ∧ c.toNat ≤ 90 := by
  have h : c.isUpper = decide ('A'.val ≤ c.val ∧ c.val ≤ 'Z'.val) := rfl
  rw [h, decide_eq_true_eq, UInt32.le_iff_toNat_le, UInt32.le_iff_toNat_le]
  exact Iff.rfl

theorem kind?_eq (c : Char) : kind? c = if c.isDigit then some .digit else
    if c.isLower then some .lower else if c.isUpper then some .upper else none :=
  rfl

theorem kind?_eq_some :
    kind? c = some k ↔ k.least.toNat ≤ c.toNat ∧ c.toNat < k.least.toNat + k.radix := by
  have hleast : Kind.digit.least.toNat = 48 ∧ Kind.lower.least.toNat = 97 ∧
      Kind.upper.least.toNat = 65 := by decide
  have hradix : Kind.digit.radix = 10 ∧ Kind.lower.radix = 26 ∧ Kind.upper.radix = 26 := by decide
  constructor
  · intro h
    rw [kind?_eq] at h
    split at h
    case isTrue hdigit =>
      cases h
      rw [isDigit_iff] at hdigit
      omega
    split at h
    case isTrue hlower =>
      cases h
      rw [isLower_iff] at hlower
      omega
    split at h
    case isTrue hupper =>
      cases h
      rw [isUpper_iff] at hupper
      omega
    cases h
  · intro h
    cases k with
    | digit => exact if_pos (isDigit_iff.mpr (by omega))
    | lower =>
      rw [kind?_eq, if_neg (mt isDigit_iff.mp (by omega)), if_pos (isLower_iff.mpr (by omega))]
    | upper =>
      rw [kind?_eq, if_neg (mt isDigit_iff.mp (by omega)), if_neg (mt isLower_iff.mp (by omega)),
        if_pos (isUpper_iff.mpr (by omega))]

theorem isAlphanum_iff : c.isAlphanum ↔ ∃ k, kind? c = some k := by
  have h : c.isAlphanum = ((c.isUpper || c.isLower) || c.isDigit) := rfl
  rw [h, kind?_eq, ← Option.isSome_iff_exists]
  cases c.isDigit <;> cases c.isLower <;> cases c.isUpper <;> exact Iff.rfl

/-! ## One character -/

theorem radix_of_kind (hk : kind? c = some k) : radix c = k.radix :=
  congrArg (·.elim 1 Kind.radix) hk

theorem place_of_kind (hk : kind? c = some k) : place c = c.toNat - k.least.toNat :=
  congrArg (·.elim 0 fun k => c.toNat - k.least.toNat) hk

theorem radix_of_none (hk : kind? c = none) : radix c = 1 :=
  congrArg (·.elim 1 Kind.radix) hk

theorem place_of_none (hk : kind? c = none) : place c = 0 :=
  congrArg (·.elim 0 fun k => c.toNat - k.least.toNat) hk

theorem place_lt_radix (c : Char) : place c < radix c := by
  cases hk : kind? c with
  | none =>
    rw [place_of_none hk, radix_of_none hk]
    exact Nat.one_pos
  | some k =>
    have := kind?_eq_some.mp hk
    rw [place_of_kind hk, radix_of_kind hk]
    omega

theorem kind?_least (k : Kind) : kind? k.least = some k ∧ place k.least = 0 := by
  cases k <;> decide

theorem place_add_one_eq_radix (hk : kind? c = some k) :
    place c + 1 = radix c ↔ c = k.greatest := by
  have hgreatest : k.greatest.toNat + 1 = k.least.toNat + k.radix := by cases k <;> decide
  have := kind?_eq_some.mp hk
  rw [place_of_kind hk, radix_of_kind hk, ← Char.toNat_inj]
  omega

theorem kind?_greatest (k : Kind) : kind? k.greatest = some k := by cases k <;> decide

/-- The last characters of their kinds. -/
theorem mem_last_iff (hc : c.isAlphanum) : c ∈ ['9', 'z', 'Z'] ↔ place c + 1 = radix c := by
  obtain ⟨k, hk⟩ := isAlphanum_iff.mp hc
  rw [place_add_one_eq_radix hk]
  constructor
  · intro hmem
    simp only [List.mem_cons, List.not_mem_nil, or_false] at hmem
    rcases hmem with rfl | rfl | rfl <;> cases hk <;> rfl
  · rintro rfl
    cases k <;> decide

theorem toNat_nextChar (h : (c.toNat + 1).isValidChar) : (nextChar c).toNat = c.toNat + 1 := by
  rw [nextChar, if_pos h]
  rw [Char.ofNat, dif_pos h]
  rfl

theorem kind?_nextChar (hk : kind? c = some k) (hc : c ≠ k.greatest) :
    kind? (nextChar c) = some k ∧ place (nextChar c) = place c + 1 := by
  have hgreatest : k.greatest.toNat + 1 = k.least.toNat + k.radix ∧ k.greatest.toNat < 128 := by
    cases k <;> decide
  have hbounds := kind?_eq_some.mp hk
  have hne : c.toNat ≠ k.greatest.toNat := fun h => hc (Char.toNat_inj.mp h)
  have hnext : (nextChar c).toNat = c.toNat + 1 := toNat_nextChar (.inl (by omega))
  have hkind : kind? (nextChar c) = some k := kind?_eq_some.mpr (by omega)
  refine ⟨hkind, ?_⟩
  rw [place_of_kind hkind, place_of_kind hk]
  omega

theorem bump_greatest (k : Kind) : bump k.greatest = (k.least, true) := by cases k <;> rfl

theorem bump_next (hk : kind? c = some k) (hc : c ≠ k.greatest) :
    bump c = (nextChar c, false) := by
  have hne (j : Kind) : (c == j.greatest) = false := by
    refine beq_false_of_ne ?_
    rintro rfl
    rw [kind?_greatest] at hk
    cases hk
    exact hc rfl
  have hz : (c == 'z') = false := hne .lower
  have hZ : (c == 'Z') = false := hne .upper
  have hnine : (c == '9') = false := hne .digit
  simp only [bump, hz, hZ, hnine, Bool.false_eq_true, if_false]

theorem leading_least (k : Kind) : leading k.least = k.lead := by cases k <;> rfl

/-! ## The carry -/

theorem value_append : value (cs ++ [c]) = value cs * radix c + place c := by
  rw [value, List.foldl_append]
  rfl

/-- Where a character is not the last one of its kind, there is a letter or digit. -/
theorem isAlphanum_of_place (hc : place c + 1 ≠ radix c) : c.isAlphanum := by
  cases hk : kind? c with
  | none =>
    rw [place_of_none hk, radix_of_none hk] at hc
    exact absurd rfl hc
  | some k => exact isAlphanum_iff.mpr ⟨k, hk⟩

theorem succReversed_of_none (hk : kind? c = none) (cs : List Char) :
    succReversed (c :: cs) = c :: succReversed cs := by
  have hc : c.isAlphanum = false := by
    rw [← Bool.not_eq_true, isAlphanum_iff, hk]
    simp
  exact if_pos (congrArg not hc)

theorem succReversed_of_ne (hk : kind? c = some k) (hc : c ≠ k.greatest) (cs : List Char) :
    succReversed (c :: cs) = nextChar c :: cs := by
  have halnum : c.isAlphanum = true := isAlphanum_iff.mpr ⟨k, hk⟩
  refine (if_neg (by rw [halnum]; decide)).trans ?_
  rw [bump_next hk hc]
  rfl

theorem succReversed_greatest (k : Kind) (cs : List Char) :
    succReversed (k.greatest :: cs) =
      k.least :: if cs.any Char.isAlphanum then succReversed cs else k.lead :: cs := by
  have halnum : k.greatest.isAlphanum = true := isAlphanum_iff.mpr ⟨k, kind?_greatest k⟩
  refine (if_neg (by rw [halnum]; decide)).trans ?_
  rw [bump_greatest, ← leading_least]
  refine (if_neg (by decide)).trans ?_
  split <;> rfl

/-- A numeral that is not the last one of its kinds. The carry ends at the last character that is not
the last one of its kind. -/
theorem succReversed_next (h : ∃ c ∈ cs, place c + 1 ≠ radix c) :
    (succReversed cs).map kind? = cs.map kind? ∧
      value (succReversed cs).reverse = value cs.reverse + 1 := by
  induction cs with
  | nil => simp at h
  | cons c cs ih =>
    rw [List.reverse_cons, value_append]
    cases hk : kind? c with
    | none =>
      have hone := radix_of_none hk
      have hplace : place c + 1 = radix c := by rw [place_of_none hk, hone]
      have hrest : ∃ c ∈ cs, place c + 1 ≠ radix c := by simpa [hplace] using h
      obtain ⟨hkinds, hvalue⟩ := ih hrest
      rw [succReversed_of_none hk, List.reverse_cons, value_append, hvalue, hone, List.map_cons,
        List.map_cons, hkinds]
      exact ⟨rfl, by omega⟩
    | some k =>
      by_cases hc : c = k.greatest
      · subst hc
        have hplace := (place_add_one_eq_radix hk).mpr rfl
        have hrest : ∃ c ∈ cs, place c + 1 ≠ radix c := by simpa [hplace] using h
        have hany : cs.any Char.isAlphanum := by
          obtain ⟨d, hd, hlast⟩ := hrest
          exact List.any_eq_true.mpr ⟨d, hd, isAlphanum_of_place hlast⟩
        obtain ⟨hkinds, hvalue⟩ := ih hrest
        obtain ⟨hleast, hzero⟩ := kind?_least k
        rw [succReversed_greatest, if_pos hany, List.reverse_cons, value_append, hvalue, hzero,
          radix_of_kind hleast, ← radix_of_kind hk, ← hplace, List.map_cons, List.map_cons, hkinds,
          hleast, hk]
        exact ⟨rfl, by ring⟩
      · obtain ⟨hnext, hplace⟩ := kind?_nextChar hk hc
        rw [succReversed_of_ne hk hc, List.reverse_cons, value_append, hplace, radix_of_kind hnext,
          ← radix_of_kind hk, List.map_cons, List.map_cons, hnext, hk]
        exact ⟨rfl, rfl⟩

/-- After the last numeral of its kinds a text grows. -/
theorem succReversed_grows (h : ∀ c ∈ cs, place c + 1 = radix c) (hany : cs.any Char.isAlphanum) :
    (succReversed cs).length = cs.length + 1 ∧ (succReversed cs).any Char.isAlphanum := by
  induction cs with
  | nil => cases hany
  | cons c cs ih =>
    have hrest : ∀ c ∈ cs, place c + 1 = radix c := fun d hd => h d (List.mem_cons_of_mem _ hd)
    rw [List.any_cons, Bool.or_eq_true] at hany
    cases hk : kind? c with
    | none =>
      have hany := hany.resolve_left fun hc => by
        obtain ⟨k, hk'⟩ := isAlphanum_iff.mp hc
        rw [hk] at hk'
        cases hk'
      obtain ⟨hlength, hsome⟩ := ih hrest hany
      rw [succReversed_of_none hk, List.length_cons, List.length_cons, hlength, List.any_cons, hsome,
        Bool.or_true]
      exact ⟨rfl, rfl⟩
    | some k =>
      obtain rfl := (place_add_one_eq_radix hk).mp (h c List.mem_cons_self)
      have hleast : k.least.isAlphanum = true := isAlphanum_iff.mpr ⟨k, (kind?_least k).1⟩
      rw [succReversed_greatest, List.any_cons, hleast, Bool.true_or, List.length_cons]
      refine ⟨?_, rfl⟩
      split
      · rename_i hsome
        rw [(ih hrest hsome).1, List.length_cons]
      · rfl

/-- The first character of the kind of a character. -/
def first (c : Char) : Char := (kind? c).elim c Kind.least

/-- What comes in front of a numeral that begins with a character, when it grows. -/
def lead (c : Char) : Char := (kind? c).elim c Kind.lead

/-- After the last numeral that has nothing but letters and digits, all places begin again. -/
theorem succReversed_lead (hcs : ∀ d ∈ c :: cs, d.isAlphanum) (h : ∀ d ∈ c :: cs, place d + 1 = radix d) :
    succReversed (cs ++ [c]) = (cs ++ [c]).map first ++ [lead c] := by
  have hgreatest (d : Char) (hd : d ∈ c :: cs) : ∃ k : Kind, d = k.greatest := by
    obtain ⟨k, hk⟩ := isAlphanum_iff.mp (hcs d hd)
    exact ⟨k, (place_add_one_eq_radix hk).mp (h d hd)⟩
  have hfirst (k : Kind) : first k.greatest = k.least ∧ lead k.greatest = k.lead := by
    rw [first, lead, kind?_greatest]
    exact ⟨rfl, rfl⟩
  clear hcs h
  induction cs with
  | nil =>
    obtain ⟨k, rfl⟩ := hgreatest c List.mem_cons_self
    rw [List.nil_append, succReversed_greatest, List.map_cons, (hfirst k).1, (hfirst k).2]
    rfl
  | cons d cs ih =>
    obtain ⟨k, rfl⟩ := hgreatest d (by simp)
    have hany : (cs ++ [c]).any Char.isAlphanum := by
      obtain ⟨j, rfl⟩ := hgreatest c List.mem_cons_self
      exact List.any_eq_true.mpr ⟨_, by simp, isAlphanum_iff.mpr ⟨j, kind?_greatest j⟩⟩
    rw [List.cons_append, succReversed_greatest, if_pos hany, List.map_cons, (hfirst k).1, ih]
    · rfl
    · intro e he
      refine hgreatest e ?_
      simp only [List.mem_cons] at he ⊢
      tauto

/-! ## The next text -/

theorem succ_of_any (h : cs.any Char.isAlphanum) : succ cs = (succReversed cs.reverse).reverse := by
  rw [succ, if_pos h]

/-- As long as there is a letter or digit, and not all are the last ones of their kinds, the next text
has the same kinds in the same places, and is the next numeral. -/
theorem succ_next (h : ∃ c ∈ cs, place c + 1 ≠ radix c) :
    (succ cs).length = cs.length ∧ (succ cs).map kind? = cs.map kind? ∧
      value (succ cs) = value cs + 1 := by
  obtain ⟨c, hc, hlast⟩ := h
  have hany : cs.any Char.isAlphanum := List.any_eq_true.mpr ⟨c, hc, isAlphanum_of_place hlast⟩
  have hreverse : ∃ c ∈ cs.reverse, place c + 1 ≠ radix c := ⟨c, List.mem_reverse.mpr hc, hlast⟩
  obtain ⟨hkinds, hvalue⟩ := succReversed_next hreverse
  rw [List.reverse_reverse] at hvalue
  have hmap : (succ cs).map kind? = cs.map kind? := by
    rw [succ_of_any hany, List.map_reverse, hkinds, List.map_reverse, List.reverse_reverse]
  refine ⟨?_, hmap, ?_⟩
  · rw [← List.length_map (f := kind?), hmap, List.length_map]
  · rw [succ_of_any hany, hvalue]

theorem succ_grows (h : ∀ c ∈ cs, place c + 1 = radix c) (hany : cs.any Char.isAlphanum) :
    (succ cs).length = cs.length + 1 ∧ (succ cs).any Char.isAlphanum := by
  have hreverse : cs.reverse.any Char.isAlphanum := by rwa [List.any_reverse]
  obtain ⟨hlength, hsome⟩ := succReversed_grows (fun c hc => h c (List.mem_reverse.mp hc)) hreverse
  rw [succ_of_any hany, List.length_reverse, hlength, List.length_reverse, List.any_reverse]
  exact ⟨rfl, hsome⟩

/-- The numeral after the last one of its kinds is longer, and begins with one. -/
theorem succ_lead (hcs : ∀ d ∈ c :: cs, d.isAlphanum) (h : ∀ d ∈ c :: cs, place d + 1 = radix d) :
    succ (c :: cs) = lead c :: (c :: cs).map first := by
  have hany : (c :: cs).any Char.isAlphanum :=
    List.any_eq_true.mpr ⟨c, List.mem_cons_self, hcs c List.mem_cons_self⟩
  have hmem {p : Char → Prop} (hp : ∀ d ∈ c :: cs, p d) : ∀ d ∈ c :: cs.reverse, p d := by
    intro d hd
    exact hp d (by simpa using hd)
  rw [succ_of_any hany, List.reverse_cons, succReversed_lead (hmem hcs) (hmem h),
    List.reverse_append, List.reverse_singleton, List.singleton_append, ← List.map_reverse,
    List.reverse_append, List.reverse_reverse, List.reverse_singleton, List.singleton_append]

/-! ## Growth -/

/-- How many numerals there are of the kinds of a text. -/
def capacity (cs : List Char) : Nat := (cs.map radix).prod

theorem value_lt_capacity (cs : List Char) : value cs < capacity cs := by
  induction cs using List.reverseRecOn with
  | nil => exact Nat.one_pos
  | append_singleton cs c ih =>
    have hc := place_lt_radix c
    have hle : (value cs + 1) * radix c ≤ capacity cs * radix c := Nat.mul_le_mul_right _ ih
    have hcapacity : capacity (cs ++ [c]) = capacity cs * radix c := by simp [capacity]
    rw [value_append, hcapacity]
    rw [Nat.add_mul] at hle
    omega

theorem capacity_congr {ds : List Char} (h : ds.map kind? = cs.map kind?) :
    capacity ds = capacity cs := by
  have hradix (cs : List Char) : cs.map radix = (cs.map kind?).map (·.elim 1 Kind.radix) := by
    rw [List.map_map]
    rfl
  rw [capacity, hradix, h, ← hradix, capacity]

theorem any_isAlphanum_congr {ds : List Char} (h : ds.map kind? = cs.map kind?) :
    ds.any Char.isAlphanum = cs.any Char.isAlphanum := by
  have hany (cs : List Char) : cs.any Char.isAlphanum = (cs.map kind?).any Option.isSome := by
    rw [List.any_map]
    refine congrArg (List.any cs) (funext fun c => ?_)
    rw [Bool.eq_iff_iff, isAlphanum_iff, ← Option.isSome_iff_exists]
    rfl
  rw [hany, h, ← hany]

/-- A text with a letter or digit grows after no more steps than there are numerals. -/
theorem exists_succ_grows (hany : cs.any Char.isAlphanum) :
    ∃ n, (succ^[n] cs).length = cs.length + 1 ∧ (succ^[n] cs).any Char.isAlphanum := by
  induction hm : capacity cs - value cs generalizing cs with
  | zero =>
    have := value_lt_capacity cs
    omega
  | succ m ih =>
    by_cases hlast : ∀ c ∈ cs, place c + 1 = radix c
    · exact ⟨1, succ_grows hlast hany⟩
    · push Not at hlast
      obtain ⟨hlength, hkinds, hvalue⟩ := succ_next hlast
      have hcapacity := capacity_congr hkinds
      have hnext : (succ cs).any Char.isAlphanum := by rwa [any_isAlphanum_congr hkinds]
      obtain ⟨n, hn, hsome⟩ := ih hnext (by omega)
      exact ⟨n + 1, by rw [Function.iterate_succ_apply, hn, hlength],
        by rwa [Function.iterate_succ_apply]⟩

theorem exists_longer (hany : cs.any Char.isAlphanum) (m : Nat) :
    ∃ n, m < (succ^[n] cs).length := by
  obtain ⟨n, hn, -⟩ : ∃ n, m < (succ^[n] cs).length ∧ (succ^[n] cs).any Char.isAlphanum := by
    induction m with
    | zero =>
      refine ⟨0, List.length_pos_iff.mpr ?_, hany⟩
      rintro rfl
      cases hany
    | succ m ih =>
      obtain ⟨n, hn, hsome⟩ := ih
      obtain ⟨k, hk, hsome⟩ := exists_succ_grows hsome
      rw [← Function.iterate_add_apply] at hk hsome
      exact ⟨k + n, by omega, hsome⟩
  exact ⟨n, hn⟩

/-! ## Texts without letters and digits -/

theorem succ_of_not_any (h : (cs ++ [c]).any Char.isAlphanum = false) :
    succ (cs ++ [c]) = cs ++ [nextChar c] := by
  rw [succ, h, List.getLast?_append, List.dropLast_concat]
  rfl

/-- Whether counting up a character comes to another one: there must be no gap between them, as there
is below U+E000. -/
def Leads (c d : Char) : Prop := c ≤ d ∧ (c.toNat < 0xD800 → d.toNat < 0xD800)

/-- Whether one text comes to another one or to a longer one, when it is counted up. -/
def Ends (cs ds : List Char) : Prop := ∃ n, succ^[n] cs = ds ∨ ds.length < (succ^[n] cs).length

/-- A text that is counted up for ever: it has no letters or digits, and either nothing at all, or a
last character behind all of them that does not lead to the end. -/
def Stuck (cs ds : List Char) : Prop :=
  cs.length ≤ ds.length ∧ cs.any Char.isAlphanum = false ∧
    (cs = [] ∧ ds ≠ [] ∨
      ∃ init c, cs = init ++ [c] ∧ 'z' < c ∧ ¬∃ d, ds = init ++ [d] ∧ Leads c d)

variable {ds : List Char}

/-- The first time that a text has come to its end. -/
theorem Ends.least (h : Ends cs ds) :
    ∃ n, (∀ k < n, succ^[k] cs ≠ ds ∧ (succ^[k] cs).length ≤ ds.length) ∧
      (succ^[n] cs = ds ∨ ds.length < (succ^[n] cs).length) := by
  classical
  refine ⟨Nat.find h, fun k hk => ?_, Nat.find_spec h⟩
  have := Nat.find_min h hk
  push Not at this
  exact this

theorem Ends.of_succ (h : Ends (succ cs) ds) : Ends cs ds := by
  obtain ⟨n, hn⟩ := h
  rw [← Function.iterate_succ_apply] at hn
  exact ⟨n + 1, hn⟩

theorem Ends.of_any (hany : cs.any Char.isAlphanum) (ds : List Char) : Ends cs ds := by
  obtain ⟨n, hn⟩ := exists_longer hany ds.length
  exact ⟨n, .inr hn⟩

theorem char_lt_iff : c < d ↔ c.toNat < d.toNat := Iff.rfl

theorem char_le_iff : c ≤ d ↔ c.toNat ≤ d.toNat := Iff.rfl

theorem not_isAlphanum_of_lt (hc : 'z' < c) : c.isAlphanum = false := by
  have hz : 'z'.toNat = 122 := rfl
  rw [char_lt_iff] at hc
  rw [← Bool.not_eq_true, isAlphanum_iff]
  rintro ⟨k, hk⟩
  have hbound : k.least.toNat + k.radix ≤ 123 := by cases k <;> decide
  have := kind?_eq_some.mp hk
  omega

/-- Up to the last letter a character is counted up to a letter or digit. -/
theorem Ends.of_le (hc : c ≤ 'z') (init ds : List Char) : Ends (init ++ [c]) ds := by
  have hz : 'z'.toNat = 122 := rfl
  rw [char_le_iff, hz] at hc
  induction hm : 122 - c.toNat generalizing c with
  | zero =>
    refine .of_any (List.any_eq_true.mpr ⟨c, by simp, isAlphanum_iff.mpr ⟨.lower, ?_⟩⟩) ds
    exact kind?_eq_some.mpr (by simp only [Kind.least, Kind.radix]; have : 'a'.toNat = 97 := rfl; omega)
  | succ m ih =>
    cases hany : (init ++ [c]).any Char.isAlphanum with
    | true => exact .of_any hany ds
    | false =>
      have hnext : (nextChar c).toNat = c.toNat + 1 := toNat_nextChar (.inl (by omega))
      refine .of_succ ?_
      rw [succ_of_not_any hany]
      exact ih (by omega) (by omega)

theorem Ends.of_leads (h : Leads c d) (init : List Char) : Ends (init ++ [c]) (init ++ [d]) := by
  obtain ⟨hle, hgap⟩ := h
  rw [char_le_iff] at hle
  induction hm : d.toNat - c.toNat generalizing c with
  | zero =>
    obtain rfl : c = d := Char.toNat_inj.mp (by omega)
    exact ⟨0, .inl rfl⟩
  | succ m ih =>
    cases hany : (init ++ [c]).any Char.isAlphanum with
    | true => exact .of_any hany _
    | false =>
      have hnext : (nextChar c).toNat = c.toNat + 1 := by
        have hc : c.toNat.isValidChar := c.valid
        have hd : d.toNat.isValidChar := d.valid
        refine toNat_nextChar ?_
        rw [Nat.isValidChar] at *
        omega
      refine .of_succ ?_
      rw [succ_of_not_any hany]
      exact ih (by omega) (fun h => hgap (by omega)) (by omega)

/-- What is stuck goes on to be stuck. -/
theorem Stuck.succ (h : Stuck cs ds) : Stuck (succ cs) ds := by
  obtain ⟨hlength, hany, ⟨rfl, hds⟩ | ⟨init, c, rfl, hc, hleads⟩⟩ := h
  · exact ⟨hlength, rfl, .inl ⟨rfl, hds⟩⟩
  · have hnext : nextChar c = c ∨ (nextChar c).toNat = c.toNat + 1 ∧ (c.toNat + 1).isValidChar := by
      by_cases hvalid : (c.toNat + 1).isValidChar
      · exact .inr ⟨toNat_nextChar hvalid, hvalid⟩
      · exact .inl (if_neg hvalid)
    have hbehind : 'z' < nextChar c := by
      rw [char_lt_iff] at *
      rcases hnext with heq | ⟨heq, -⟩
      · rwa [heq]
      · omega
    rw [succ_of_not_any hany]
    refine ⟨by simpa using hlength, ?_, .inr ⟨init, nextChar c, rfl, hbehind, ?_⟩⟩
    · rw [List.any_append, Bool.or_eq_false_iff] at hany ⊢
      exact ⟨hany.1, by rw [List.any_cons, not_isAlphanum_of_lt hbehind, List.any_nil]; rfl⟩
    · rintro ⟨d, rfl, hle, hgap⟩
      rcases hnext with heq | ⟨heq, hvalid⟩
      · rw [heq] at hle hgap
        exact hleads ⟨d, rfl, hle, hgap⟩
      · rw [char_le_iff, heq] at hle
        rw [heq] at hgap
        rw [Nat.isValidChar] at hvalid
        exact hleads ⟨d, rfl, by rw [char_le_iff]; omega, fun h => hgap (by omega)⟩

theorem Stuck.ne (h : Stuck cs ds) : cs ≠ ds := by
  obtain ⟨-, -, ⟨rfl, hds⟩ | ⟨init, c, rfl, -, hleads⟩⟩ := h
  · exact hds.symm
  · rintro rfl
    exact hleads ⟨c, rfl, le_rfl, id⟩

theorem Stuck.iterate (h : Stuck cs ds) (n : Nat) : Stuck (Text.succ^[n] cs) ds := by
  induction n generalizing cs with
  | zero => exact h
  | succ n ih => exact ih h.succ

/-- Counting up ends for all texts but those that are stuck. -/
theorem ends_iff : Ends cs ds ↔ ¬Stuck cs ds := by
  constructor
  · rintro ⟨n, hn⟩ h
    rcases hn with heq | hlt
    · exact (h.iterate n).ne heq
    · exact Nat.not_lt_of_le (h.iterate n).1 hlt
  · intro h
    by_cases hlength : ds.length < cs.length
    · exact ⟨0, .inr hlength⟩
    · cases hany : cs.any Char.isAlphanum with
      | true => exact .of_any hany ds
      | false =>
        cases cs using List.reverseRecOn with
        | nil =>
          have hds : ds = [] := by
            by_contra hds
            exact h ⟨by omega, rfl, .inl ⟨rfl, hds⟩⟩
          exact ⟨0, .inl hds.symm⟩
        | append_singleton init c =>
          rcases le_or_gt c 'z' with hc | hc
          · exact .of_le hc init ds
          · have hleads : ∃ d, ds = init ++ [d] ∧ Leads c d := by
              by_contra hleads
              exact h ⟨by omega, hany, .inr ⟨init, c, rfl, hc, hleads⟩⟩
            obtain ⟨d, rfl, hd⟩ := hleads
            exact .of_leads hd init

end Garnet.Text
