import Garnet.Proofs.Texts.Successor
import Mathlib.Data.List.Iterate
import Mathlib.Data.List.Shortlex

/-!
# Lower-case texts in order

Of two texts the shorter one comes first, and of two texts of one length the one that is first in the
alphabet. In this order lower-case texts are numbered one after another, and the next text is the one
with the next number.
-/

namespace Garnet.Text

variable {c d : Char} {cs ds ws : List Char}

/-- Whether a text comes before another one, by length and then by the alphabet. -/
abbrev Before (cs ds : List Char) : Prop := List.Shortlex (· < ·) cs ds

/-- A text of nothing but lower-case letters. -/
def Lower (cs : List Char) : Prop := ∀ c ∈ cs, c.isLower

/-- How many lower-case texts come before a text: its letters are digits from 1 to 26. -/
def index (cs : List Char) : Nat := cs.foldl (fun n c => n * 26 + (place c + 1)) 0

theorem index_append : index (cs ++ [c]) = index cs * 26 + (place c + 1) := by
  rw [index, List.foldl_append]
  rfl

theorem Lower.append_iff : Lower (cs ++ ds) ↔ Lower cs ∧ Lower ds := List.forall_mem_append

theorem kind?_of_isLower (hc : c.isLower) : kind? c = some .lower := by
  rw [isLower_iff] at hc
  have ha : 'a'.toNat = 97 := rfl
  exact kind?_eq_some.mpr (by simp only [Kind.least, Kind.radix]; omega)

theorem isLower_of_kind? (hc : kind? c = some .lower) : c.isLower := by
  have ha : 'a'.toNat = 97 := rfl
  have := kind?_eq_some.mp hc
  simp only [Kind.least, Kind.radix] at this
  rw [isLower_iff]
  omega

/-! ## The next one -/

theorem index_succReversed (hne : cs ≠ []) (hcs : Lower cs) :
    Lower (succReversed cs) ∧ index (succReversed cs).reverse = index cs.reverse + 1 := by
  induction cs with
  | nil => exact absurd rfl hne
  | cons c cs ih =>
    have hc := kind?_of_isLower (hcs c List.mem_cons_self)
    have hrest : Lower cs := fun d hd => hcs d (List.mem_cons_of_mem _ hd)
    by_cases hlast : c = Kind.lower.greatest
    · -- the last letter of the alphabet carries to the left
      subst hlast
      obtain ⟨hleast, hzero⟩ := kind?_least .lower
      have hplace : place Kind.lower.greatest = 25 := rfl
      rw [succReversed_greatest, List.reverse_cons, List.reverse_cons, index_append, index_append,
        hzero, hplace]
      cases cs with
      | nil =>
        exact ⟨List.forall_mem_cons.mpr ⟨isLower_of_kind? hleast, List.forall_mem_singleton.mpr rfl⟩,
          rfl⟩
      | cons d ds =>
        have hany : (d :: ds).any Char.isAlphanum :=
          List.any_eq_true.mpr ⟨d, List.mem_cons_self,
            isAlphanum_iff.mpr ⟨_, kind?_of_isLower (hrest d List.mem_cons_self)⟩⟩
        obtain ⟨hlower, hindex⟩ := ih (List.cons_ne_nil d ds) hrest
        rw [if_pos hany, hindex]
        exact ⟨List.forall_mem_cons.mpr ⟨isLower_of_kind? hleast, hlower⟩, by omega⟩
    · obtain ⟨hnext, hplace⟩ := kind?_nextChar hc hlast
      rw [succReversed_of_ne hc hlast, List.reverse_cons, List.reverse_cons, index_append,
        index_append, hplace]
      exact ⟨List.forall_mem_cons.mpr ⟨isLower_of_kind? hnext, hrest⟩, by omega⟩

theorem index_succ (hne : cs ≠ []) (hcs : Lower cs) :
    Lower (succ cs) ∧ index (succ cs) = index cs + 1 := by
  have hany : cs.any Char.isAlphanum := by
    obtain ⟨c, hc⟩ := List.exists_mem_of_ne_nil cs hne
    exact List.any_eq_true.mpr ⟨c, hc, isAlphanum_iff.mpr ⟨_, kind?_of_isLower (hcs c hc)⟩⟩
  have hreverse : cs.reverse ≠ [] := by simpa using hne
  obtain ⟨hlower, hindex⟩ := index_succReversed hreverse fun c hc => hcs c (List.mem_reverse.mp hc)
  rw [List.reverse_reverse] at hindex
  rw [succ_of_any hany, hindex]
  exact ⟨fun c hc => hlower c (List.mem_reverse.mp hc), rfl⟩

theorem ne_nil_of_index_pos (h : 0 < index cs) : cs ≠ [] := by
  rintro rfl
  exact Nat.lt_irrefl 0 h

theorem index_pos (hne : cs ≠ []) : 0 < index cs := by
  obtain ⟨init, c, rfl⟩ := (List.eq_nil_or_concat' cs).resolve_left hne
  rw [index_append]
  omega

theorem index_iterate_succ (hne : cs ≠ []) (hcs : Lower cs) (n : Nat) :
    Lower (succ^[n] cs) ∧ index (succ^[n] cs) = index cs + n := by
  induction n generalizing cs with
  | zero => exact ⟨hcs, rfl⟩
  | succ n ih =>
    obtain ⟨hlower, hindex⟩ := index_succ hne hcs
    obtain ⟨hlower, hindex'⟩ := ih (ne_nil_of_index_pos (by omega)) hlower
    rw [Function.iterate_succ_apply]
    exact ⟨hlower, by omega⟩

/-! ## The order of the numbers -/

theorem lex_append (h : cs.length = ds.length) :
    List.Lex (· < ·) (cs ++ [c]) (ds ++ [d]) ↔ List.Lex (· < ·) cs ds ∨ cs = ds ∧ c < d := by
  induction cs generalizing ds with
  | nil =>
    obtain rfl := List.length_eq_zero_iff.mp h.symm
    simp
  | cons a cs ih =>
    cases ds with
    | nil => cases h
    | cons b ds =>
      rw [List.cons_append, List.cons_append, List.cons_lex_cons_iff, List.cons_lex_cons_iff,
        ih (Nat.succ.inj h), List.cons.injEq]
      tauto

theorem before_append :
    Before (cs ++ [c]) (ds ++ [d]) ↔ Before cs ds ∨ cs = ds ∧ c < d := by
  rw [Before, Before, List.shortlex_def, List.shortlex_def, List.length_append, List.length_append,
    List.length_singleton, List.length_singleton, Nat.add_lt_add_iff_right, Nat.add_right_cancel_iff]
  by_cases h : cs.length = ds.length
  · rw [lex_append h]
    have : ¬cs.length < ds.length := by omega
    tauto
  · have hne : cs ≠ ds := fun heq => h (congrArg _ heq)
    tauto

theorem place_lt_iff (hc : c.isLower) (hd : d.isLower) : place c < place d ↔ c < d := by
  rw [place_of_kind (kind?_of_isLower hc), place_of_kind (kind?_of_isLower hd), char_lt_iff]
  rw [isLower_iff] at hc hd
  have ha : Kind.lower.least.toNat = 97 := rfl
  omega

theorem place_lt (hc : c.isLower) : place c < 26 := by
  have hlt := place_lt_radix c
  rwa [radix_of_kind (kind?_of_isLower hc)] at hlt

theorem place_inj (hc : c.isLower) (hd : d.isLower) : place c = place d ↔ c = d := by
  have hlt := place_lt_iff hc hd
  have hgt := place_lt_iff hd hc
  rw [char_lt_iff] at hlt hgt
  rw [← Char.toNat_inj]
  omega

theorem index_inj (hcs : Lower cs) (hds : Lower ds) : index cs = index ds ↔ cs = ds := by
  refine ⟨fun h => ?_, congrArg index⟩
  induction cs using List.reverseRecOn generalizing ds with
  | nil =>
    by_contra hne
    have := index_pos (Ne.symm hne)
    exact Nat.ne_of_lt this h
  | append_singleton cs c ih =>
    obtain ⟨ds, d, rfl⟩ := (List.eq_nil_or_concat' ds).resolve_left fun hnil => by
      rw [hnil, index_append] at h
      cases h
    obtain ⟨hcs, hc⟩ := Lower.append_iff.mp hcs
    obtain ⟨hds, hd⟩ := Lower.append_iff.mp hds
    have hc := hc c List.mem_cons_self
    have hd := hd d List.mem_cons_self
    have hplace := place_lt hc
    have hplace' := place_lt hd
    rw [index_append, index_append] at h
    rw [ih hcs hds (by omega), (place_inj hc hd).mp (by omega)]

/-- The numbers are in the order of the texts. -/
theorem index_lt_iff (hcs : Lower cs) (hds : Lower ds) : index cs < index ds ↔ Before cs ds := by
  induction cs using List.reverseRecOn generalizing ds with
  | nil =>
    rcases List.eq_nil_or_concat' ds with rfl | ⟨ds, d, rfl⟩
    · simp [index]
    · exact iff_of_true (index_pos (by simp)) (.of_length_lt (by simp))
  | append_singleton cs c ih =>
    rcases List.eq_nil_or_concat' ds with rfl | ⟨ds, d, rfl⟩
    · simp [index]
    · obtain ⟨hcs, hc⟩ := Lower.append_iff.mp hcs
      obtain ⟨hds, hd⟩ := Lower.append_iff.mp hds
      have hc := hc c List.mem_cons_self
      have hd := hd d List.mem_cons_self
      have hplace := place_lt hc
      have hplace' := place_lt hd
      rw [before_append, ← ih hcs hds, ← index_inj hcs hds, ← place_lt_iff hc hd, index_append,
        index_append]
      omega

/-! ## All texts from one to another -/

/-- The texts from one lower-case text to another, each the next one of the one before. -/
def between (cs ds : List Char) : List (List Char) :=
  List.iterate succ cs (index ds + 1 - index cs)

theorem between_nil : between [] [] = [[]] := rfl

/-- The empty text is the only one that is not before any other. -/
theorem mem_between (hempty : cs = [] → ds = []) (hcs : Lower cs) (hds : Lower ds) :
    ws ∈ between cs ds ↔ Lower ws ∧ ¬Before ws cs ∧ ¬Before ds ws := by
  by_cases hne : cs = []
  · obtain rfl := hempty hne
    subst hne
    rw [between_nil, List.mem_singleton]
    constructor
    · rintro rfl
      exact ⟨nofun, List.not_shortlex_nil_right, List.not_shortlex_nil_right⟩
    · rintro ⟨-, -, hws⟩
      exact (List.shortlex_nil_or_eq_nil ws).resolve_left hws
  rw [between, List.mem_iterate]
  constructor
  · rintro ⟨n, hn, rfl⟩
    obtain ⟨hlower, hindex⟩ := index_iterate_succ hne hcs n
    rw [← index_lt_iff hlower hcs, ← index_lt_iff hds hlower]
    exact ⟨hlower, by omega, by omega⟩
  · rintro ⟨hws, hge, hle⟩
    rw [← index_lt_iff hws hcs] at hge
    rw [← index_lt_iff hds hws] at hle
    obtain ⟨hlower, hindex⟩ := index_iterate_succ hne hcs (index ws - index cs)
    exact ⟨index ws - index cs, by omega, (index_inj hws hlower).mp (by omega)⟩

theorem between_sorted (hempty : cs = [] → ds = []) (hcs : Lower cs) :
    (between cs ds).Pairwise Before := by
  by_cases hne : cs = []
  · obtain rfl := hempty hne
    subst hne
    exact List.pairwise_singleton ..
  rw [between, List.pairwise_iff_getElem]
  intro i j hi hj hij
  obtain ⟨hlower, hindex⟩ := index_iterate_succ hne hcs i
  obtain ⟨hlower', hindex'⟩ := index_iterate_succ hne hcs j
  rw [List.getElem_iterate, List.getElem_iterate, ← index_lt_iff hlower hlower']
  omega

/-- Counting up from a text comes to a later one, and to no longer one before. -/
theorem exists_steps (hempty : cs = [] → ds = []) (hcs : Lower cs) (hds : Lower ds)
    (hle : ¬Before ds cs) :
    ∃ n, (∀ k < n, succ^[k] cs ≠ ds ∧ (succ^[k] cs).length ≤ ds.length) ∧ succ^[n] cs = ds ∧
      between cs ds = List.iterate succ cs n ++ [ds] := by
  by_cases hne : cs = []
  · obtain rfl := hempty hne
    subst hne
    exact ⟨0, nofun, rfl, rfl⟩
  rw [← index_lt_iff hds hcs] at hle
  have hend : succ^[index ds - index cs] cs = ds := by
    obtain ⟨hlower, hindex⟩ := index_iterate_succ hne hcs (index ds - index cs)
    exact (index_inj hlower hds).mp (by omega)
  refine ⟨index ds - index cs, fun k hk => ?_, hend, ?_⟩
  · obtain ⟨hlower, hindex⟩ := index_iterate_succ hne hcs k
    have hbefore : Before (succ^[k] cs) ds := (index_lt_iff hlower hds).mp (by omega)
    refine ⟨fun heq => ?_, ?_⟩
    · rw [heq] at hindex
      omega
    · rw [Before, List.shortlex_def] at hbefore
      omega
  · rw [between, show index ds + 1 - index cs = index ds - index cs + 1 by omega, List.iterate_add,
      hend]
    rfl

end Garnet.Text
