import Garnet.Eval.Matching
import Garnet.Text.Pieces
import Mathlib.Data.List.Infix

/-!
# Texts found in a text

A text that stands for itself is found at the first position where it occurs, be it by the matcher
of patterns or by looking for it directly.
-/

namespace Garnet

/-! ## Occurrences -/

namespace Text

variable {sub cs : List Char} {c : Char} {start i j k : Nat}

/-- A text occurs in another one at a position: the part from there on that is as long as the text
is the text. -/
def OccursAt (sub cs : List Char) (i : Nat) : Prop :=
  i ≤ cs.length ∧ (cs.drop i).take sub.length = sub

/-- The first position from `start` on at which a text occurs. -/
structure FirstFrom (sub cs : List Char) (start i : Nat) : Prop where
  start_le : start ≤ i
  occurs : OccursAt sub cs i
  least : ∀ j < i, start ≤ j → ¬OccursAt sub cs j

theorem occursAt_iff : OccursAt sub cs i ↔ i ≤ cs.length ∧ sub <+: cs.drop i := by
  rw [OccursAt, List.prefix_iff_eq_take, eq_comm (a := sub)]

theorem occursAt_zero : OccursAt sub cs 0 ↔ sub <+: cs := by
  rw [occursAt_iff]
  exact and_iff_right (Nat.zero_le _)

theorem occursAt_succ : OccursAt sub (c :: cs) (i + 1) ↔ OccursAt sub cs i := by
  rw [OccursAt, OccursAt, List.length_cons, Nat.add_le_add_iff_right, List.drop_succ_cons]

theorem occursAt_drop (hk : k ≤ cs.length) :
    OccursAt sub (cs.drop k) i ↔ OccursAt sub cs (k + i) := by
  rw [OccursAt, OccursAt, List.length_drop, List.drop_drop]
  exact and_congr_left fun _ => by omega

theorem OccursAt.add_length_le (h : OccursAt sub cs i) : i + sub.length ≤ cs.length := by
  have hlength := (occursAt_iff.mp h).2.length_le
  rw [List.length_drop] at hlength
  have hi := h.1
  omega

theorem firstFrom_zero (h : sub <+: cs) : FirstFrom sub cs 0 0 :=
  ⟨Nat.le_refl 0, occursAt_zero.mpr h, fun _ hj => absurd hj (Nat.not_lt_zero _)⟩

theorem FirstFrom.succ (h : FirstFrom sub cs 0 i) (hc : ¬sub <+: c :: cs) :
    FirstFrom sub (c :: cs) 0 (i + 1) := by
  refine ⟨Nat.zero_le _, occursAt_succ.mpr h.occurs, fun j hj _ => ?_⟩
  cases j with
  | zero => exact fun hoccurs => hc (occursAt_zero.mp hoccurs)
  | succ j =>
    exact fun hoccurs => h.least j (by omega) (Nat.zero_le _) (occursAt_succ.mp hoccurs)

/-- Looking for a text gives its first occurrence. -/
theorem firstFrom_of_find? (h : find? sub cs = some i) : FirstFrom sub cs 0 i := by
  induction cs generalizing i with
  | nil =>
    rw [find?] at h
    split at h
    · rename_i hempty
      cases h
      rw [List.isEmpty_iff.mp hempty]
      exact firstFrom_zero List.prefix_rfl
    · cases h
  | cons c cs ih =>
    rw [find?] at h
    split at h
    · cases h
      exact firstFrom_zero (List.isPrefixOf_iff_prefix.mp ‹_›)
    · obtain ⟨k, hk, rfl⟩ := Option.map_eq_some_iff.mp h
      exact (ih hk).succ fun hprefix => ‹¬_› (List.isPrefixOf_iff_prefix.mpr hprefix)

theorem not_occursAt_of_find? (h : find? sub cs = none) (i : Nat) : ¬OccursAt sub cs i := by
  induction cs generalizing i with
  | nil =>
    rw [find?] at h
    split at h
    · cases h
    · rename_i hne
      intro hoccurs
      obtain ⟨-, hprefix⟩ := occursAt_iff.mp hoccurs
      rw [List.drop_nil, List.prefix_nil] at hprefix
      exact hne (List.isEmpty_iff.mpr hprefix)
  | cons c cs ih =>
    rw [find?] at h
    split at h
    · cases h
    · rename_i hne
      rw [Option.map_eq_none_iff] at h
      cases i with
      | zero =>
        exact fun hoccurs => hne (List.isPrefixOf_iff_prefix.mpr (occursAt_zero.mp hoccurs))
      | succ i => exact fun hoccurs => ih h i (occursAt_succ.mp hoccurs)

theorem FirstFrom.unique (h : FirstFrom sub cs start i) (h' : FirstFrom sub cs start j) :
    i = j := by
  rcases Nat.lt_trichotomy i j with hlt | heq | hgt
  · exact absurd h.occurs (h'.least i hlt h.start_le)
  · exact heq
  · exact absurd h'.occurs (h.least j hgt h'.start_le)

theorem find?_eq_some : find? sub cs = some i ↔ FirstFrom sub cs 0 i := by
  refine ⟨firstFrom_of_find?, fun h => ?_⟩
  cases hfind : find? sub cs with
  | none => exact absurd h.occurs (not_occursAt_of_find? hfind i)
  | some j => rw [(firstFrom_of_find? hfind).unique h]

theorem find?_eq_none : find? sub cs = none ↔ ∀ i, ¬OccursAt sub cs i := by
  refine ⟨not_occursAt_of_find?, fun h => ?_⟩
  cases hfind : find? sub cs with
  | none => rfl
  | some i => exact absurd (firstFrom_of_find? hfind).occurs (h i)

/-- What is found behind a position is the first occurrence from there on. -/
theorem FirstFrom.of_drop (h : FirstFrom sub (cs.drop start) 0 i) (hstart : start ≤ cs.length) :
    FirstFrom sub cs start (start + i) := by
  refine ⟨Nat.le_add_right _ _, (occursAt_drop hstart).mp h.occurs, fun j hj hle => ?_⟩
  obtain ⟨k, rfl⟩ := Nat.exists_eq_add_of_le hle
  exact fun hoccurs => h.least k (by omega) (Nat.zero_le _) ((occursAt_drop hstart).mpr hoccurs)

end Text

/-! ## The instructions for a text -/

namespace Regex

variable {m : Compiled} {text : Array Char} {tried : Array Bool} {cs rest : List Char}
  {pc pos pc' pos' p n fuel : Nat} {slots : Slots}

theorem contains_single {c d : Char} : (Chars.single c).contains d = true ↔ d = c := by
  rw [Chars.single, Chars.contains, Bool.and_eq_true, decide_eq_true_eq, decide_eq_true_eq]
  exact ⟨fun h => Char.le_antisymm h.2 h.1, fun h => h ▸ ⟨Char.le_refl _, Char.le_refl _⟩⟩

/-- The instructions that take a text, the one for its last character first; that one goes on at
`next`. -/
def takes : List Char → Nat → List Instr
  | [], _ => []
  | c :: cs, next => takes cs next ++ [.take (.single c) (next + cs.length)]

theorem length_takes (cs : List Char) (next : Nat) : (takes cs next).length = cs.length := by
  induction cs with
  | nil => rfl
  | cons c cs ih => rw [takes, List.length_append, ih]; rfl

theorem takes_prefix (done rest : List Char) (next : Nat) :
    takes rest next <+: takes (done ++ rest) next := by
  induction done with
  | nil => exact List.prefix_rfl
  | cons c done ih => exact ih.trans (List.prefix_append _ _)

/-- A text is laid out from its end, each character right behind the one that it goes on with. -/
theorem layout_catAll (cs : List Char) {next : Nat} {is : Array Instr} (h : next + 1 = is.size) :
    layout (catAll (cs.map fun c => .chars (.single c))) next is =
      (next + cs.length, is ++ (takes cs next).toArray) := by
  induction cs with
  | nil => exact Prod.ext rfl (Array.append_empty).symm
  | cons c cs ih =>
    cases cs with
    | nil => exact Prod.ext h.symm Array.push_eq_append
    | cons d cs =>
      have hrun : layout (catAll ((c :: d :: cs).map fun c => .chars (.single c))) next is =
          (fun p : Nat × Array Instr => (p.2.size, p.2.push (.take (.single c) p.1)))
            (layout (catAll ((d :: cs).map fun c => .chars (.single c))) next is) := rfl
      rw [hrun, ih]
      refine Prod.ext ?_ ?_ <;> dsimp only
      · simp only [Array.size_append, List.size_toArray, length_takes, List.length_cons]
        omega
      · have htakes : takes (c :: d :: cs) next =
            takes (d :: cs) next ++ [.take (.single c) (next + (d :: cs).length)] := rfl
        rw [Array.push_eq_append, Array.append_assoc, htakes, ← List.append_toArray]

/-- The instructions of a pattern match a text and nothing else, and enter, take the characters from
the first one on and close in the order of falling positions. -/
structure TakesOnly (m : Compiled) (cs : List Char) : Prop where
  enter : m.instrs[cs.length + 2]? = some (.save 0 (cs.length + 1))
  take {done rest : List Char} {c : Char} : cs = done ++ c :: rest →
    m.instrs[rest.length + 2]? = some (.take (.single c) (rest.length + 1))
  close : m.instrs[1]? = some (.save 1 0)
  accept : m.instrs[0]? = some .accept
  start : m.start = cs.length + 2
  size : m.instrs.size = cs.length + 3
  groups : m.groups = 1

theorem literal_takesOnly (t : String) : TakesOnly (Compiled.literal t) t.toList := by
  have hrun : Compiled.literal t =
      (fun p : Nat × Array Instr => (⟨p.2.push (.save 0 p.1), p.2.size, 1⟩ : Compiled))
        (layout (catAll (t.toList.map fun c => .chars (.single c))) 1 #[.accept, .save 1 0]) := rfl
  rw [layout_catAll _ rfl] at hrun
  generalize t.toList = cs at hrun ⊢
  have hinstrs : (Compiled.literal t).instrs =
      (.accept :: .save 1 0 :: (takes cs 1 ++ [.save 0 (1 + cs.length)])).toArray := by
    rw [hrun]
    dsimp only
    rw [Array.push_eq_append]
    simp only [List.append_toArray, List.cons_append, List.nil_append]
  have hlength := length_takes cs 1
  refine ⟨?_, fun {done rest c} hcs => ?_, ?_, ?_, ?_, ?_, ?_⟩
  · rw [hinstrs, List.getElem?_toArray, List.getElem?_cons_succ, List.getElem?_cons_succ, ← hlength,
      List.getElem?_concat_length, hlength, Nat.add_comm]
  · obtain ⟨more, hmore⟩ := takes_prefix done (c :: rest) 1
    rw [← hcs, takes] at hmore
    rw [hinstrs, List.getElem?_toArray, List.getElem?_cons_succ, List.getElem?_cons_succ, ← hmore,
      List.append_assoc, List.append_assoc, List.getElem?_append_right, length_takes, Nat.sub_self,
      Nat.add_comm]
    · rfl
    · rw [length_takes]
  · rw [hinstrs]
    rfl
  · rw [hinstrs]
    rfl
  · rw [hrun]
    simp only [Array.size_append, List.size_toArray, hlength, List.length_cons, List.length_nil]
    omega
  · rw [hinstrs, List.size_toArray]
    simp only [List.length_cons, List.length_append, hlength, List.length_nil]
  · rw [hrun]

/-! ## Following the instructions -/

/-- A pair of instruction and position has not been tried. -/
def Untried (text : Array Char) (tried : Array Bool) (pc pos : Nat) : Prop :=
  tried.getD (pc * (text.size + 1) + pos) true = false

/-- The pairs that have been tried, and one more. -/
def trying (text : Array Char) (tried : Array Bool) (pc pos : Nat) : Array Bool :=
  tried.setIfInBounds (pc * (text.size + 1) + pos) true

theorem Untried.trying (h : Untried text tried pc' pos') (hpos : pos ≤ text.size)
    (hpos' : pos' ≤ text.size) (hne : pc' = pc → pos' ≠ pos) :
    Untried text (trying text tried pc pos) pc' pos' := by
  have hkey : pc * (text.size + 1) + pos ≠ pc' * (text.size + 1) + pos' := by
    intro heq
    rcases Nat.lt_trichotomy pc pc' with hlt | rfl | hgt
    · have := Nat.mul_le_mul_right (text.size + 1) hlt
      rw [Nat.succ_mul] at this
      omega
    · exact hne rfl (by omega)
    · have := Nat.mul_le_mul_right (text.size + 1) hgt
      rw [Nat.succ_mul] at this
      omega
  rw [Untried, Array.getD_eq_getD_getElem?] at h ⊢
  rwa [Regex.trying, Array.getElem?_setIfInBounds_ne hkey]

theorem explore_nil (fuel : Nat) : explore m text fuel ⟨[], tried⟩ = (none, tried) := by
  cases fuel <;> rfl

section Steps

variable (h : Untried text tried pc pos)

include h

theorem explore_accept (hi : m.instrs[pc]? = some .accept) :
    explore m text (fuel + 1) ⟨[⟨pc, pos, slots⟩], tried⟩ =
      (some slots, trying text tried pc pos) := by
  refine (if_neg (Bool.eq_false_iff.mp h)).trans ?_
  rw [hi]
  rfl

theorem explore_save {slot next : Nat} (hi : m.instrs[pc]? = some (.save slot next)) :
    explore m text (fuel + 1) ⟨[⟨pc, pos, slots⟩], tried⟩ =
      explore m text fuel
        ⟨[⟨next, pos, slots.setIfInBounds slot (some pos)⟩], trying text tried pc pos⟩ := by
  refine (if_neg (Bool.eq_false_iff.mp h)).trans ?_
  rw [hi]
  rfl

theorem explore_take {c : Char} {next : Nat} (hi : m.instrs[pc]? = some (.take (.single c) next))
    (hc : text[pos]? = some c) :
    explore m text (fuel + 1) ⟨[⟨pc, pos, slots⟩], tried⟩ =
      explore m text fuel ⟨[⟨next, pos + 1, slots⟩], trying text tried pc pos⟩ := by
  refine (if_neg (Bool.eq_false_iff.mp h)).trans ?_
  rw [hi]
  dsimp only
  rw [hc]
  exact if_pos (contains_single.mpr rfl)

theorem explore_take_fails {c : Char} {next : Nat}
    (hi : m.instrs[pc]? = some (.take (.single c) next)) (hc : text[pos]? ≠ some c) :
    explore m text (fuel + 1) ⟨[⟨pc, pos, slots⟩], tried⟩ = (none, trying text tried pc pos) := by
  refine (if_neg (Bool.eq_false_iff.mp h)).trans ?_
  rw [hi]
  dsimp only
  cases hd : text[pos]? with
  | none => exact explore_nil fuel
  | some d =>
    have hne : ¬(Chars.single c).contains d = true := fun hd' =>
      hc (hd.trans (congrArg some (contains_single.mp hd')))
    exact (if_neg hne).trans (explore_nil fuel)

end Steps

theorem cons_prefix_drop {c : Char} :
    c :: rest <+: text.toList.drop pos ↔
      text[pos]? = some c ∧ rest <+: text.toList.drop (pos + 1) := by
  rcases Nat.lt_or_ge pos text.size with hlt | hge
  · rw [List.drop_eq_getElem_cons (by simpa using hlt), List.cons_prefix_cons,
      Array.getElem?_eq_getElem hlt, Option.some.injEq, Array.getElem_toList, eq_comm]
  · rw [List.drop_eq_nil_of_le (by simpa using hge), Array.getElem?_eq_none hge]
    simp

/-- The pairs through which the rest of a text is taken from a position on. -/
def OnPath (rest : List Char) (pos pc' pos' : Nat) : Prop :=
  0 < pc' ∧ pc' ≤ rest.length + 1 ∧ pc' + pos' = rest.length + 1 + pos

theorem OnPath.cons {c : Char} (h : OnPath rest (pos + 1) pc' pos') :
    OnPath (c :: rest) pos pc' pos' := by
  obtain ⟨hpositive, hpc, hsum⟩ := h
  rw [OnPath, List.length_cons]
  omega

/-- Nothing stands in the way of taking the rest of a text and accepting. -/
def Free (text : Array Char) (tried : Array Bool) (rest : List Char) (pos : Nat) : Prop :=
  ∀ pc' pos', pos' ≤ text.size → pc' = 0 ∨ OnPath rest pos pc' pos' → Untried text tried pc' pos'

theorem Free.tail {c : Char} (h : Free text tried (c :: rest) pos) (hpos : pos ≤ text.size) :
    Free text (trying text tried (rest.length + 2) pos) rest (pos + 1) := by
  intro pc' pos' hpos' hon
  refine (h pc' pos' hpos' (hon.imp_right .cons)).trying hpos hpos' ?_
  rintro rfl
  rcases hon with hzero | hon
  · cases hzero
  · have := hon.2.1
    omega

section Rest

variable {done : List Char} (hm : TakesOnly m cs) (hcs : cs = done ++ rest) (hpos : pos ≤ text.size)
  (hfree : Free text tried rest pos)

include hm hcs hpos hfree

/-- Where the rest of the text comes next, it is taken to its end. -/
theorem explore_rest (h : rest <+: text.toList.drop pos) (slots : Slots) (fuel : Nat) :
    ∃ tried', explore m text (rest.length + 2 + fuel) ⟨[⟨rest.length + 1, pos, slots⟩], tried⟩ =
      (some (slots.setIfInBounds 1 (some (pos + rest.length))), tried') := by
  induction rest generalizing done pos tried with
  | nil =>
    have hfirst := hfree 1 pos hpos (.inr ⟨Nat.succ_pos _, Nat.le_refl _, rfl⟩)
    have hlast : Untried text (trying text tried 1 pos) 0 pos :=
      (hfree 0 pos hpos (.inl rfl)).trying hpos hpos nofun
    rw [List.length_nil, Nat.zero_add, Nat.add_comm 2 fuel]
    rw [explore_save hfirst hm.close, explore_accept hlast hm.accept]
    exact ⟨_, rfl⟩
  | cons c rest ih =>
    obtain ⟨hc, hrest⟩ := cons_prefix_drop.mp h
    have hlt : pos < text.size := (Array.getElem?_eq_some_iff.mp hc).1
    have hhere := hfree (rest.length + 2) pos hpos (.inr ⟨Nat.succ_pos _, Nat.le_refl _, rfl⟩)
    have hfuel : (c :: rest).length + 2 + fuel = rest.length + 2 + fuel + 1 := by
      rw [List.length_cons]
      omega
    rw [hfuel, List.length_cons, explore_take hhere (hm.take hcs) hc]
    have hcs' : cs = done ++ [c] ++ rest := hcs.trans (List.append_cons done c rest)
    obtain ⟨tried', htried⟩ := ih hcs' hlt (hfree.tail hpos) hrest
    refine ⟨tried', htried.trans ?_⟩
    rw [Nat.succ_add_eq_add_succ]

/-- Where it does not come next, nothing else is tried. -/
theorem explore_rest_fails (h : ¬rest <+: text.toList.drop pos) (slots : Slots) (fuel : Nat) :
    ∃ tried', explore m text (rest.length + 2 + fuel) ⟨[⟨rest.length + 1, pos, slots⟩], tried⟩ =
        (none, tried') ∧
      ∀ pc' pos', pos' ≤ text.size → ¬OnPath rest pos pc' pos' → Untried text tried pc' pos' →
        Untried text tried' pc' pos' := by
  induction rest generalizing done pos tried with
  | nil => exact absurd List.nil_prefix h
  | cons c rest ih =>
    have hhere := hfree (rest.length + 2) pos hpos (.inr ⟨Nat.succ_pos _, Nat.le_refl _, rfl⟩)
    have hfuel : (c :: rest).length + 2 + fuel = rest.length + 2 + fuel + 1 := by
      rw [List.length_cons]
      omega
    have hkept {pc' pos' : Nat} (hpos' : pos' ≤ text.size) (hoff : ¬OnPath (c :: rest) pos pc' pos')
        (huntried : Untried text tried pc' pos') :
        Untried text (trying text tried (rest.length + 2) pos) pc' pos' := by
      refine huntried.trying hpos hpos' ?_
      rintro rfl rfl
      exact hoff ⟨Nat.succ_pos _, Nat.le_refl _, rfl⟩
    rw [hfuel, List.length_cons]
    by_cases hc : text[pos]? = some c
    · have hrest : ¬rest <+: text.toList.drop (pos + 1) := fun hrest =>
        h (cons_prefix_drop.mpr ⟨hc, hrest⟩)
      have hlt : pos < text.size := (Array.getElem?_eq_some_iff.mp hc).1
      have hcs' : cs = done ++ [c] ++ rest := hcs.trans (List.append_cons done c rest)
      rw [explore_take hhere (hm.take hcs) hc]
      obtain ⟨tried', htried, hkept'⟩ := ih hcs' hlt (hfree.tail hpos) hrest
      refine ⟨tried', htried, fun pc' pos' hpos' hoff huntried => ?_⟩
      exact hkept' pc' pos' hpos' (fun hon => hoff hon.cons) (hkept hpos' hoff huntried)
    · rw [explore_take_fails hhere (hm.take hcs) hc]
      exact ⟨_, rfl, fun pc' pos' => hkept⟩

end Rest

/-- Nothing that an attempt from `p` on may come to has been tried. -/
def Ready (text : Array Char) (tried : Array Bool) (cs : List Char) (p : Nat) : Prop :=
  ∀ pc pos, pos ≤ text.size →
    pc = 0 ∨ pc ≤ cs.length + 1 ∧ cs.length + 1 + p ≤ pc + pos ∨ pc = cs.length + 2 ∧ p ≤ pos →
      Untried text tried pc pos

theorem Ready.free (h : Ready text tried cs p) (hp : p ≤ text.size) :
    Free text (trying text tried (cs.length + 2) p) cs p := by
  intro pc pos hpos hon
  refine (h pc pos hpos ?_).trying hp hpos ?_
  · exact hon.imp_right fun hon => .inl ⟨hon.2.1, Nat.le_of_eq hon.2.2.symm⟩
  · rintro rfl
    rcases hon with hzero | hon
    · cases hzero
    · have := hon.2.1
      omega

section Attempts

variable (hm : TakesOnly m cs)

include hm

theorem explore_start (hp : p ≤ text.size) (hready : Ready text tried cs p) (fuel : Nat) :
    explore m text (fuel + 1) ⟨[⟨m.start, p, Array.replicate (2 * m.groups) none⟩], tried⟩ =
      explore m text fuel
        ⟨[⟨cs.length + 1, p, #[some p, none]⟩], trying text tried (cs.length + 2) p⟩ := by
  have hhere := hready (cs.length + 2) p hp (.inr (.inr ⟨rfl, Nat.le_refl _⟩))
  rw [hm.start, hm.groups, explore_save hhere hm.enter]
  rfl

/-- After an attempt that fails the next one has its way free. -/
theorem explore_start_fails (hp : p ≤ text.size) (hready : Ready text tried cs p)
    (h : ¬cs <+: text.toList.drop p) (fuel : Nat) :
    ∃ tried', explore m text (cs.length + 2 + fuel + 1)
        ⟨[⟨m.start, p, Array.replicate (2 * m.groups) none⟩], tried⟩ = (none, tried') ∧
      Ready text tried' cs (p + 1) := by
  rw [explore_start hm hp hready]
  obtain ⟨tried', htried, hkept⟩ := explore_rest_fails hm cs.nil_append.symm hp (hready.free hp) h
    #[some p, none] fuel
  refine ⟨tried', htried, fun pc pos hpos hahead => hkept pc pos hpos ?_ ?_⟩
  · rintro ⟨hpositive, hpc, hsum⟩
    omega
  · refine (hready pc pos hpos (by omega)).trying hp hpos ?_
    rintro rfl
    omega

theorem exists_fuel (text : Array Char) :
    ∃ fuel, 3 * m.instrs.size * (text.size + 1) + 3 = cs.length + 2 + fuel + 1 := by
  have hle : m.instrs.size ≤ 3 * m.instrs.size * (text.size + 1) :=
    Nat.le_trans (Nat.le_mul_of_pos_left _ (by decide)) (Nat.le_mul_of_pos_right _ (Nat.succ_pos _))
  generalize 3 * m.instrs.size * (text.size + 1) = steps at hle
  rw [hm.size] at hle
  exact ⟨steps - cs.length, by omega⟩

theorem scan_found (hp : p ≤ text.size) (hready : Ready text tried cs p)
    (h : cs <+: text.toList.drop p) (n : Nat) :
    scan m text (n + 1) p tried = some #[some p, some (p + cs.length)] := by
  obtain ⟨fuel, hfuel⟩ := exists_fuel hm text
  obtain ⟨tried', htried⟩ := explore_rest hm cs.nil_append.symm hp (hready.free hp) h
    #[some p, none] fuel
  rw [scan, hfuel, explore_start hm hp hready, htried]
  rfl

theorem scan_next (hp : p ≤ text.size) (hready : Ready text tried cs p)
    (h : ¬cs <+: text.toList.drop p) (n : Nat) :
    ∃ tried', Ready text tried' cs (p + 1) ∧
      scan m text (n + 1) p tried = scan m text n (p + 1) tried' := by
  obtain ⟨fuel, hfuel⟩ := exists_fuel hm text
  obtain ⟨tried', htried, hready'⟩ := explore_start_fails hm hp hready h fuel
  refine ⟨tried', hready', ?_⟩
  rw [scan, hfuel, htried]

/-- Position after position is tried up to the first occurrence. -/
theorem scan_eq {l : List Char} (hl : text.toList.drop p = l) (hp : p ≤ text.size)
    (hready : Ready text tried cs p) :
    scan m text (l.length + 1) p tried =
      (Text.find? cs l).map fun i => #[some (p + i), some (p + i + cs.length)] := by
  induction l generalizing p tried with
  | nil =>
    rw [Text.find?]
    by_cases h : cs <+: text.toList.drop p
    · have hempty : cs.isEmpty := List.isEmpty_iff.mpr (List.prefix_nil.mp (hl ▸ h))
      rw [scan_found hm hp hready h, if_pos hempty]
      rfl
    · have hne : ¬cs.isEmpty := fun hempty => h (List.isEmpty_iff.mp hempty ▸ List.nil_prefix)
      obtain ⟨tried', -, hscan⟩ := scan_next hm hp hready h 0
      rw [List.length_nil, hscan, if_neg hne]
      rfl
  | cons c l ih =>
    rw [Text.find?]
    by_cases h : cs <+: text.toList.drop p
    · rw [scan_found hm hp hready h, if_pos (List.isPrefixOf_iff_prefix.mpr (hl ▸ h))]
      rfl
    · have hlt : p < text.size := by
        have hlength := congrArg List.length hl
        rw [List.length_drop, List.length_cons, Array.length_toList] at hlength
        omega
      have hl' : text.toList.drop (p + 1) = l := by
        rw [← List.drop_drop, hl]
        rfl
      obtain ⟨tried', hready', hscan⟩ := scan_next hm hp hready h (l.length + 1)
      rw [List.length_cons, hscan, ih hl' hlt hready',
        if_neg fun hprefix => h (hl ▸ List.isPrefixOf_iff_prefix.mp hprefix), Option.map_map]
      refine congrArg (Option.map · _) (funext fun i => ?_)
      rw [Function.comp_apply, Nat.add_assoc p 1 i, Nat.add_comm 1 i]

/-- The match of a text at a position. -/
def matchAt (cs : List Char) (i : Nat) : Match :=
  ⟨⟨i, i + cs.length⟩, [some ⟨i, i + cs.length⟩]⟩

/-- A pattern finds a text: from any position on, it matches where the text occurs first. What is
said about splitting, searching and replacing rests on this about patterns, and on nothing else. -/
def Finds (m : Compiled) (cs : List Char) : Prop :=
  ∀ (text : Array Char) (start : Nat), start ≤ text.size →
    m.findFrom text start =
      (Text.find? cs (text.toList.drop start)).map fun i => matchAt cs (start + i)

theorem TakesOnly.finds : Finds m cs := by
  intro text start hstart
  have hready : Ready text (Array.replicate (m.instrs.size * (text.size + 1)) false) cs start := by
    intro pc pos hpos hpc
    have hlt : pc * (text.size + 1) + pos < m.instrs.size * (text.size + 1) := by
      have hle : (pc + 1) * (text.size + 1) ≤ m.instrs.size * (text.size + 1) :=
        Nat.mul_le_mul_right _ (by rw [hm.size]; omega)
      rw [Nat.succ_mul] at hle
      omega
    rw [Untried, Array.getD_eq_getD_getElem?, Array.getElem?_replicate, if_pos hlt,
      Option.getD_some]
  have hlength : text.size + 1 - start = (text.toList.drop start).length + 1 := by
    rw [List.length_drop, Array.length_toList]
    omega
  rw [Compiled.findFrom, if_pos hstart, hlength]
  dsimp only
  rw [scan_eq hm rfl hstart hready]
  cases Text.find? cs (text.toList.drop start) with
  | none => rfl
  | some i =>
    simp only [Option.map_some, Option.bind_some, matchOf, hm.groups]
    rfl

end Attempts

/-- The pattern that stands for a text finds it. -/
theorem literal_finds (t : String) : Finds (Compiled.literal t) t.toList :=
  (literal_takesOnly t).finds

end Regex

end Garnet
