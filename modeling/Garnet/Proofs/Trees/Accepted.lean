import Garnet.Proofs.Trees.Grammar
import Garnet.Proofs.Trees.RoundTrip

/-!
# The reader accepts its grammar

A text is read as a tree exactly when the grammar gives it that tree, where a word behind a colon
does not begin with a quote. Without that condition a colon and a quote could begin a name as well
as a quoted text, and the reader only ever takes it for the latter.
-/

namespace Garnet.Grammar

open Reader

variable {w s b rest ds : List Char} {c d : Char} {t : Tree} {x : Child} {cs : List Child}
  {r after : Cursor}

/-! ## Words and blanks -/

theorem blanks_takeWhile (w : List Char) : Blanks (w.takeWhile isBlank) := fun _ hc =>
  isBlank_iff.mp (List.mem_takeWhile_imp hc)

/-- Skipping blanks leaves what stands behind them. -/
theorem exists_skipBlanks (r : Cursor) : ∃ b, Blanks b ∧ r.rest = b ++ r.skipBlanks.rest :=
  ⟨_, blanks_takeWhile _, (List.takeWhile_append_dropWhile).symm⟩

theorem skipBlanks_append (hb : Blanks b) (hd : d ∉ blanks) (ds : List Char) (offset : Nat) :
    ∃ o, (Cursor.mk (b ++ d :: ds) offset).skipBlanks = ⟨d :: ds, o⟩ := by
  have hdrop : (b ++ d :: ds).dropWhile isBlank = d :: ds := by
    rw [List.dropWhile_append_of_pos fun c hc => isBlank_iff.mpr (hb c hc),
      List.dropWhile_cons_of_neg fun h => hd (isBlank_iff.mp h)]
  exact ⟨_, by rw [Cursor.skipBlanks, Cursor.skipWhile, hdrop]⟩

/-- The word at a cursor, and that it is as long as it can be. -/
theorem word_spec (r : Cursor) :
    r.rest = r.word.1 ++ r.word.2.rest ∧ (∀ c ∈ r.word.1, c ∉ ends) ∧
      (r.word.2.rest = [] ∨ Stops r.word.2.rest) := by
  refine ⟨(List.takeWhile_append_dropWhile).symm, fun c hc he => ?_, ?_⟩
  · have := List.mem_takeWhile_imp hc
    rw [endsWord_iff.mpr he] at this
    cases this
  · rcases hrest : r.word.2.rest with _ | ⟨d, ds⟩
    · exact .inl rfl
    · have hdrop : r.rest.dropWhile (!endsWord ·) = d :: ds := hrest
      have hne : r.rest.dropWhile (!endsWord ·) ≠ [] := by simp [hdrop]
      have hd := List.head_dropWhile_not (!endsWord ·) hne
      simp only [hdrop, List.head_cons] at hd
      exact .inr ⟨d, ds, rfl, endsWord_iff.mp (by simpa using hd)⟩

/-! ## Text in quotes -/

theorem outcome_spelled (h : Spelled w s) (start offset : Nat) (rest seen : List Char) :
    outcome (quoted start (w ++ '"' :: rest) offset seen) =
      some (String.ofList (seen.reverse ++ s), rest) := by
  induction h generalizing offset seen with
  | nil => simp [quoted]
  | plain hq hb _ ih =>
    rw [List.cons_append, quoted_cons hq hb, ih, List.reverse_cons, List.append_assoc]
    rfl
  | escaped hd _ ih =>
    rw [List.cons_append, List.cons_append, quoted, ih, List.reverse_cons, List.append_assoc,
      escape_iff.mp hd]
    rfl

theorem exists_spelled {start offset : Nat} {seen : List Char} {x : String}
    (h : quoted start w offset seen = .ok (x, after)) :
    ∃ v s, w = v ++ '"' :: after.rest ∧ Spelled v s ∧ x = String.ofList (seen.reverse ++ s) := by
  fun_induction quoted start w offset seen with
  | case1 | case2 => cases h
  | case3 c rest offset seen ih =>
    obtain ⟨v, s, rfl, hv, rfl⟩ := ih h
    exact ⟨_, _, rfl, .escaped (escape_iff.mpr rfl) hv, by simp⟩
  | case4 rest offset seen =>
    cases h
    exact ⟨[], [], rfl, .nil, by simp⟩
  | case5 c rest offset seen hfirst hsecond hquote ih =>
    obtain ⟨v, s, rfl, hv, rfl⟩ := ih h
    refine ⟨_, _, rfl, .plain hquote ?_ hv, by simp⟩
    rintro rfl
    obtain ⟨c, cs, hcs⟩ := List.exists_cons_of_ne_nil (l := v ++ '"' :: after.rest) (by simp)
    exact hsecond c cs rfl hcs

/-! ## What is read is written so -/

theorem Siblings.ne_nil {names : List Char → Prop} :
    ∀ {w : List Char} {cs : List Child}, Siblings names w cs → w ≠ []
  | _, _, .close _ => by simp
  | _, _, .delimited _ _ hcs | _, _, .bare _ _ _ hcs => by simp [Siblings.ne_nil hcs]

/-- The front of a text stops a word when the whole does. -/
theorem Stops.of_append (h : w ++ rest = [] ∨ Stops (w ++ rest)) (hw : w ≠ []) : Stops w := by
  obtain ⟨c, cs, rfl⟩ := List.exists_cons_of_ne_nil hw
  rcases h with h | ⟨d, ds, h, hd⟩
  · cases h
  · cases h
    exact ⟨c, cs, rfl, hd⟩

theorem Stops.append (h : Stops w) : Stops (w ++ rest) := by
  obtain ⟨c, cs, rfl, hc⟩ := h
  exact ⟨c, cs ++ rest, rfl, hc⟩

/-- What is read as a tree is written so. -/
def NodesWritten (fuel : Nat) : Prop :=
  ∀ r t after, node fuel r = .ok (t, after) → ∃ w, r.rest = w ++ after.rest ∧ Node Unquoted w t

/-- What is read as the children of a tree is written so. -/
def SiblingsWritten (fuel : Nat) : Prop :=
  ∀ r cs after, siblings fuel r = .ok (cs, after) →
    ∃ w, r.rest = w ++ after.rest ∧ Siblings Unquoted w cs

/-- What is read as a child is written so, and a bare child goes on to where a word stops. -/
def ChildrenWritten (fuel : Nat) : Prop :=
  ∀ r x after, child fuel r = .ok (x, after) →
    ∃ w, r.rest = w ++ after.rest ∧ (Delimited Unquoted w x ∨
      Bare Unquoted w x ∧ (after.rest = [] ∨ Stops after.rest))

theorem nodesWritten_succ {fuel : Nat} (hsiblings : SiblingsWritten fuel) :
    NodesWritten (fuel + 1) := by
  intro r t after h
  rw [node.eq_def] at h
  dsimp only at h
  split at h
  case h_2 => cases h
  case h_1 body hopen =>
    split at h
    case isTrue => cases h
    case isFalse hne =>
      obtain ⟨⟨cs, last⟩, hcs, h⟩ := exists_of_bind_ok h
      cases h
      obtain ⟨w, hw, hcs⟩ := hsiblings _ _ _ hcs
      obtain ⟨b, hb, hskip⟩ := exists_skipBlanks ⟨body, r.offset + 1⟩
      obtain ⟨hsplit, hchars, hstops⟩ := word_spec (Cursor.mk body (r.offset + 1)).skipBlanks
      have hstops := Stops.of_append (hw ▸ hstops) hcs.ne_nil
      refine ⟨_, hopen.trans ?_, .mk hb ⟨by simpa using hne, hchars⟩ hstops hcs⟩
      exact congrArg _ (hskip.trans (by rw [hsplit, hw]; simp))

theorem siblingsWritten_succ {fuel : Nat} (hchild : ChildrenWritten fuel)
    (hsiblings : SiblingsWritten fuel) : SiblingsWritten (fuel + 1) := by
  intro r cs after h
  rw [siblings.eq_def] at h
  dsimp only at h
  obtain ⟨b, hb, hskip⟩ := exists_skipBlanks r
  split at h
  case h_1 => cases h
  case h_2 rest hclose =>
    cases h
    exact ⟨_, by rw [hskip, hclose, List.append_assoc]; rfl, .close hb⟩
  case h_3 =>
    obtain ⟨⟨x, middle⟩, hx, h⟩ := exists_of_bind_ok h
    obtain ⟨⟨xs, last⟩, hxs, h⟩ := exists_of_bind_ok h
    cases h
    obtain ⟨v, hv, hx⟩ := hchild _ _ _ hx
    obtain ⟨u, hu, hxs⟩ := hsiblings _ _ _ hxs
    dsimp only at hv hu
    refine ⟨b ++ v ++ u, by rw [hskip, hv, hu]; simp, ?_⟩
    rcases hx with hx | ⟨hx, hstops⟩
    · exact .delimited hb hx hxs
    · exact .bare hb hx (Stops.of_append (hu ▸ hstops) hxs.ne_nil) hxs

theorem childrenWritten_succ {fuel : Nat} (hnode : NodesWritten fuel) :
    ChildrenWritten (fuel + 1) := by
  intro r x after h
  rw [child.eq_def] at h
  dsimp only at h
  split at h
  case h_1 rest hopen =>
    obtain ⟨⟨t, last⟩, ht, h⟩ := exists_of_bind_ok h
    cases h
    obtain ⟨w, hw, ht⟩ := hnode _ _ _ ht
    exact ⟨w, hw, .inl (.node ht)⟩
  case h_2 rest hquote =>
    obtain ⟨⟨s, last⟩, hs, h⟩ := exists_of_bind_ok h
    cases h
    obtain ⟨v, s, rfl, hv, rfl⟩ := exists_spelled hs
    exact ⟨_, by rw [hquote]; simp, .inl (.text hv)⟩
  case h_3 rest hcolon =>
    obtain ⟨⟨s, last⟩, hs, h⟩ := exists_of_bind_ok h
    cases h
    obtain ⟨v, s, rfl, hv, rfl⟩ := exists_spelled hs
    exact ⟨_, by rw [hcolon]; simp, .inl (.name hv)⟩
  case h_4 rest hquote hcolon =>
    split at h
    case isTrue => cases h
    case isFalse hne =>
      cases h
      obtain ⟨hsplit, hchars, hstops⟩ := word_spec ⟨rest, r.offset + 1⟩
      have hsplit : rest = _ := hsplit
      refine ⟨_, hcolon.trans (congrArg _ hsplit),
        .inr ⟨.name ⟨by simpa using hne, hchars⟩ fun hhead => ?_, hstops⟩⟩
      obtain ⟨ds, hword⟩ := List.head?_eq_some_iff.mp hhead
      exact hquote _ (hsplit.trans (by rw [hword]; rfl))
  case h_5 hopen hquote hname hcolon =>
    obtain ⟨hsplit, hchars, hstops⟩ := word_spec r
    split at h
    case isTrue hnil =>
      cases h
      exact ⟨_, hsplit, .inr ⟨hnil ▸ .absent, hstops⟩⟩
    case isFalse =>
      split at h
      case h_2 => cases h
      case h_1 y hy =>
        cases h
        obtain ⟨hnumeric, hvalue⟩ := number?_iff.mp hy
        refine ⟨_, hsplit, .inr ⟨.number ⟨?_, hchars⟩ hnumeric hvalue, hstops⟩⟩
        rintro hnil
        rw [hnil] at hnumeric
        cases hnumeric

/-- Whatever the reader takes for a tree, for the children of one or for a child is written so, by
induction on the fuel, which the three functions pass on to each other. -/
theorem written_of_read (fuel : Nat) :
    NodesWritten fuel ∧ SiblingsWritten fuel ∧ ChildrenWritten fuel := by
  induction fuel with
  | zero => refine ⟨?_, ?_, ?_⟩ <;> intro _ _ _ h <;> cases h
  | succ fuel ih =>
    obtain ⟨hnode, hsiblings, hchild⟩ := ih
    exact ⟨nodesWritten_succ hsiblings, siblingsWritten_succ hchild hsiblings,
      childrenWritten_succ hnode⟩

/-! ## What is written so is read -/

theorem Delimited.head {names : List Char → Prop} (h : Delimited names w x) :
    ∃ d ds, w = d :: ds ∧ d ∉ blanks ∧ d ≠ ')' := by
  cases h with
  | node ht =>
    cases ht
    exact ⟨_, _, rfl, by decide, by decide⟩
  | text | name => exact ⟨_, _, rfl, by decide, by decide⟩

theorem Word.head (h : Word w) : ∃ d ds, w = d :: ds ∧ d ∉ blanks ∧ d ≠ ')' := by
  obtain ⟨d, ds, rfl⟩ := List.exists_cons_of_ne_nil h.nonempty
  have hd := h.chars d List.mem_cons_self
  refine ⟨d, ds, rfl, fun hblank => hd ?_, fun hclose => hd ?_⟩
  · exact List.mem_cons_of_mem _ (List.mem_cons_of_mem _ hblank)
  · exact hclose ▸ by decide

theorem Bare.head {names : List Char → Prop} (h : Bare names w x) :
    ∃ d ds, w = d :: ds ∧ d ∉ blanks ∧ d ≠ ')' := by
  cases h with
  | name | absent => exact ⟨_, _, rfl, by decide, by decide⟩
  | number hword => exact hword.head

/-- A bare child is read in front of what stops a word. -/
theorem Bare.outcome_child (h : Bare Unquoted w x) (hr : Stops rest) (fuel offset : Nat) :
    outcome (child (fuel + 1) ⟨w ++ rest, offset⟩) = some (x, rest) := by
  have hr := stops_iff.mp hr
  cases h with
  | @name v hword hquote =>
    have hchars := hword.not_endsWord
    obtain ⟨d, ds, rfl⟩ := List.exists_cons_of_ne_nil hword.nonempty
    have hd : d ≠ '"' := fun hd => hquote (hd ▸ rfl)
    rw [List.cons_append, List.cons_append, child.eq_def]
    dsimp only
    split
    case h_1 h | h_2 h => exact absurd (List.cons.inj h).1 (by decide)
    case h_3 h => exact absurd (List.cons.inj (List.cons.inj h).2).1 hd
    case h_5 h => exact absurd rfl (h _)
    case h_4 more _ h =>
      obtain rfl := (List.cons.inj h).2
      rw [← List.cons_append, word_append hchars hr]
      rfl
  | absent =>
    have hbare : Reader.Bare "nil".toList :=
      ⟨⟨'n', _, rfl, by decide⟩, not_endsWord_of_all (by decide)⟩
    rw [hbare.outcome_child hr]
    rfl
  | number hword hnumeric hvalue =>
    have hbare : Reader.Bare w := by
      refine ⟨?_, hword.not_endsWord⟩
      cases hnumeric with
      | plain hd =>
        exact ⟨_, _, rfl, ne_of_isDigit hd rfl, ne_of_isDigit hd rfl, ne_of_isDigit hd rfl⟩
      | minus => exact ⟨_, _, rfl, by decide, by decide, by decide⟩
    have hnil : w ≠ "nil".toList := by
      rintro rfl
      cases hnumeric with
      | plain hd => exact absurd hd (by decide)
    rw [hbare.outcome_child hr, wordValue?, if_neg hnil, number?_iff.mpr ⟨hnumeric, hvalue⟩]
    rfl

/-- A further child behind blanks. -/
theorem outcome_siblings_append {c : Child} {body : List Char} (hb : Blanks b)
    (hhead : ∃ d ds, w = d :: ds ∧ d ∉ blanks ∧ d ≠ ')') {fuel : Nat}
    (hc : ∀ offset, outcome (child fuel ⟨w ++ (body ++ rest), offset⟩) = some (c, body ++ rest))
    (hcs : ∀ offset, outcome (siblings fuel ⟨body ++ rest, offset⟩) = some (cs, rest))
    (offset : Nat) :
    outcome (siblings (fuel + 1) ⟨b ++ w ++ body ++ rest, offset⟩) = some (c :: cs, rest) := by
  obtain ⟨d, ds, rfl, hblank, hclose⟩ := hhead
  rw [List.cons_append] at hc
  obtain ⟨o, hskip⟩ := skipBlanks_append hb hblank (ds ++ (body ++ rest)) offset
  rw [List.append_assoc, List.append_assoc, List.cons_append, siblings.eq_def]
  dsimp only
  rw [hskip]
  dsimp only
  split
  case h_1 h => cases h
  case h_2 h => exact absurd (List.cons.inj h).1 hclose
  case h_3 =>
    rw [outcome_bind (o := some c) (fun y => some (y :: cs, rest)) (hc o)]
    · rfl
    · intro y o
      dsimp only
      rw [outcome_bind_ok, hcs]
      rfl

mutual

/-- What the grammar takes for a tree is read so. -/
theorem outcome_node : ∀ {w : List Char} {t : Tree}, Node Unquoted w t → ∀ {fuel : Nat}
    (rest : List Char) (offset : Nat), 2 * w.length ≤ fuel + 1 →
    outcome (node fuel ⟨w ++ rest, offset⟩) = some (t, rest)
  | _, _, @Node.mk _ b w body cs hb hword hstops hcs, fuel, rest, offset, hf => by
    simp only [List.length_cons, List.length_append] at hf
    obtain ⟨fuel, rfl⟩ : ∃ f, fuel = f + 1 := ⟨fuel - 1, by omega⟩
    have hread (o : Nat) : outcome (siblings fuel ⟨body ++ rest, o⟩) = some (cs, rest) :=
      outcome_siblings hcs rest o (by omega)
    obtain ⟨d, ds, rfl, hblank, -⟩ := hword.head
    have htext : '(' :: (b ++ d :: ds ++ body) ++ rest =
        '(' :: (b ++ d :: (ds ++ (body ++ rest))) := by
      simp
    obtain ⟨o, hskip⟩ := skipBlanks_append hb hblank (ds ++ (body ++ rest)) (offset + 1)
    rw [htext, node_open, hskip, ← List.cons_append,
      word_append hword.not_endsWord (stops_iff.mp hstops.append)]
    dsimp only
    rw [if_neg (by simp), outcome_bind_ok, hread]
    rfl

theorem outcome_siblings : ∀ {w : List Char} {cs : List Child}, Siblings Unquoted w cs →
    ∀ {fuel : Nat} (rest : List Char) (offset : Nat), 2 * w.length ≤ fuel + 1 →
    outcome (siblings fuel ⟨w ++ rest, offset⟩) = some (cs, rest)
  | _, _, @Siblings.close _ b hb, fuel, rest, offset, hf => by
    rw [List.length_append, List.length_singleton] at hf
    obtain ⟨fuel, rfl⟩ : ∃ f, fuel = f + 1 := ⟨fuel - 1, by omega⟩
    obtain ⟨o, hskip⟩ := skipBlanks_append (d := ')') hb (by decide) rest offset
    rw [List.append_assoc, siblings.eq_def]
    dsimp only
    rw [List.singleton_append, hskip]
    rfl
  | _, _, @Siblings.delimited _ b w body c cs hb hc hcs, fuel, rest, offset, hf => by
    simp only [List.length_append] at hf
    have hbody := List.length_pos_iff.mpr hcs.ne_nil
    obtain ⟨fuel, rfl⟩ : ∃ f, fuel = f + 1 := ⟨fuel - 1, by omega⟩
    have hpos : 0 < w.length := by
      obtain ⟨d, ds, rfl, -⟩ := hc.head
      exact Nat.succ_pos _
    exact outcome_siblings_append hb hc.head
      (fun o => outcome_delimited hc (body ++ rest) o (by omega))
      (fun o => outcome_siblings hcs rest o (by omega)) offset
  | _, _, @Siblings.bare _ b w body c cs hb hc hstops hcs, fuel, rest, offset, hf => by
    simp only [List.length_append] at hf
    have hbody := List.length_pos_iff.mpr hcs.ne_nil
    have hpos : 0 < w.length := by
      obtain ⟨d, ds, rfl, -⟩ := hc.head
      exact Nat.succ_pos _
    obtain ⟨fuel, rfl⟩ : ∃ f, fuel = f + 2 := ⟨fuel - 2, by omega⟩
    exact outcome_siblings_append hb hc.head (fun o => hc.outcome_child hstops.append fuel o)
      (fun o => outcome_siblings hcs rest o (by omega)) offset

theorem outcome_delimited : ∀ {w : List Char} {c : Child}, Delimited Unquoted w c →
    ∀ {fuel : Nat} (rest : List Char) (offset : Nat), 2 * w.length ≤ fuel →
    outcome (child fuel ⟨w ++ rest, offset⟩) = some (c, rest)
  | w, _, @Delimited.node _ _ t ht, fuel, rest, offset, hf => by
    obtain ⟨body, hw⟩ : ∃ body, w = '(' :: body := by
      cases ht
      exact ⟨_, rfl⟩
    have hpos : 0 < w.length := by
      rw [hw]
      exact Nat.succ_pos _
    obtain ⟨fuel, rfl⟩ : ∃ f, fuel = f + 1 := ⟨fuel - 1, by omega⟩
    -- before `w` is opened: the recursion is on `ht`, whose index it is
    have hread : outcome (node fuel ⟨w ++ rest, offset⟩) = some (t, rest) :=
      outcome_node ht rest offset (by omega)
    subst hw
    rw [List.cons_append] at hread ⊢
    rw [child_open, outcome_bind_ok, hread]
    rfl
  | _, _, @Delimited.text _ w s hs, fuel, rest, offset, hf => by
    simp only [List.length_cons] at hf
    obtain ⟨fuel, rfl⟩ : ∃ f, fuel = f + 1 := ⟨fuel - 1, by omega⟩
    have htext : '"' :: (w ++ ['"']) ++ rest = '"' :: (w ++ '"' :: rest) := by simp
    rw [htext, child_quote, outcome_bind_ok, outcome_spelled hs]
    rfl
  | _, _, @Delimited.name _ w s hs, fuel, rest, offset, hf => by
    simp only [List.length_cons] at hf
    obtain ⟨fuel, rfl⟩ : ∃ f, fuel = f + 1 := ⟨fuel - 1, by omega⟩
    have htext : ':' :: '"' :: (w ++ ['"']) ++ rest = ':' :: '"' :: (w ++ '"' :: rest) := by simp
    have hchild : child (fuel + 1) ⟨':' :: '"' :: (w ++ '"' :: rest), offset⟩ =
        quoted (offset + 1) (w ++ '"' :: rest) (offset + 2) [] >>= fun x => .ok (.text x.1, x.2) :=
      rfl
    rw [htext, hchild, outcome_bind_ok, outcome_spelled hs]
    rfl

end

/-! ## Whole texts -/

variable {text : String}

theorem written_of_parse (h : Tree.parse text = .ok t) : Written Unquoted text t := by
  obtain ⟨⟨t, after⟩, ht, h⟩ := exists_of_bind_ok h
  dsimp only at h
  split at h
  case isFalse => cases h
  case isTrue hend =>
    cases h
    obtain ⟨b, hb, hskip⟩ := exists_skipBlanks ⟨text.toList, 0⟩
    obtain ⟨w, hw, ht⟩ := (written_of_read _).1 _ _ _ ht
    obtain ⟨a, ha, hlast⟩ := exists_skipBlanks after
    rw [List.isEmpty_iff.mp hend, List.append_nil] at hlast
    exact ⟨b, w, a, by rw [List.append_assoc, ← hlast, ← hw]; exact hskip, hb, ht, ha⟩

theorem skipBlanks_blanks (ha : Blanks b) (offset : Nat) :
    (Cursor.mk b offset).skipBlanks.rest = [] :=
  List.dropWhile_eq_nil_iff.mpr fun c hc => isBlank_iff.mpr (ha c hc)

theorem parse_of_written (h : Written Unquoted text t) : Tree.parse text = .ok t := by
  obtain ⟨b, w, a, htext, hb, ht, ha⟩ := h
  obtain ⟨ds, rfl⟩ : ∃ ds, w = '(' :: ds := by
    cases ht
    exact ⟨_, rfl⟩
  obtain ⟨o, hskip⟩ := skipBlanks_append (d := '(') hb (by decide) (ds ++ a) 0
  have hstart : (Cursor.mk text.toList 0).skipBlanks = ⟨'(' :: ds ++ a, o⟩ := by
    rw [htext, List.append_assoc]
    exact hskip
  have hread : outcome (node (2 * ('(' :: ds ++ a).length + 2) ⟨'(' :: ds ++ a, o⟩) = some (t, a) :=
    outcome_node ht a o (by rw [List.length_append]; omega)
  rw [Tree.parse, hstart]
  dsimp only
  generalize node (2 * ('(' :: ds ++ a).length + 2) ⟨'(' :: ds ++ a, o⟩ = read at hread
  cases read with
  | error fault => cases hread
  | ok r =>
    obtain ⟨t', ⟨after, offset⟩⟩ := r
    obtain ⟨rfl, rfl⟩ : t = t' ∧ a = after := by
      cases hread
      exact ⟨rfl, rfl⟩
    show (if (Cursor.mk a offset).skipBlanks.rest.isEmpty then _ else _) = _
    rw [skipBlanks_blanks ha]
    rfl

/-- Reading a text gives a tree exactly when the grammar does. -/
theorem parse_eq_ok_iff (text : String) (t : Tree) :
    Tree.parse text = .ok t ↔ Written Unquoted text t :=
  ⟨written_of_parse, parse_of_written⟩

/-- With any word behind a colon, `(a :"b)` would be a tree with a name that begins with a quote; it
is read as an unfinished text. -/
theorem written_quote_behind_colon :
    Written (fun _ => True) "(a :\"b)" ⟨"a", [.text "\"b"]⟩ ∧
      Tree.parse "(a :\"b)" = .error ⟨4, .unterminatedText⟩ := by
  have hblanks : Blanks [] := List.forall_mem_nil _
  have hword : Word ['"', 'b'] := ⟨List.cons_ne_nil _ _, by simp [ends, blanks]⟩
  have hclose : Siblings (fun _ => True) [')'] [] := .close (b := []) hblanks
  have hname : Siblings (fun _ => True) [' ', ':', '"', 'b', ')'] [.text "\"b"] :=
    .bare (b := [' ']) (by decide) (.name hword trivial) ⟨')', [], rfl, by decide⟩ hclose
  have htag : Word ['a'] := ⟨List.cons_ne_nil _ _, by simp [ends, blanks]⟩
  have hnode := Node.mk (b := []) hblanks htag ⟨' ', _, rfl, by decide⟩ hname
  have htext : "(a :\"b)".toList = ['(', 'a', ' ', ':', '"', 'b', ')'] := rfl
  refine ⟨⟨[], _, [], htext, hblanks, hnode, hblanks⟩, ?_⟩
  rw [Tree.parse, htext]
  rfl

end Garnet.Grammar
