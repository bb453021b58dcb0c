import Garnet.Proofs.Adding
import Garnet.Proofs.Arrays.Nesting
import Garnet.Proofs.Searches.Literal

/-!
# Texts split and joined

A text is split at the occurrences of a separator that follow one another without overlapping. What
is between them comes back together when it is joined with the separator again.
-/

namespace Garnet

open Eval Regex Text

/-! ## Pieces -/

/-- The pieces of a text between the occurrences of a separator, each of these the first one behind
the one before. With a bound on the cuts, the last piece is what is left after so many. -/
inductive Separated (sep : List Char) : Option Nat → List Char → List (List Char) → Prop
  | last {k : Option Nat} {cs : List Char} : (k = some 0 ∨ ∀ i, ¬OccursAt sep cs i) →
      Separated sep k cs [cs]
  | cut {k : Option Nat} {cs : List Char} {i : Nat} {ps : List (List Char)} : k ≠ some 0 →
      FirstFrom sep cs 0 i → Separated sep (k.map Nat.pred) (cs.drop (i + sep.length)) ps →
      Separated sep k cs (cs.take i :: ps)

namespace Separated

variable {sep cs : List Char} {k : Option Nat} {ps : List (List Char)}

theorem ne_nil (h : Separated sep k cs ps) : ps ≠ [] := by
  cases h with
  | last => exact List.cons_ne_nil _ _
  | cut => exact List.cons_ne_nil _ _

/-- No character is lost, and none but those of separators. -/
theorem intercalate_eq (h : Separated sep k cs ps) : sep.intercalate ps = cs := by
  induction h with
  | last => exact List.intercalate_singleton
  | @cut k cs i ps _ hfirst hrest ih =>
    obtain ⟨p, ps, rfl⟩ := List.exists_cons_of_ne_nil hrest.ne_nil
    have hsep : (cs.drop i).take sep.length = sep := hfirst.occurs.2
    calc sep.intercalate (cs.take i :: p :: ps)
        = cs.take i ++ sep ++ cs.drop (i + sep.length) := by rw [List.intercalate_cons_cons, ih]
      _ = cs.take i ++ ((cs.drop i).take sep.length ++ (cs.drop i).drop sep.length) := by
          rw [hsep, List.drop_drop, List.append_assoc]
      _ = cs := by rw [List.take_append_drop, List.take_append_drop]

/-- There is at most one piece more than there may be cuts. -/
theorem length_le {bound : Nat} (h : Separated sep (some bound) cs ps) : ps.length ≤ bound + 1 := by
  generalize hk : some bound = k at h
  induction h generalizing bound with
  | last => exact Nat.succ_le_succ (Nat.zero_le _)
  | cut hne _ _ ih =>
    subst hk
    obtain ⟨bound, rfl⟩ := Nat.exists_eq_succ_of_ne_zero fun h => hne (congrArg some h)
    exact Nat.succ_le_succ (ih rfl)

/-- There is at most one piece more than there are characters. -/
theorem length_le_length (h : Separated sep k cs ps) (hne : sep ≠ []) :
    ps.length ≤ cs.length + 1 := by
  induction h with
  | last => exact Nat.succ_le_succ (Nat.zero_le _)
  | cut _ hfirst _ ih =>
    have hpositive := List.length_pos_of_ne_nil hne
    have hle := hfirst.occurs.add_length_le
    rw [List.length_drop] at ih
    rw [List.length_cons]
    omega

end Separated

/-! ## Cutting -/

/-- Matches of a text, each one the first behind the one before, up to the last of all. -/
inductive Successive (sep cs : List Char) : Nat → List Match → Prop
  | nil {start : Nat} : (∀ i, ¬OccursAt sep (cs.drop start) i) → Successive sep cs start []
  | cons {start i : Nat} {ms : List Match} : FirstFrom sep (cs.drop start) 0 i →
      Successive sep cs (start + i + sep.length) ms →
      Successive sep cs start (matchAt sep (start + i) :: ms)

namespace Library.Strings

variable {chars : Array Char} {sep : List Char} {m : Compiled} {ms : List Match} {start n : Nat}

/-- No match is empty, so that each one is behind the end of the one before. -/
theorem findAllFrom_successive (hm : Finds m sep) (hne : sep ≠ []) (previous : Option Nat)
    (hstart : start ≤ chars.size) (hn : chars.size - start < n) :
    Successive sep chars.toList start (m.findAllFrom chars n start previous) := by
  induction n generalizing start previous with
  | zero => exact absurd hn (Nat.not_lt_zero _)
  | succ n ih =>
    rw [Compiled.findAllFrom, hm chars start hstart]
    cases hfind : find? sep (chars.toList.drop start) with
    | none => exact .nil (not_occursAt_of_find? hfind)
    | some i =>
      have hpositive := List.length_pos_of_ne_nil hne
      have hfirst := firstFrom_of_find? hfind
      have hle := hfirst.occurs.add_length_le
      have hsize : chars.toList.length = chars.size := Array.length_toList
      rw [List.length_drop, hsize] at hle
      have hnonempty : start + i ≠ start + i + sep.length := by omega
      simp only [Option.map_some, matchAt, beq_false_of_ne hnonempty, Bool.false_and,
        Bool.false_eq_true, if_false]
      exact .cons hfirst (ih _ (by omega) (by omega))

theorem findAll_successive (hm : Finds m sep) (hne : sep ≠ []) (chars : Array Char) :
    Successive sep chars.toList 0 (m.findAll chars) :=
  findAllFrom_successive hm hne none (Nat.zero_le _) (by omega)

/-- The pieces in front of matches and behind the last of them. -/
def piecesFrom (chars : Array Char) : Nat → List Match → List String
  | start, [] => [spanText chars ⟨start, chars.size⟩]
  | start, m :: ms => spanText chars ⟨start, m.whole.first⟩ :: piecesFrom chars m.whole.last ms

theorem splitAt_eq (chars : Array Char) (limit : Nat) (found : List Match) :
    splitAt chars limit found =
      piecesFrom chars 0 (if limit == 0 then found else found.take (limit - 1)) := by
  -- the fold keeps the pieces that it has, the last one first
  have hfold (ms : List Match) : ∀ (pieces : List String) (last : Nat),
      (let cut := ms.foldl (fun cut (m : Match) =>
        (spanText chars ⟨cut.2, m.whole.first⟩ :: cut.1, m.whole.last)) (pieces, last)
      (spanText chars ⟨cut.2, chars.size⟩ :: cut.1).reverse) =
        pieces.reverse ++ piecesFrom chars last ms := by
    induction ms with
    | nil => exact fun pieces last => List.reverse_cons
    | cons m ms ih =>
      intro pieces last
      rw [List.foldl_cons, ih, List.reverse_cons, List.append_assoc]
      rfl
  exact hfold _ [] 0

theorem spanText_eq (chars : Array Char) (first last : Nat) :
    spanText chars ⟨first, last⟩ =
      String.ofList ((chars.toList.drop first).take (last - first)) := by
  rw [spanText, Array.toList_extract, List.extract_eq_take_drop]

/-- Cut at all of the matches or at so many of them, a text falls into its pieces. -/
theorem piecesFrom_separated (h : Successive sep chars.toList start ms) (k : Option Nat) :
    ∃ ps, Separated sep k (chars.toList.drop start) ps ∧
      piecesFrom chars start (k.elim ms ms.take) = ps.map String.ofList := by
  have hlast (start : Nat) :
      piecesFrom chars start [] = [chars.toList.drop start].map String.ofList := by
    rw [piecesFrom, spanText_eq, List.map_singleton, List.take_of_length_le]
    rw [List.length_drop, Array.length_toList]
  induction h generalizing k with
  | @nil start hnone =>
    refine ⟨_, .last (.inr hnone), ?_⟩
    cases k with
    | none => exact hlast start
    | some k => rw [Option.elim_some, List.take_nil, hlast]
  | @cons start i ms hfirst _ ih =>
    have hpiece : spanText chars ⟨start, start + i⟩ =
        String.ofList ((chars.toList.drop start).take i) := by
      rw [spanText_eq, Nat.add_sub_cancel_left]
    have hrest : chars.toList.drop (start + i + sep.length) =
        (chars.toList.drop start).drop (i + sep.length) := by
      rw [List.drop_drop, Nat.add_assoc]
    cases k with
    | none =>
      obtain ⟨ps, hps, hpieces⟩ := ih none
      refine ⟨_, .cut nofun hfirst (hrest ▸ hps), ?_⟩
      rw [List.map_cons, ← hpieces, ← hpiece]
      rfl
    | some k =>
      cases k with
      | zero => exact ⟨_, .last (.inl rfl), hlast start⟩
      | succ k =>
        obtain ⟨ps, hps, hpieces⟩ := ih (some k)
        refine ⟨_, .cut nofun hfirst (hrest ▸ hps), ?_⟩
        rw [List.map_cons, ← hpieces, ← hpiece]
        rfl

/-- How many cuts a limit of pieces allows; only a positive one bounds them. -/
def cutsWithin (limit : Int) : Option Nat := if 0 < limit then some (limit.toNat - 1) else none

theorem splitAt_findAll (limit : Int) :
    splitAt chars limit.toNat ms = piecesFrom chars 0 ((cutsWithin limit).elim ms ms.take) := by
  rw [splitAt_eq, cutsWithin]
  by_cases hlimit : 0 < limit
  · have hne : limit.toNat ≠ 0 := by omega
    rw [beq_false_of_ne hne, if_neg Bool.false_ne_true, if_pos hlimit, Option.elim_some]
  · have hzero : limit.toNat = 0 := by omega
    rw [hzero, if_neg hlimit]
    rfl

end Library.Strings

/-! ## Splitting -/

/-- A value is an array of the texts of a list. -/
def Store.IsTexts (s : Store) (v : Value) (texts : List String) : Prop :=
  ∃ vs : List Value, s.payload v = .array vs.toArray ∧
    List.Forall₂ (fun v text => s.payload v = .text text) vs texts

/-- The arguments of a split at `v`: no limit, which counts as zero, or an integer of 64 bits. -/
inductive SplitArgs (s : Store) (v : Value) : List Value → Int → Prop
  | plain : SplitArgs s v [v] 0
  | limited {w : Value} {limit : Int} : s.payload w = .integer limit → Number.isWord limit →
      SplitArgs s v [v, w] limit

namespace Library.Strings

variable {e : Engine} {s : Store} {recv v w : Value} {text sep : String} {args : List Value}
  {limit : Int} {pieces : List String}

theorem splitPieces_text (hv : s.payload v = .text sep) (hempty : sep ≠ "") (hblank : sep ≠ " ")
    (text : String) (limit : Int) :
    (splitPieces text (some v) limit).run e s =
      .ok (splitAt text.toList.toArray limit.toNat
        ((Compiled.literal sep).findAll text.toList.toArray)) s := by
  have htext : s.text? v = some sep := Store.text?_eq_some.mpr hv
  simp only [splitPieces, Act.run_bind, run_view, Ending.andThen_ok, htext]
  split
  · exact absurd (Option.some.inj ‹_›) hblank
  · exact absurd (Option.some.inj ‹_›) hempty
  · simp only [Act.run_bind, pattern_run hv, Ending.andThen_ok, Act.run_pure]

theorem splitPieces_empty (hv : s.payload v = .text "") (text : String) (limit : Int) :
    (splitPieces text (some v) limit).run e s = .ok (text.toList.map String.singleton) s := by
  have htext : s.text? v = some "" := Store.text?_eq_some.mpr hv
  simp only [splitPieces, Act.run_bind, run_view, Ending.andThen_ok, htext, Act.run_pure]

/-- Without a limit, pieces at the end that are empty are left out. -/
def keptPieces (limit : Int) (pieces : List String) : List String :=
  if limit = 0 then pieces.rdropWhile String.isEmpty else pieces

theorem newTextList_adds (texts : List String) :
    Adds (do newList (← texts.mapM newText)) e s fun a t => t.IsTexts a texts := by
  refine (newTexts_adds texts).bind fun vs t _ hvs => ?_
  refine (newList_adds vs).mono fun a u htu ha => ⟨vs, ha, ?_⟩
  exact hvs.imp fun v text hv => htu.payload (p := .text text) hv nofun

theorem split_adds (hrecv : s.payload recv = .text text) (hnil : v ≠ .nil)
    (hargs : SplitArgs s v args limit)
    (hpieces : (splitPieces text (some v) limit).run e s = .ok pieces s) :
    Adds (split recv args none) e s fun a t => t.IsTexts a (keptPieces limit pieces) := by
  refine .congr ?_ (newTextList_adds (keptPieces limit pieces))
  have hlive : (!v.isNil) = true := by rw [Value.isNil, beq_false_of_ne hnil]; rfl
  have hkept : (if (limit == 0) = true then (pieces.reverse.dropWhile (·.isEmpty)).reverse
      else pieces) = keptPieces limit pieces := by
    rw [keptPieces]
    exact if_congr beq_iff_eq rfl rfl
  cases hargs with
  | plain =>
    have harity : (checkArity [v] 0 2).run e s = .ok () s := rfl
    have hlimit : [v][1]? = none := rfl
    simp only [split, Act.run_bind, harity, textOf_run hrecv, Ending.andThen_ok, hlimit,
      Act.run_pure, Option.filter, List.head?_cons, hlive, if_true, hpieces, hkept]
  | @limited w limit hw hword =>
    have harity : (checkArity [v, w] 0 2).run e s = .ok () s := rfl
    have hlimit : [v, w][1]? = some w := rfl
    simp only [split, Act.run_bind, harity, textOf_run hrecv, Ending.andThen_ok, hlimit,
      needWord_run hw hword, Option.filter, List.head?_cons, hlive, if_true, hpieces, hkept]

theorem split_refused (hrecv : s.payload recv = .text text) (hw : s.payload w = .integer limit)
    (hword : Number.isWord limit = false) :
    (split recv [v, w] none).run e s =
      (argumentError "integer out of range" : Op Value).run e s := by
  have harity : (checkArity [v, w] 0 2).run e s = .ok () s := rfl
  have hlimit : [v, w][1]? = some w := rfl
  simp only [split, Act.run_bind, harity, textOf_run hrecv, Ending.andThen_ok, hlimit,
    needWord_refused hw hword]
  rfl

end Library.Strings

/-! ## Joining -/

/-- A row without arrays. -/
def Nest.row : List Value → Nest
  | [] => nil
  | v :: vs => leaf v (row vs)

theorem Nest.row_eq (vs : List Value) :
    (row vs).roots = vs ∧ (row vs).leaves = vs ∧ (row vs).size = vs.length := by
  induction vs with
  | nil => exact ⟨rfl, rfl, rfl⟩
  | cons v vs ih =>
    obtain ⟨hroots, hleaves, hsize⟩ := ih
    exact ⟨congrArg (v :: ·) hroots, congrArg (v :: ·) hleaves, congrArg (· + 1) hsize⟩

theorem Nest.of_row {s : Store} {vs : List Value} {texts : List String}
    (h : List.Forall₂ (fun v text => s.payload v = .text text) vs texts) : (row vs).Of s := by
  induction h with
  | nil => trivial
  | cons hv _ ih =>
    refine ⟨s.index_lt_of_payload hv nofun, ?_, ih⟩
    rw [Store.array?, hv]

/-- The arguments of a join, and the separator that they ask for. -/
inductive JoinArgs (s : Store) : List Value → String → Prop
  | plain : JoinArgs s [] ""
  | separated {v : Value} {sep : String} : v ≠ .nil → s.payload v = .text sep → JoinArgs s [v] sep

namespace Library

variable {e : Engine} {s : Store} {a v recv : Value} {text sep : String} {vs args : List Value}
  {texts : List String}

theorem toText_run (hv : s.payload v = .text text) :
    (toText v).run e s = .ok text s := by
  simp only [toText, payload, Act.run_bind, run_view, Ending.andThen_ok, hv, Act.run_pure]

theorem toTexts_run (h : List.Forall₂ (fun v text => s.payload v = .text text) vs texts) :
    (vs.mapM toText).run e s = .ok texts s := by
  induction h with
  | nil => rfl
  | cons hv _ ih =>
    rw [Act.run_mapM_cons_andThen, toText_run hv, Ending.andThen_ok, ih, Ending.andThen_ok]

theorem leafTexts_texts (h : List.Forall₂ (fun v text => s.payload v = .text text) vs texts)
    (hfuel : vs.length < e.fuel) : (Arrays.leafTexts vs).run e s = .ok texts s := by
  obtain ⟨hroots, hleaves, hsize⟩ := Nest.row_eq vs
  have hkept : Kept (Nest.row vs) e s := by
    intro ws hws made t hrun
    rw [hleaves] at hws
    have htaken := List.forall₂_take ws.length h
    rw [← List.prefix_iff_eq_take.mp hws] at htaken
    rw [toTexts_run htaken] at hrun
    cases hrun
    exact Nest.of_row h
  have hrun := leafTexts_run hkept (hsize ▸ hfuel)
  rwa [hroots, hleaves, toTexts_run h] at hrun

/-- The texts of an array one after another, with the separator between them. -/
theorem join_adds (ha : s.IsTexts a texts) (hargs : JoinArgs s args sep)
    (hfuel : texts.length < e.fuel) : Adds (Arrays.join a args none) e s fun b t =>
      t.payload b = .text (sep.intercalate texts) := by
  obtain ⟨vs, hvs, htexts⟩ := ha
  have hitems : (Arrays.listOf a).run e s = .ok vs s := listOf_run hvs
  have hleaves : (Arrays.leafTexts vs).run e s = .ok texts s :=
    leafTexts_texts htexts (htexts.length_eq ▸ hfuel)
  refine .congr ?_ (newText_adds _)
  cases hargs with
  | plain =>
    simp only [Arrays.join, atMostOneArg, Act.run_bind, Act.run_pure, Ending.andThen_ok, hitems,
      hleaves]
  | separated hnil hv =>
    have hlive : Value.isNil _ = false := beq_false_of_ne hnil
    simp only [Arrays.join, atMostOneArg, Act.run_bind, Act.run_pure, Ending.andThen_ok, hlive,
      Bool.false_eq_true, if_false, needText_run hv, hitems, hleaves]

/-! ## Splitting and joining -/

/-- What a split has made is joined to what its pieces make up. -/
theorem join_split_adds {pieces : List String} {splitArgs joinArgs : List Value}
    (hsplit : Adds (Strings.split recv splitArgs none) e s fun a t => t.IsTexts a pieces)
    (hjoin : JoinArgs s joinArgs sep) (hfuel : pieces.length < e.fuel) :
    Adds (do Arrays.join (← Strings.split recv splitArgs none) joinArgs none) e s fun b t =>
      t.payload b = .text (sep.intercalate pieces) := by
  refine hsplit.bind fun a t hst ha => join_adds ha ?_ hfuel
  cases hjoin with
  | plain => exact .plain
  | separated hnil hv => exact .separated hnil (hst.payload hv nofun)

theorem intercalate_ofList {pieces : List (List Char)}
    (h : sep.toList.intercalate pieces = text.toList) :
    sep.intercalate (pieces.map String.ofList) = text := by
  have hsame : pieces.map (String.toList ∘ String.ofList) = pieces :=
    (List.map_congr_left fun cs _ => String.toList_ofList).trans (List.map_id pieces)
  refine String.toList_injective ?_
  rw [String.toList_intercalate, List.map_map, hsame, h]

theorem intercalate_singletons (text : String) :
    "".intercalate (text.toList.map String.singleton) = text := by
  have hchars (cs : List Char) : [].intercalate (cs.map fun c => [c]) = cs := by
    induction cs with
    | nil => rfl
    | cons c cs ih =>
      cases cs with
      | nil => rfl
      | cons d cs =>
        rw [List.map_cons] at ih ⊢
        rw [List.map_cons, List.intercalate_cons_cons, ih]
        rfl
  have hsame : text.toList.map (String.toList ∘ String.singleton) = text.toList.map fun c => [c] :=
    List.map_congr_left fun c _ => String.toList_singleton c
  refine String.toList_injective ?_
  rw [String.toList_intercalate, List.map_map, hsame]
  exact hchars text.toList

/-- No character is empty. -/
theorem keptPieces_singletons (limit : Int) (cs : List Char) :
    Strings.keptPieces limit (cs.map String.singleton) = cs.map String.singleton := by
  rw [Strings.keptPieces]
  split
  · rw [List.rdropWhile_eq_self_iff]
    intro hne
    obtain ⟨c, -, hc⟩ := List.mem_map.mp (List.getLast_mem hne)
    rw [← hc]
    simp
  · rfl

/-- A text falls into the pieces between the occurrences of a separator that is neither empty nor a
single blank, at most as many as a positive limit says. Unless the limit is zero, the pieces joined
with the separator are the text; then the empty ones at the end are left out. Split at the empty
text, the text is joined from its characters. -/
theorem split_join (hrecv : s.payload recv = .text text) (hv : s.payload v = .text sep)
    (hnil : v ≠ .nil) (hfuel : text.toList.length + 1 < e.fuel) :
    (sep ≠ "" → sep ≠ " " → ∃ pieces : Option Nat → List (List Char),
      (∀ k, Separated sep.toList k text.toList (pieces k)) ∧
      ∀ args limit, SplitArgs s v args limit →
        Adds (Strings.split recv args none) e s (fun a t => t.IsTexts a
          (Strings.keptPieces limit ((pieces (Strings.cutsWithin limit)).map String.ofList))) ∧
        (0 < limit → ((pieces (Strings.cutsWithin limit)).length : Int) ≤ limit) ∧
        (limit ≠ 0 → Adds (do Arrays.join (← Strings.split recv args none) [v] none) e s fun b t =>
          t.payload b = .text text)) ∧
    (sep = "" → ∀ args limit, SplitArgs s v args limit →
      Adds (do Arrays.join (← Strings.split recv args none) [] none) e s fun b t =>
        t.payload b = .text text) ∧
    ∀ w limit, s.payload w = .integer limit → Number.isWord limit = false →
      (Strings.split recv [v, w] none).run e s =
        (argumentError "integer out of range" : Op Value).run e s := by
  refine ⟨fun hempty hblank => ?_, fun hempty args limit hargs => ?_, fun w limit hw hword => ?_⟩
  · have hne : sep.toList ≠ [] := fun h => hempty (String.toList_injective h)
    choose pieces hpieces hcuts using Strings.piecesFrom_separated
      (Strings.findAll_successive (literal_finds sep) hne text.toList.toArray)
    rw [List.toList_toArray, List.drop_zero] at hpieces
    refine ⟨pieces, hpieces, fun args limit hargs => ?_⟩
    have hrun := Strings.splitPieces_text (e := e) hv hempty hblank text limit
    rw [Strings.splitAt_findAll, hcuts] at hrun
    have hsplit := Strings.split_adds hrecv hnil hargs hrun
    refine ⟨hsplit, fun hlimit => ?_, fun hlimit => ?_⟩
    · have hbound : Strings.cutsWithin limit = some (limit.toNat - 1) := if_pos hlimit
      have hlength := (hpieces (some (limit.toNat - 1))).length_le
      rw [hbound]
      omega
    · have hlength := (hpieces (Strings.cutsWithin limit)).length_le_length hne
      rw [Strings.keptPieces, if_neg hlimit] at hsplit
      refine (join_split_adds hsplit (.separated hnil hv) ?_).mono fun b t _ hb => ?_
      · rw [List.length_map]
        omega
      · rwa [intercalate_ofList (hpieces _).intercalate_eq] at hb
  · subst hempty
    have hrun := Strings.splitPieces_empty (e := e) hv text limit
    have hsplit := Strings.split_adds hrecv hnil hargs hrun
    rw [keptPieces_singletons] at hsplit
    refine (join_split_adds hsplit .plain ?_).mono fun b t _ hb => ?_
    · rw [List.length_map]
      omega
    · rwa [intercalate_singletons] at hb
  · exact Strings.split_refused hrecv hw hword

/-- A text, a separator that occurs at its end and twice in a row, limits, and the empty text. -/
def withCommas : Store :=
  { config := { cacheMin := 1, cacheMax := 0 }
    objects := #[{ cls := CoreClass.nilClass.value, payload := .nil },
      { cls := CoreClass.string.value, payload := .text "日,,a," },
      { cls := CoreClass.string.value, payload := .text "," },
      { cls := CoreClass.integer.value, payload := .integer 2 },
      { cls := CoreClass.integer.value, payload := .integer (2 ^ 63) },
      { cls := CoreClass.string.value, payload := .text "" }]
    scopes := #[], frames := [], scopeStack := [] }

theorem split_join_withCommas :
    (∃ pieces : List String, pieces.length ≤ 2 ∧
      Adds (Strings.split ⟨1⟩ [⟨2⟩, ⟨3⟩] none) (.ofFuel 7) withCommas
        fun a t => t.IsTexts a pieces) ∧
    Adds (do Arrays.join (← Strings.split ⟨1⟩ [⟨2⟩, ⟨3⟩] none) [⟨2⟩] none) (.ofFuel 7) withCommas
      (fun b t => t.payload b = .text "日,,a,") ∧
    Adds (do Arrays.join (← Strings.split ⟨1⟩ [⟨5⟩] none) [] none) (.ofFuel 7) withCommas
      (fun b t => t.payload b = .text "日,,a,") := by
  have hcommas : (2 : Int) ≠ 0 ∧ (0 : Int) < 2 := by decide
  have hrecv : withCommas.payload ⟨1⟩ = .text "日,,a," := rfl
  have hcomma : withCommas.payload ⟨2⟩ = .text "," := rfl
  have hempty : withCommas.payload ⟨5⟩ = .text "" := rfl
  obtain ⟨hpieces, -, -⟩ := split_join (e := .ofFuel 7) hrecv hcomma (by decide) (by decide)
  obtain ⟨-, hchars, -⟩ := split_join (e := .ofFuel 7) hrecv hempty (by decide) (by decide)
  obtain ⟨pieces, -, hlimits⟩ := hpieces (by decide) (by decide)
  have hargs : SplitArgs withCommas ⟨2⟩ [⟨2⟩, ⟨3⟩] 2 := .limited rfl rfl
  obtain ⟨hsplit, hlength, hjoin⟩ := hlimits _ 2 hargs
  refine ⟨⟨_, ?_, hsplit⟩, hjoin hcommas.1, hchars rfl _ 0 .plain⟩
  rw [Strings.keptPieces, if_neg hcommas.1, List.length_map]
  exact Int.ofNat_le.mp (hlength hcommas.2)

/-- With a limit of more than 64 bits there are no pieces that could be joined. -/
theorem split_join_beyondWords :
    withCommas.payload ⟨1⟩ = .text "日,,a," ∧ withCommas.payload ⟨2⟩ = .text "," ∧
      withCommas.payload ⟨4⟩ = .integer (2 ^ 63) ∧
      ¬∃ b t, (do Arrays.join (← Strings.split ⟨1⟩ [⟨2⟩, ⟨4⟩] none) [⟨2⟩] none : Op Value).run
        (.ofFuel 7) withCommas = .ok b t := by
  have hrecv : withCommas.payload ⟨1⟩ = .text "日,,a," := rfl
  have hlimit : withCommas.payload ⟨4⟩ = .integer (2 ^ 63) := rfl
  have hrefused : (Strings.split ⟨1⟩ [⟨2⟩, ⟨4⟩] none).run (.ofFuel 7) withCommas =
      (argumentError "integer out of range" : Op Value).run (.ofFuel 7) withCommas :=
    Strings.split_refused hrecv hlimit rfl
  refine ⟨hrecv, rfl, hlimit, ?_⟩
  rw [Act.run_bind, hrefused]
  rintro ⟨b, t, ⟨⟩⟩

end Library

end Garnet
