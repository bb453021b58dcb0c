import Garnet.Proofs.Interning
import Garnet.Proofs.Requests
import Garnet.Proofs.Trees.Accepted

/-!
# Integer literals

An integer literal is read from a word, as an integer of 64 bits or as its digits, built into an
expression, and evaluated to an object. Either way the object holds the integer that the word is a
numeral of.
-/

namespace Garnet

namespace Grammar

/-- A digit behind an optional minus, and more digits with underscores among them; and the integer
whose numeral this is without the underscores. -/
inductive IntegerWord : List Char → Int → Prop
  | plain {d : Char} {ds : List Char} : d.isDigit → (∀ c ∈ ds, c.isDigit ∨ c = '_') →
      IntegerWord (d :: ds) (Nat.ofDigitChars 10 (clean (d :: ds)) 0)
  | minus {d : Char} {ds : List Char} : d.isDigit → (∀ c ∈ ds, c.isDigit ∨ c = '_') →
      IntegerWord ('-' :: d :: ds) (-(Nat.ofDigitChars 10 (clean (d :: ds)) 0 : Int))

variable {w ds : List Char} {i : Int}

theorem isDigit_of_mem_clean (h : ∀ c ∈ ds, c.isDigit ∨ c = '_') : ∀ c ∈ clean ds, c.isDigit := by
  intro c hc
  obtain ⟨hmem, hne⟩ := List.mem_filter.mp hc
  exact (h c hmem).resolve_right (bne_iff_ne.mp hne)

theorem clean_cons_digit {d : Char} (hd : d.isDigit) : clean (d :: ds) = d :: clean ds := by
  have hne : d ≠ '_' := Reader.ne_of_isDigit hd rfl
  simp [clean, hne]

/-- The digits behind the sign are not empty, and nothing but digits. -/
theorem clean_digits {d : Char} (hd : d.isDigit) (hds : ∀ c ∈ ds, c.isDigit ∨ c = '_') :
    clean (d :: ds) ≠ [] ∧ ∀ c ∈ clean (d :: ds), c.isDigit := by
  rw [clean_cons_digit hd]
  exact ⟨List.cons_ne_nil _ _, List.forall_mem_cons.mpr ⟨hd, isDigit_of_mem_clean hds⟩⟩

namespace IntegerWord

theorem numeric (h : IntegerWord w i) : Numeric w := by
  cases h with
  | plain hd => exact .plain hd
  | minus hd => exact .minus hd

theorem digits (h : IntegerWord w i) : Digits (clean w) i := by
  cases h with
  | plain hd hds =>
    obtain ⟨hne, hall⟩ := clean_digits hd hds
    exact .plain hne hall
  | @minus d ds hd hds =>
    obtain ⟨hne, hall⟩ := clean_digits hd hds
    have hclean : clean ('-' :: d :: ds) = '-' :: clean (d :: ds) := by simp [clean]
    rw [hclean]
    exact .minus hne hall

theorem word (h : IntegerWord w i) : Word w := by
  have hdigit {c : Char} (hc : c.isDigit) : c ∉ ends := fun he => by
    rw [← endsWord_iff, Reader.endsWord_of_isDigit hc] at he
    cases he
  have hrest {c : Char} (hc : c.isDigit ∨ c = '_') : c ∉ ends := by
    rcases hc with hc | rfl
    · exact hdigit hc
    · decide
  cases h with
  | plain hd hds =>
    refine ⟨List.cons_ne_nil _ _, List.forall_mem_cons.mpr ⟨hdigit hd, fun c hc => ?_⟩⟩
    exact hrest (hds c hc)
  | minus hd hds =>
    refine ⟨List.cons_ne_nil _ _, List.forall_mem_cons.mpr ⟨by decide, ?_⟩⟩
    exact List.forall_mem_cons.mpr ⟨hdigit hd, fun c hc => hrest (hds c hc)⟩

end IntegerWord

/-- The child that an integer word is read as: its digits when the integer has more than 64 bits. -/
def integerChild (w : List Char) (i : Int) : Child :=
  if Number.isWord i then .int (Int64.ofInt i) else .text (String.ofList (clean w))

theorem IntegerWord.numeral (h : IntegerWord w i) : Numeral w (integerChild w i) := by
  rw [integerChild]
  split
  · rename_i hword
    exact .int h.digits (isWord_iff.mp hword).1 (isWord_iff.mp hword).2
  · rename_i hword
    exact .digits h.digits fun hi => hword (isWord_iff.mpr hi)

theorem IntegerWord.parse (h : IntegerWord w i) :
    Tree.parse (String.ofList ("(int ".toList ++ w ++ [')'])) =
      .ok ⟨"int", [integerChild w i]⟩ := by
  have hnone : Blanks [] := List.forall_mem_nil _
  have htag : Word ['i', 'n', 't'] := ⟨List.cons_ne_nil _ _, by simp [ends, blanks]⟩
  have hclose : Siblings Unquoted [')'] [] := .close (b := []) hnone
  have hchild : Siblings Unquoted ([' '] ++ w ++ [')']) [integerChild w i] :=
    .bare (by decide) (.number h.word h.numeric h.numeral) ⟨')', [], rfl, by decide⟩ hclose
  have hnode := Node.mk hnone htag ⟨' ', _, rfl, by decide⟩ hchild
  refine parse_of_written ⟨[], _, [], ?_, hnone, hnode, hnone⟩
  rw [String.toList_ofList, List.append_nil]
  rfl

end Grammar

/-! ## Building -/

open Grammar Relation

/-- A numeral is built into the integer that it stands for. -/
theorem Build.integer?_of_digits {w : List Char} {i : Int} (h : Digits w i) :
    Build.integer? w = some i := by
  have hall {ds : List Char} (hds : ∀ c ∈ ds, c.isDigit) :
      (ds.all fun c => c.isDigit || c == '_') = true :=
    List.all_eq_true.mpr fun c hc => by rw [hds c hc, Bool.true_or]
  have hclean {ds : List Char} (hds : ∀ c ∈ ds, c.isDigit) : ds.filter (· != '_') = ds :=
    List.filter_eq_self.mpr fun c hc => bne_iff_ne.mpr (Reader.ne_of_isDigit (hds c hc) rfl)
  -- no sign and no underscore stands in front of the digits
  have hhead {ds cs : List Char} {c : Char} (hds : ∀ c ∈ ds, c.isDigit) (hc : c.isDigit = false) :
      ds ≠ c :: cs := by
    rintro rfl
    exact Bool.noConfusion (hc.symm.trans (hds c List.mem_cons_self))
  cases h with
  | plain hne hds =>
    rw [Build.integer?, if_pos (hall hds), hclean hds]
    · rfl
    · exact fun _ => hhead hds rfl
    · exact fun _ => hhead hds rfl
    · exact fun _ => hhead hds rfl
    · exact fun _ => hhead hds rfl
    · exact hne
    · exact fun _ => hhead hds rfl
  | minus hne hds =>
    rw [Build.integer?, if_pos (hall hds), hclean hds]
    · rfl
    · exact fun _ => hhead hds rfl
    · exact fun _ => hhead hds rfl
    · exact hne
    · exact fun _ => hhead hds rfl

/-- A child for an integer: the integer itself if it has 64 bits, or a numeral of it. -/
inductive Child.Holds : Child → Int → Prop
  | int {i : Int} : Number.isWord i → Holds (.int (Int64.ofInt i)) i
  | text {ds : List Char} {i : Int} : Digits ds i → Holds (.text (String.ofList ds)) i

theorem Expr.ofTree_int {c : Child} {i : Int} (h : c.Holds i) :
    Expr.ofTree ⟨"int", [c]⟩ = .ok (.int i) := by
  have hdepth : Tree.depth ⟨"int", [c]⟩ = 1 := by cases h <;> rfl
  have hint : Build.int ⟨"int", [c]⟩ = pure (.int i) := by
    cases h with
    | int hi =>
      obtain ⟨hlow, hhigh⟩ := isWord_iff.mp hi
      have hvalue : (Int64.ofInt i).toInt = i := Int64.toInt_ofInt_of_le hlow hhigh
      exact congrArg (fun i => pure (Expr.int i)) hvalue
    | @text ds _ hds =>
      have hvalue : Build.integer? (String.ofList ds).toList = some i := by
        rw [String.toList_ofList, Build.integer?_of_digits hds]
      simp only [Build.int, Tree.child?, List.getElem?_cons_zero, hvalue]
  have hform : (Build.below 1).expr ⟨"int", [c]⟩ = Build.int ⟨"int", [c]⟩ := rfl
  rw [Expr.ofTree, hdepth, hform, hint]
  rfl

/-! ## Running -/

namespace Store

variable {s : Store} {i : Int}

theorem runProgram_int_of_run {v : Value} {t : Store}
    (h : ∀ e, (Eval.newInt i).run e s = .ok v t) : s.runProgram (.int i) = (.value v, t) := by
  have hfuel : defaultFuel = defaultFuel - 1 + 1 := rfl
  have hrun : (Eval.perform (.eval (.int i)) : Eval Value).run (.ofFuel defaultFuel) s =
      .ok v t := by
    rw [hfuel]
    exact (Eval.eval_run (.int i)).trans (h _)
  rw [runProgram, evaluate, hrun]

/-- The program that is an integer ends with an object that holds it: with the one that is there for
an integer of the interned range, and with a new one for another. -/
theorem runProgram_int (hs : s.Interned) (i : Int) :
    ∃ v t, s.runProgram (.int i) = (.value v, t) ∧ t.payload v = .integer i ∧
      (s.config.interns i = true → t = s ∧ ∀ u, s.payload u = .integer i → u = v) ∧
      (s.config.interns i = false → v = ⟨s.objects.size⟩) := by
  cases hi : s.config.interns i with
  | true =>
    have hsingle : Payload.Single s.config (.integer i) := hi
    refine ⟨_, _, runProgram_int_of_run fun e => newInt_run_interned hi e,
      (hs (.integer i) _ hsingle).mpr rfl, fun _ => ⟨rfl, fun u hu => ?_⟩, nofun⟩
    exact (Option.some.inj ((hs (.integer i) u hsingle).mp hu)).symm
  | false =>
    exact ⟨_, _, runProgram_int_of_run fun e => newInt_run_fresh hi e,
      congrArg Object.payload (object_alloc s _), nofun, fun _ => rfl⟩

end Store

/-- An integer word is read as one child, the integer if it has 64 bits and the digits otherwise.
With this child, and with the digits whether the integer has 64 bits or not, the tree is built into a
program that ends with the integer whenever a session runs it: with the object that is there already
if the integer is one of the interned range, and with a new object otherwise. -/
theorem integerWord_evaluates {w : List Char} {i : Int} (hw : IntegerWord w i) :
    Tree.parse (String.ofList ("(int ".toList ++ w ++ [')'])) = .ok ⟨"int", [integerChild w i]⟩ ∧
    ∀ c, c = integerChild w i ∨ c = .text (String.ofList (clean w)) →
      ∃ program, Expr.ofTree ⟨"int", [c]⟩ = .ok program ∧
        ∀ config input s, ReflTransGen Leads (.start config input) s →
          ∃ v t, s.runProgram program = (.value v, t) ∧ t.payload v = .integer i ∧
            (config.cacheMin ≤ i → i ≤ config.cacheMax →
              t = s ∧ ∀ u, s.payload u = .integer i → u = v) ∧
            (¬(config.cacheMin ≤ i ∧ i ≤ config.cacheMax) → v = ⟨s.objects.size⟩) := by
  refine ⟨hw.parse, fun c hc => ⟨.int i, Expr.ofTree_int ?_, fun config input s hs => ?_⟩⟩
  · rcases hc with rfl | rfl
    · rw [integerChild]
      split
      · exact .int ‹_›
      · exact .text hw.digits
    · exact .text hw.digits
  · have hconfig : s.config = config := Store.config_of_leads hs
    have hinterns : s.config.interns i = true ↔ config.cacheMin ≤ i ∧ i ≤ config.cacheMax := by
      rw [hconfig, Config.interns, Bool.and_eq_true, decide_eq_true_iff, decide_eq_true_iff]
    obtain ⟨v, t, hrun, hv, hthere, hnew⟩ := Store.runProgram_int (Store.interned_of_leads hs) i
    exact ⟨v, t, hrun, hv, fun hmin hmax => hthere (hinterns.mpr ⟨hmin, hmax⟩), fun hi =>
      hnew (Bool.eq_false_iff.mpr fun h => hi (hinterns.mp h))⟩

/-- Below the integers of 64 bits, and among those that are interned. -/
theorem integerWord_evaluates_both :
    IntegerWord "-9223_372036854775809".toList (-9223372036854775809) ∧
    Tree.parse "(int -9223_372036854775809)" =
      .ok ⟨"int", [.text "-9223372036854775809"]⟩ ∧
    IntegerWord "0_07_".toList 7 ∧ Tree.parse "(int 0_07_)" = .ok ⟨"int", [.int 7]⟩ ∧
    ∃ program, Expr.ofTree ⟨"int", [.text "007"]⟩ = .ok program ∧
      ∃ v, (Store.start {} []).runProgram program = (.value v, .start {} []) ∧
        (Store.start {} []).payload v = .integer 7 := by
  have hrest {ds : List Char} (h : (ds.all fun c => c.isDigit || c == '_') = true) :
      ∀ c ∈ ds, c.isDigit ∨ c = '_' := by simpa using h
  have hlong : IntegerWord "-9223_372036854775809".toList (-9223372036854775809) :=
    .minus rfl (hrest rfl)
  have hshort : IntegerWord "0_07_".toList 7 := .plain rfl (hrest rfl)
  obtain ⟨hparse, -⟩ := integerWord_evaluates hlong
  obtain ⟨hparse', hruns⟩ := integerWord_evaluates hshort
  obtain ⟨program, hprogram, hrun⟩ := hruns (.text "007") (.inr rfl)
  obtain ⟨v, t, hvalue, hv, hthere, -⟩ := hrun {} [] _ .refl
  obtain ⟨rfl, -⟩ := hthere (by decide) (by decide)
  exact ⟨hlong, hparse, hshort, hparse', program, hprogram, v, hvalue, hv⟩

end Garnet
