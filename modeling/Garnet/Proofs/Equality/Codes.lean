import Garnet.Proofs.Equality.Keys

/-!
# Codes of equal keys

A code is made of words: one for a number, a text, nil or a truth value, two for a symbol, and those
of its elements for an array. Keys that are equal feed the same words, and so have one code, unless
one of them holds a zero where the other holds the zero of the other sign: these are equal as
numbers, and their code is made of their bits.
-/

namespace Garnet

/-- The words that a code is made of, in the order in which they are mixed. -/
def Store.wordsWithin (s : Store) : Nat → Value → List UInt64
  | 0, v => [hash v.index]
  | n + 1, v =>
    match s.payload v with
    | .integer i => [hash i]
    | .float x => [hash x.toBits]
    | .text t => [hash t]
    | .symbol t => [58, hash t]
    | .nil => [1000001]
    | .true => [1000002]
    | .false => [1000003]
    | .array xs => xs.toList.flatMap (s.wordsWithin n)
    | .hash t => [(t.table.keys.map (s.codeWithin n 11)).foldl (· + ·) 13]
    | _ => [hash v.index]

def Store.words (s : Store) (v : Value) : List UInt64 := s.wordsWithin s.objects.size v

/-- Whether somewhere one value holds a zero and the other one the zero of the other sign. -/
def Store.ZerosMeetWithin (s : Store) : Nat → Value → Value → Prop
  | 0, _, _ => False
  | n + 1, a, b =>
    match s.payload a, s.payload b with
    | .float x, .float y => Doubles.OppositeZeros x y
    | .array xs, .array ys => ∃ p ∈ xs.toList.zip ys.toList, s.ZerosMeetWithin n p.1 p.2
    | _, _ => False

def Store.ZerosMeet (s : Store) (a b : Value) : Prop := s.ZerosMeetWithin s.objects.size a b

variable {s : Store} {a b v : Value} {n : Nat}

/-- Rows that are joined from parts of the same lengths have the same length, and are the same if
no two parts at one place differ. -/
theorem flatMap_of_parts {α β : Type} {f : α → List β} {differ : α → α → Prop} {l m : List α}
    (h : List.Forall₂ (fun x y => (f x).length = (f y).length ∧ (f x = f y ↔ ¬differ x y)) l m) :
    (l.flatMap f).length = (m.flatMap f).length ∧
      (l.flatMap f = m.flatMap f ↔ ¬∃ p ∈ l.zip m, differ p.1 p.2) := by
  induction h with
  | nil => simp
  | @cons x y l m hxy _ ih =>
    obtain ⟨hlength, hsame⟩ := hxy
    rw [List.flatMap_cons, List.flatMap_cons, List.length_append, List.length_append,
      List.zip_cons_cons]
    simp only [List.mem_cons, exists_eq_or_imp, not_or]
    rw [← hsame, ← ih.2]
    refine ⟨by rw [hlength, ih.1], fun h => List.append_inj h hlength, ?_⟩
    rintro ⟨hx, hl⟩
    rw [hx, hl]

namespace Store

/-! ## Codes by words -/

theorem codeWithin_eq (n : Nat) (h : UInt64) (v : Value) :
    s.codeWithin n h v = (s.wordsWithin n v).foldl mixCode h := by
  induction n generalizing h v with
  | zero => rfl
  | succ n ih =>
    rw [codeWithin, wordsWithin]
    cases s.payload v with
    | array xs =>
      dsimp only
      rw [List.foldl_flatMap]
      simp only [ih]
    | _ => rfl

/-- The code of a value is made of its words. -/
theorem hashCode_eq : s.hashCode v = ((s.words v).foldl mixCode 7).toInt64.toInt / 4 := by
  rw [hashCode, codeWithin_eq, words]

theorem not_zerosMeetWithin_self : ¬s.ZerosMeetWithin n v v := by
  induction n generalizing v with
  | zero => exact id
  | succ n ih =>
    rw [ZerosMeetWithin]
    cases s.payload v with
    | float x => exact fun h => h.ne rfl
    | array xs =>
      rintro ⟨p, hmem, hmeet⟩
      rw [List.zip_eq_zipWith, List.zipWith_self, List.mem_map] at hmem
      obtain ⟨x, -, rfl⟩ := hmem
      exact ih hmeet
    | _ => exact id

/-- Keys that are equal have as many words, and the same unless opposite zeros meet. -/
theorem wordsWithin_of_keyEql (h : s.keyEqlWithin n a b = true) :
    (s.wordsWithin n a).length = (s.wordsWithin n b).length ∧
      (s.wordsWithin n a = s.wordsWithin n b ↔ ¬s.ZerosMeetWithin n a b) := by
  induction n generalizing a b with
  | zero =>
    cases eq_of_beq h
    exact ⟨rfl, iff_of_true rfl id⟩
  | succ n ih =>
    cases keyEqlWithin_succ.mp h with
    | itself h =>
      subst h
      exact ⟨rfl, iff_of_true rfl not_zerosMeetWithin_self⟩
    | integers ha hb | texts ha hb | symbols ha hb =>
      simp only [wordsWithin, ZerosMeetWithin, ha, hb, not_false_eq_true, and_self]
    | @floats x y ha hb h =>
      simp only [wordsWithin, ZerosMeetWithin, ha, hb, List.length_singleton, true_and]
      have hbits : [hash x.toBits] = [hash y.toBits] ↔ x = y :=
        ⟨fun h => Doubles.toBits_injective (List.singleton_injective h), fun h => h ▸ rfl⟩
      rw [hbits]
      constructor
      · exact fun heq hmeet => hmeet.ne heq
      · exact fun hmeet => ((Doubles.beq_iff.mp h).resolve_right hmeet).1
    | arrays ha hb h =>
      simp only [wordsWithin, ZerosMeetWithin, ha, hb]
      exact flatMap_of_parts (h.imp fun _ _ => ih)

/-- Keys that are equal have the same words, and so the same code, except where one holds a zero
and the other one the zero of the other sign. -/
theorem words_eq_iff_of_keyEql (h : s.keyEql a b = true) :
    (s.words a = s.words b ↔ ¬s.ZerosMeet a b) ∧
      (¬s.ZerosMeet a b → s.hashCode a = s.hashCode b) := by
  have hwords : s.words a = s.words b ↔ ¬s.ZerosMeet a b := (wordsWithin_of_keyEql h).2
  refine ⟨hwords, fun hmeet => ?_⟩
  rw [hashCode_eq, hashCode_eq, hwords.mpr hmeet]

/-- The two zeros, and an array of each beside a text. -/
def twoZeros : Store where
  config := {}
  objects := #[{ cls := ⟨0⟩, payload := .float 0.0 }, { cls := ⟨0⟩, payload := .float (-0.0) },
    { cls := ⟨0⟩, payload := .text "a" }, { cls := ⟨0⟩, payload := .array #[⟨2⟩, ⟨0⟩] },
    { cls := ⟨0⟩, payload := .array #[⟨2⟩, ⟨1⟩] }, { cls := ⟨0⟩, payload := .array #[⟨2⟩, ⟨0⟩] }]
  scopes := #[]
  frames := []
  scopeStack := []

/-- Equal arrays of two zeros have other words, those of one zero have one code. -/
theorem words_eq_iff_twoZeros :
    twoZeros.keyEql ⟨3⟩ ⟨4⟩ = true ∧ twoZeros.words ⟨3⟩ ≠ twoZeros.words ⟨4⟩ ∧
      twoZeros.keyEql ⟨3⟩ ⟨5⟩ = true ∧ twoZeros.hashCode ⟨3⟩ = twoZeros.hashCode ⟨5⟩ := by
  have hopposite : twoZeros.keyEql ⟨3⟩ ⟨4⟩ = true := rfl
  have hsame : twoZeros.keyEql ⟨3⟩ ⟨5⟩ = true := rfl
  have hmeet : twoZeros.ZerosMeet ⟨3⟩ ⟨4⟩ :=
    ⟨(⟨0⟩, ⟨1⟩), .tail _ (.head _), .inl ⟨rfl, rfl⟩⟩
  have happart : ¬twoZeros.ZerosMeet ⟨3⟩ ⟨5⟩ := by
    rintro ⟨p, hmem, hmeet⟩
    have hp : p ∈ [((⟨2⟩, ⟨2⟩) : Value × Value), (⟨0⟩, ⟨0⟩)] := hmem
    rw [List.mem_pair] at hp
    obtain rfl | rfl := hp <;> exact not_zerosMeetWithin_self hmeet
  refine ⟨hopposite, fun h => ?_, hsame, (words_eq_iff_of_keyEql hsame).2 happart⟩
  exact (words_eq_iff_of_keyEql hopposite).1.mp h hmeet

end Store

end Garnet
