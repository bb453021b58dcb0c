import Garnet.Number.Digits
import Garnet.Proofs.Hashes.Datum
import Garnet.Proofs.Texts.Digits
import Garnet.Text.Inspect
import Mathlib.Data.List.Basic

/-!
# Texts, symbols and data as they are inspected

What is written between quotes is made of one block for each character. A block has one of three
forms, and tells where it ends and which character it stands for, so that a text in quotes can be
read back whatever comes after it. A symbol is written bare only when its name holds no quote, comma
or bracket, two operators apart, and is then read back up to the comma or bracket after it.

The text that stands for a datum tells by its first character which kind of datum it is, and where
it ends: an element of an array is followed by a comma or a bracket, whatever is in it. So no two
data are written alike.
-/

namespace Garnet.Text

/-! ## Texts -/

/-- The characters that are written as a letter or themselves after a backslash. -/
def namedEscapes : List (Char × Char) :=
  [('"', '"'), ('\\', '\\'), ('#', '#'), ('n', '\n'), ('t', '\t'), ('r', '\r'), ('e', '\x1b')]

/-- The forms in which a character is written between quotes. -/
inductive Escaped : Char → List Char → Prop
  | plain {c : Char} (hquote : c ≠ '"') (hslash : c ≠ '\\') : Escaped c [c]
  | named {c e : Char} (h : namedEscapes.lookup e = some c) : Escaped c ['\\', e]
  | hex {c : Char} (h : c.toNat < 128) : Escaped c ('\\' :: 'x' :: hexPair c.toNat)

variable {c c' : Char} {b b' cs ds rest rest' : List Char} {s t : String}

theorem Escaped.of_beq {e : Char} (h : (c == c') = true) (he : namedEscapes.lookup e = some c') :
    Escaped c ['\\', e] := by
  rw [eq_of_beq h]
  exact .named he

/-- Each character is written in one of the forms. -/
theorem exists_escaped (c : Char) (cs : List Char) :
    ∃ b, Escaped c b ∧ inspectChars (c :: cs) = b ++ inspectChars cs := by
  rw [inspectChars]
  refine ⟨_, ?_, rfl⟩
  split
  · next h => exact .of_beq h rfl
  next hquote =>
  split
  · next h => exact .of_beq h rfl
  next hslash =>
  split
  · next h => exact .of_beq h rfl
  split
  · next h => exact .of_beq h rfl
  split
  · next h => exact .of_beq h rfl
  split
  · next h => exact .of_beq h rfl
  split
  · next h => exact .of_beq (Bool.and_eq_true_iff.mp h).1 rfl
  split
  · next h =>
    simp only [Bool.or_eq_true, decide_eq_true_eq, beq_iff_eq] at h
    exact .hex (by omega)
  · exact .plain (fun h => hquote (beq_iff_eq.mpr h)) fun h => hslash (beq_iff_eq.mpr h)

theorem length_hexPair {n : Nat} (h : n < 128) : (hexPair n).length = 2 := by
  have hall : ∀ n < 128, (hexPair n).length = 2 := by decide
  exact hall n h

theorem ofDigits_hexPair {n : Nat} (h : n < 128) : Number.ofDigits 16 (hexPair n) = n := by
  have hall : ∀ n < 128, Number.ofDigits 16 (hexPair n) = n := by decide
  exact hall n h

theorem hexPair_append_inj {m n : Nat} (hm : m < 128) (hn : n < 128)
    (h : hexPair m ++ rest = hexPair n ++ rest') : m = n ∧ rest = rest' := by
  obtain ⟨hpair, hrest⟩ :=
    List.append_inj h ((length_hexPair hm).trans (length_hexPair hn).symm)
  refine ⟨?_, hrest⟩
  rw [← ofDigits_hexPair hm, hpair, ofDigits_hexPair hn]

/-- The form of a block is told by its first two characters. -/
theorem Escaped.append_inj (h : Escaped c b) (h' : Escaped c' b')
    (heq : b ++ rest = b' ++ rest') : c = c' ∧ rest = rest' := by
  have hx : namedEscapes.lookup 'x' = none := by decide
  cases h with
  | plain _ hslash =>
    cases h' with
    | plain => exact List.cons.inj heq
    | named | hex => exact absurd (List.cons.inj heq).1 hslash
  | named hc =>
    cases h' with
    | plain _ hslash => exact absurd (List.cons.inj heq).1.symm hslash
    | named hc' =>
      obtain ⟨he, hrest⟩ := List.cons.inj (List.cons.inj heq).2
      exact ⟨Option.some.inj (hc.symm.trans (he ▸ hc')), hrest⟩
    | hex =>
      rw [(List.cons.inj (List.cons.inj heq).2).1, hx] at hc
      cases hc
  | hex hc =>
    cases h' with
    | plain _ hslash => exact absurd (List.cons.inj heq).1.symm hslash
    | named hc' =>
      rw [← (List.cons.inj (List.cons.inj heq).2).1, hx] at hc'
      cases hc'
    | hex hc' =>
      obtain ⟨hn, hrest⟩ := hexPair_append_inj hc hc' (List.cons.inj (List.cons.inj heq).2).2
      exact ⟨Char.toNat_inj.mp hn, hrest⟩

/-- No block begins with the quote that ends a text. -/
theorem Escaped.append_ne (h : Escaped c b) : b ++ rest ≠ '"' :: rest' := by
  intro heq
  cases h with
  | plain hquote => exact hquote (List.cons.inj heq).1
  | named | hex => exact absurd (List.cons.inj heq).1 (by decide)

/-- A text is read back up to the quote after it. -/
theorem inspectChars_append_inj
    (h : inspectChars cs ++ '"' :: rest = inspectChars ds ++ '"' :: rest') :
    cs = ds ∧ rest = rest' := by
  induction cs generalizing ds with
  | nil =>
    cases ds with
    | nil => exact ⟨rfl, (List.cons.inj h).2⟩
    | cons d ds =>
      obtain ⟨b, hb, hblock⟩ := exists_escaped d ds
      rw [hblock, List.append_assoc] at h
      exact absurd h.symm hb.append_ne
  | cons c cs ih =>
    obtain ⟨b, hb, hblock⟩ := exists_escaped c cs
    rw [hblock, List.append_assoc] at h
    cases ds with
    | nil => exact absurd h hb.append_ne
    | cons d ds =>
      obtain ⟨b', hb', hblock'⟩ := exists_escaped d ds
      rw [hblock', List.append_assoc] at h
      obtain ⟨rfl, htail⟩ := hb.append_inj hb' h
      obtain ⟨rfl, hrest⟩ := ih htail
      exact ⟨rfl, hrest⟩

theorem toList_inspectText (s : String) :
    (inspectText s).toList = '"' :: (inspectChars s.toList ++ ['"']) :=
  String.toList_ofList

theorem inspectText_append_inj
    (h : (inspectText s).toList ++ rest = (inspectText t).toList ++ rest') :
    s = t ∧ rest = rest' := by
  rw [toList_inspectText, toList_inspectText, List.cons_append, List.cons_append,
    List.append_assoc, List.append_assoc] at h
  obtain ⟨hst, hrest⟩ := inspectChars_append_inj (List.cons.inj h).2
  exact ⟨String.toList_inj.mp hst, hrest⟩

theorem inspectText_injective : Function.Injective inspectText := by
  intro s t h
  have hempty : (inspectText s).toList ++ [] = (inspectText t).toList ++ [] := by rw [h]
  exact (inspectText_append_inj hempty).1

/-! ## Words -/

/-- What may come after a word: nothing, a comma or a closing bracket. -/
def Delimits : List Char → Prop
  | [] => True
  | c :: _ => c = ',' ∨ c = ']'

def reserved : List Char := ['"', ',', '[', ']']

/-- What is written without quotes, commas and brackets. -/
def Plain (cs : List Char) : Prop := ∀ c ∈ cs, c ∉ reserved

theorem Plain.nil : Plain [] := List.forall_mem_nil _

theorem Plain.cons (hc : c ∉ reserved) (h : Plain cs) : Plain (c :: cs) :=
  List.forall_mem_cons.mpr ⟨hc, h⟩

theorem Plain.concat (h : Plain cs) (hc : c ∉ reserved) : Plain (cs ++ [c]) :=
  List.forall_mem_append.mpr ⟨h, List.forall_mem_singleton.mpr hc⟩

theorem Plain.head (h : Plain (c :: cs)) : c ∉ reserved := h c List.mem_cons_self

theorem Plain.tail (h : Plain (c :: cs)) : Plain cs := (List.forall_mem_cons.mp h).2

theorem Plain.not_delimits (h : Plain (c :: cs)) : ¬Delimits (c :: rest) := by
  intro hdelimits
  refine h.head ?_
  rcases hdelimits with rfl | rfl <;> decide

/-- A word is read back up to the comma or bracket after it. -/
theorem Plain.append_inj (hc : Plain cs) (hd : Plain ds) (hrest : Delimits rest)
    (hrest' : Delimits rest') (h : cs ++ rest = ds ++ rest') : cs = ds ∧ rest = rest' := by
  induction cs generalizing ds with
  | nil =>
    cases ds with
    | nil => exact ⟨rfl, h⟩
    | cons d ds =>
      rw [List.nil_append] at h
      exact absurd (h ▸ hrest) hd.not_delimits
  | cons c cs ih =>
    cases ds with
    | nil =>
      rw [List.nil_append] at h
      exact absurd (h ▸ hrest') hc.not_delimits
    | cons d ds =>
      obtain ⟨rfl, htail⟩ := List.cons.inj h
      obtain ⟨rfl, hrest⟩ := ih hc.tail hd.tail htail
      exact ⟨rfl, hrest⟩

/-- A word does not begin as a text or an array does. -/
theorem Plain.append_ne (h : Plain cs) (hrest : Delimits rest) (hc : c = '"' ∨ c = '[') :
    cs ++ rest ≠ c :: rest' := by
  intro heq
  cases cs with
  | nil =>
    rw [List.nil_append] at heq
    rw [heq] at hrest
    rcases hc with rfl | rfl <;> rcases hrest with h | h <;> cases h
  | cons d cs =>
    refine h.head ?_
    rw [(List.cons.inj heq).1]
    rcases hc with rfl | rfl <;> decide

/-! ## Symbols -/

/-- The names that are written bare: words, and operators that begin with brackets. -/
inductive Bare : List Char → Prop
  | word {cs : List Char} (h : Plain cs) : Bare cs
  | brackets {cs : List Char} (h : Plain cs) : Bare ('[' :: ']' :: cs)

theorem not_mem_reserved {p : Char → Bool} (hp : reserved.any p = false) (hc : p c = true) :
    c ∉ reserved :=
  fun hmem => List.any_eq_false.mp hp c hmem hc

theorem plain_of_isIdentifier (h : isIdentifier cs = true) : Plain cs := by
  cases cs with
  | nil => cases h
  | cons c cs =>
    rw [isIdentifier, Bool.and_eq_true] at h
    have hletter : c ∉ reserved :=
      not_mem_reserved (p := fun c => isAlphabetic c || c == '_') (by decide) h.1
    refine .cons hletter fun d hd => ?_
    exact not_mem_reserved (p := fun c => isAlphanumeric c || c == '_') (by decide)
      (List.all_eq_true.mp h.2 d hd)

/-- The sigils and marks of a name are not reserved. -/
theorem plain_of_nameBody (h : Plain (nameBody cs)) : Plain cs := by
  rw [nameBody.eq_def] at h
  split at h
  · exact .cons (by decide) (.cons (by decide) h)
  · exact .cons (by decide) h
  · exact .cons (by decide) h
  · cases hlast : cs.getLast? with
    | none => rwa [hlast] at h
    | some c =>
      simp only [hlast, Bool.or_eq_true, beq_iff_eq] at h
      split at h
      · next hmark =>
        rw [← List.dropLast_append_getLast? c hlast]
        refine h.concat ?_
        rcases hmark with (rfl | rfl) | rfl <;> decide
      · exact h

theorem bare_of_isPlainSymbol (h : isPlainSymbol s = true) : Bare s.toList := by
  have hoperators : operatorNames.all (fun t =>
      !t.toList.any reserved.contains || t == "[]" || t == "[]=") = true := by decide +kernel
  rcases Bool.or_eq_true_iff.mp h with h | h
  · have hs := List.all_eq_true.mp hoperators s (List.contains_iff_mem.mp h)
    simp only [Bool.or_eq_true, Bool.not_eq_true', beq_iff_eq] at hs
    rcases hs with (hs | rfl) | rfl
    · exact .word fun c hc hmem =>
        List.any_eq_false.mp hs c hc (List.contains_iff_mem.mpr hmem)
    · exact .brackets .nil
    · exact .brackets (.cons (by decide) .nil)
  · exact .word (plain_of_nameBody (plain_of_isIdentifier h))

/-- A bare name is read back up to the comma or bracket after it. -/
theorem Bare.append_inj (hc : Bare cs) (hd : Bare ds) (hrest : Delimits rest)
    (hrest' : Delimits rest') (h : cs ++ rest = ds ++ rest') : cs = ds ∧ rest = rest' := by
  cases hc with
  | word hc =>
    cases hd with
    | word hd => exact hc.append_inj hd hrest hrest' h
    | brackets => exact absurd h (hc.append_ne hrest (.inr rfl))
  | brackets hc =>
    cases hd with
    | word hd => exact absurd h.symm (hd.append_ne hrest' (.inr rfl))
    | brackets hd =>
      obtain ⟨rfl, hrest⟩ :=
        hc.append_inj hd hrest hrest' (List.cons.inj (List.cons.inj h).2).2
      exact ⟨rfl, hrest⟩

/-- A bare name is not taken for a text. -/
theorem Bare.append_ne (h : Bare cs) (hrest : Delimits rest) : cs ++ rest ≠ '"' :: rest' := by
  cases h with
  | word h => exact h.append_ne hrest (.inl rfl)
  | brackets => exact fun heq => absurd (List.cons.inj heq).1 (by decide)

theorem toList_inspectSymbol (s : String) :
    (inspectSymbol s).toList = ':' :: (if isPlainSymbol s then s else inspectText s).toList :=
  String.toList_append

theorem inspectSymbol_append_inj (hrest : Delimits rest) (hrest' : Delimits rest')
    (h : (inspectSymbol s).toList ++ rest = (inspectSymbol t).toList ++ rest') :
    s = t ∧ rest = rest' := by
  rw [toList_inspectSymbol, toList_inspectSymbol, List.cons_append, List.cons_append] at h
  have h := (List.cons.inj h).2
  cases hs : isPlainSymbol s with
  | true =>
    have hbare := bare_of_isPlainSymbol hs
    rw [hs, if_pos rfl] at h
    cases ht : isPlainSymbol t with
    | true =>
      rw [ht, if_pos rfl] at h
      obtain ⟨hst, hrest⟩ := hbare.append_inj (bare_of_isPlainSymbol ht) hrest hrest' h
      exact ⟨String.toList_inj.mp hst, hrest⟩
    | false =>
      rw [ht, if_neg Bool.false_ne_true, toList_inspectText, List.cons_append] at h
      exact absurd h (hbare.append_ne hrest)
  | false =>
    rw [hs, if_neg Bool.false_ne_true] at h
    cases ht : isPlainSymbol t with
    | true =>
      rw [ht, if_pos rfl, toList_inspectText, List.cons_append] at h
      exact absurd h.symm ((bare_of_isPlainSymbol ht).append_ne hrest')
    | false =>
      rw [ht, if_neg Bool.false_ne_true] at h
      exact inspectText_append_inj h

theorem inspectSymbol_injective : Function.Injective inspectSymbol := by
  intro s t h
  have hnil : Delimits [] := trivial
  have hempty : (inspectSymbol s).toList ++ [] = (inspectSymbol t).toList ++ [] := by rw [h]
  exact (inspectSymbol_append_inj hnil hnil hempty).1

end Garnet.Text

namespace Garnet

open Text (Delimits Plain inspectText inspectSymbol)

mutual

/-- The text that `inspect` gives for a datum. -/
def Datum.shown : Datum → String
  | .nil => "nil"
  | .bool b => if b then "true" else "false"
  | .integer i => String.ofList (Number.inRadix 10 i)
  | .text t => inspectText t
  | .symbol t => inspectSymbol t
  | .list ds => "[" ++ ", ".intercalate (Datum.shownAll ds) ++ "]"

def Datum.shownAll : List Datum → List String
  | [] => []
  | d :: ds => d.shown :: Datum.shownAll ds

end

namespace Datum

variable {d d' : Datum} {ds ds' : List Datum} {c : Char} {cs rest rest' : List Char}

/-! ## Kinds -/

inductive Kind where
  | nil
  | bool
  | integer
  | text
  | symbol
  | list
  deriving DecidableEq

def kind : Datum → Kind
  | .nil => .nil
  | .bool _ => .bool
  | .integer _ => .integer
  | .text _ => .text
  | .symbol _ => .symbol
  | .list _ => .list

/-- The kind of the data whose texts begin with a character. -/
def Kind.ofChar? (c : Char) : Option Kind :=
  if c = 'n' then some .nil
  else if c = 't' ∨ c = 'f' then some .bool
  else if c = '"' then some .text
  else if c = ':' then some .symbol
  else if c = '[' then some .list
  else if c = '-' ∨ c.isDigit then some .integer
  else none

theorem toList_shown_list :
    (list ds).shown.toList = '[' :: ((", ".intercalate (shownAll ds)).toList ++ [']']) := by
  rw [shown, String.toList_append, String.toList_append]
  rfl

/-- The first character of a text tells the kind of the datum. -/
theorem exists_toList_shown (d : Datum) :
    ∃ c cs, d.shown.toList = c :: cs ∧ Kind.ofChar? c = some d.kind := by
  cases d with
  | nil => exact ⟨'n', "il".toList, rfl, rfl⟩
  | bool b =>
    cases b with
    | true => exact ⟨'t', "rue".toList, rfl, rfl⟩
    | false => exact ⟨'f', "alse".toList, rfl, rfl⟩
  | integer i =>
    have hdigits : ∀ d < 10, Kind.ofChar? (Number.digitChar d) = some .integer := by decide
    obtain ⟨c, cs, hcs, hchars⟩ := Number.exists_inRadix_eq (by decide : 2 ≤ 10) (by decide) i
    refine ⟨c, cs, String.toList_ofList.trans hcs, ?_⟩
    obtain rfl | ⟨d, hd, rfl⟩ := hchars c List.mem_cons_self
    · rfl
    · exact hdigits d hd
  | text t => exact ⟨'"', _, Text.toList_inspectText t, rfl⟩
  | symbol t => exact ⟨':', _, Text.toList_inspectSymbol t, rfl⟩
  | list ds => exact ⟨'[', _, toList_shown_list, rfl⟩

/-- Texts that begin alike are texts of one kind. -/
theorem kind_eq_of_append (h : d.shown.toList ++ rest = d'.shown.toList ++ rest') :
    d.kind = d'.kind := by
  obtain ⟨c, cs, hc, hkind⟩ := d.exists_toList_shown
  obtain ⟨c', cs', hc', hkind'⟩ := d'.exists_toList_shown
  rw [hc, hc'] at h
  rw [(List.cons.inj h).1] at hkind
  exact Option.some.inj (hkind.symm.trans hkind')

/-- No text begins with the bracket that ends an array. -/
theorem shown_append_ne (d : Datum) : d.shown.toList ++ rest ≠ ']' :: rest' := by
  intro h
  obtain ⟨c, cs, hc, hkind⟩ := d.exists_toList_shown
  rw [hc] at h
  rw [(List.cons.inj h).1] at hkind
  cases hkind

/-! ## Words -/

theorem plain_inRadix (i : Int) : Plain (Number.inRadix 10 i) := by
  have hdigits : ∀ d < 10, Number.digitChar d ∉ Text.reserved := by decide
  obtain ⟨c, cs, hcs, hchars⟩ := Number.exists_inRadix_eq (by decide : 2 ≤ 10) (by decide) i
  rw [hcs]
  intro a ha
  obtain rfl | ⟨d, hd, rfl⟩ := hchars a ha
  · decide
  · exact hdigits d hd

/-! ## Reading back -/

/-- Whatever comes after the text of the datum, it is the text of no other one. -/
def Readable (d : Datum) : Prop :=
  ∀ (d' : Datum) (rest rest' : List Char), Delimits rest → Delimits rest' →
    d.shown.toList ++ rest = d'.shown.toList ++ rest' → d = d' ∧ rest = rest'

theorem readable_nil : Readable .nil := by
  intro d' rest rest' _ _ h
  have hkind := kind_eq_of_append h
  cases d' with
  | nil => exact ⟨rfl, List.append_cancel_left h⟩
  | bool | integer | text | symbol | list => cases hkind

theorem readable_bool (b : Bool) : Readable (.bool b) := by
  intro d' rest rest' _ _ h
  have hkind := kind_eq_of_append h
  cases d' with
  | bool b' =>
    have hb : b = b' := by
      cases b <;> cases b' <;> first | rfl | exact absurd (List.cons.inj h).1 (by decide)
    subst hb
    exact ⟨rfl, List.append_cancel_left h⟩
  | nil | integer | text | symbol | list => cases hkind

theorem readable_integer (i : Int) : Readable (.integer i) := by
  intro d' rest rest' hrest hrest' h
  have hkind := kind_eq_of_append h
  cases d' with
  | integer j =>
    rw [shown, shown, String.toList_ofList, String.toList_ofList] at h
    obtain ⟨hij, hrest⟩ := (plain_inRadix i).append_inj (plain_inRadix j) hrest hrest' h
    exact ⟨congrArg _ (Number.inRadix_injective (by decide) (by decide) hij), hrest⟩
  | nil | bool | text | symbol | list => cases hkind

theorem readable_text (t : String) : Readable (.text t) := by
  intro d' rest rest' _ _ h
  have hkind := kind_eq_of_append h
  cases d' with
  | text t' => exact (Text.inspectText_append_inj h).imp_left (congrArg _)
  | nil | bool | integer | symbol | list => cases hkind

theorem readable_symbol (t : String) : Readable (.symbol t) := by
  intro d' rest rest' hrest hrest' h
  have hkind := kind_eq_of_append h
  cases d' with
  | symbol t' => exact (Text.inspectSymbol_append_inj hrest hrest' h).imp_left (congrArg _)
  | nil | bool | integer | text | list => cases hkind

/-- What follows the first element of an array. -/
def shownTail : List Datum → List Char
  | [] => []
  | d :: ds => ", ".toList ++ d.shown.toList ++ shownTail ds

theorem toList_intercalate_shownAll :
    (", ".intercalate (shownAll (d :: ds))).toList = d.shown.toList ++ shownTail ds := by
  induction ds generalizing d with
  | nil => rw [shownAll, shownAll, String.intercalate_singleton, shownTail, List.append_nil]
  | cons e ds ih =>
    rw [shownAll, shownAll, String.intercalate_cons_cons, ← shownAll, String.toList_append, ih,
      String.toList_append, shownTail, List.append_assoc, List.append_assoc]

theorem delimits_shownTail : Delimits (shownTail ds ++ ']' :: rest) := by
  cases ds with
  | nil => exact .inr rfl
  | cons d ds => exact .inl rfl

theorem shownTail_append_inj (h : ∀ d ∈ ds, Readable d)
    (heq : shownTail ds ++ ']' :: rest = shownTail ds' ++ ']' :: rest') :
    ds = ds' ∧ rest = rest' := by
  induction ds generalizing ds' with
  | nil =>
    cases ds' with
    | nil => exact ⟨rfl, (List.cons.inj heq).2⟩
    | cons d' ds' => exact absurd (List.cons.inj heq).1 (by decide)
  | cons d ds ih =>
    obtain ⟨hd, hds⟩ := List.forall_mem_cons.mp h
    cases ds' with
    | nil => exact absurd (List.cons.inj heq).1 (by decide)
    | cons d' ds' =>
      rw [shownTail, shownTail, List.append_assoc, List.append_assoc, List.append_assoc,
        List.append_assoc] at heq
      obtain ⟨rfl, htail⟩ :=
        hd _ _ _ delimits_shownTail delimits_shownTail (List.append_cancel_left heq)
      obtain ⟨rfl, hrest⟩ := ih hds htail
      exact ⟨rfl, hrest⟩

theorem readable_list (h : ∀ d ∈ ds, Readable d) : Readable (.list ds) := by
  intro d' rest rest' _ _ heq
  have hkind := kind_eq_of_append heq
  cases d' with
  | list ds' =>
    rw [toList_shown_list, toList_shown_list, List.cons_append, List.cons_append,
      List.append_assoc, List.append_assoc] at heq
    have heq := (List.cons.inj heq).2
    cases ds with
    | nil =>
      cases ds' with
      | nil => exact ⟨rfl, (List.cons.inj heq).2⟩
      | cons d' ds' =>
        rw [toList_intercalate_shownAll, List.append_assoc] at heq
        exact absurd heq.symm d'.shown_append_ne
    | cons d ds =>
      obtain ⟨hd, hds⟩ := List.forall_mem_cons.mp h
      cases ds' with
      | nil =>
        rw [toList_intercalate_shownAll, List.append_assoc] at heq
        exact absurd heq d.shown_append_ne
      | cons d' ds' =>
        rw [toList_intercalate_shownAll, toList_intercalate_shownAll, List.append_assoc,
          List.append_assoc] at heq
        obtain ⟨rfl, htail⟩ := hd _ _ _ delimits_shownTail delimits_shownTail heq
        obtain ⟨rfl, hrest⟩ := shownTail_append_inj hds htail
        exact ⟨rfl, hrest⟩
  | nil | bool | integer | text | symbol => cases hkind

theorem readable (d : Datum) : d.Readable := by
  induction d with
  | nil => exact readable_nil
  | bool b => exact readable_bool b
  | integer i => exact readable_integer i
  | text t => exact readable_text t
  | symbol t => exact readable_symbol t
  | list ds ih => exact readable_list ih

/-- No two data are written alike. -/
theorem shown_injective : Function.Injective shown := by
  intro d d' h
  have hnil : Delimits [] := trivial
  have hempty : d.shown.toList ++ [] = d'.shown.toList ++ [] := by rw [h]
  exact (d.readable d' [] [] hnil hnil hempty).1

end Datum

end Garnet
