import Garnet.Proofs.Trees.Positions
import Garnet.Tree.Scanner

/-!
# A scan cuts only between characters

The scan of the bytes of a text does at each position what the reader does at the cursor that
stands there: a byte that separates or delimits is a character of its own, so a run of bytes ends
where a run of characters ends. So a scan always ends, it never cuts inside a character, and the
places at which it ends or refuses the text are those of the reader.
-/

namespace Garnet.Scanner

open Reader (Cursor Error byteLength)
open Reader.Cursor

variable {α β : Type} {text : String} {c : Cursor} {rest : List Char} {offset pos : Nat}

/-! ## The bytes of a character -/

/-- A byte of a character is the character itself, or both lie outside ASCII. -/
theorem mem_utf8EncodeChar {ch : Char} {b : UInt8} (h : b ∈ String.utf8EncodeChar ch) :
    ch.toNat < 128 ∧ b.toNat = ch.toNat ∨ 128 ≤ ch.toNat ∧ 128 ≤ b.toNat := by
  have hv : ch.val.toNat = ch.toNat := rfl
  simp only [String.utf8EncodeChar, hv] at h
  split at h
  · rw [List.mem_singleton.mp h, UInt8.toNat_ofNat']
    omega
  · refine .inr ⟨by omega, ?_⟩
    split at h
    · simp only [List.mem_cons, List.not_mem_nil, or_false] at h
      rcases h with rfl | rfl <;> rw [UInt8.toNat_ofNat'] <;> omega
    · split at h <;> simp only [List.mem_cons, List.not_mem_nil, or_false] at h
      · rcases h with rfl | rfl | rfl <;> rw [UInt8.toNat_ofNat'] <;> omega
      · rcases h with rfl | rfl | rfl | rfl <;> rw [UInt8.toNat_ofNat'] <;> omega

/-- Any byte of a character tells whether it is a given one of ASCII. -/
theorem beq_toUInt8 {ch a : Char} {b : UInt8} (h : b ∈ String.utf8EncodeChar ch)
    (ha : a.toNat < 128) : (b == a.toUInt8) = (ch == a) := by
  have hbyte : a.toUInt8.toNat = a.toNat := by
    rw [Char.toUInt8, UInt32.toNat_toUInt8]
    exact Nat.mod_eq_of_lt (Nat.lt_trans ha (by decide))
  rw [Bool.eq_iff_iff, beq_iff_eq, beq_iff_eq, ← UInt8.toNat_inj, hbyte, ← Char.toNat_inj]
  rcases mem_utf8EncodeChar h with ⟨-, hb⟩ | ⟨hch, hb⟩
  · rw [hb]
  · omega

theorem isBlank_eq {ch : Char} {b : UInt8} (h : b ∈ String.utf8EncodeChar ch) :
    isBlank b = Reader.isBlank ch := by
  simp (disch := decide) only [isBlank, Reader.isBlank, beq_toUInt8 h]

theorem endsWord_eq {ch : Char} {b : UInt8} (h : b ∈ String.utf8EncodeChar ch) :
    endsWord b = Reader.endsWord ch := by
  simp (disch := decide) only [endsWord, Reader.endsWord, isBlank_eq h, beq_toUInt8 h]

/-- The bytes of characters. -/
def bytes (cs : List Char) : List UInt8 := cs.flatMap String.utf8EncodeChar

theorem bytes_append (cs ds : List Char) : bytes (cs ++ ds) = bytes cs ++ bytes ds :=
  List.flatMap_append

theorem length_bytes (cs : List Char) : (bytes cs).length = byteLength cs := by
  induction cs with
  | nil => rfl
  | cons ch cs ih =>
    rw [bytes, List.flatMap_cons, List.length_append, String.length_utf8EncodeChar,
      Reader.byteLength_cons]
    exact congrArg _ ih

theorem byte?_eq (text : String) (pos : Nat) : byte? text pos = (bytes text.toList)[pos]? := by
  have htext : text.toByteArray = text.toList.utf8Encode := by
    rw [← String.toByteArray_ofList, String.ofList_toList]
  rw [byte?, htext, List.utf8Encode, ← Array.getElem?_toList, List.toList_data_toByteArray]
  rfl

/-- Behind a cursor lie the bytes of the characters left there. -/
theorem drop_bytes (hc : StandsIn text c) : (bytes text.toList).drop c.offset = bytes c.rest := by
  obtain ⟨before, htext, hoffset⟩ := hc.exists_append
  rw [htext, hoffset, ← length_bytes, bytes_append, List.drop_left]

theorem byte?_offset (hc : StandsIn text c) : byte? text c.offset = (bytes c.rest).head? := by
  rw [byte?_eq, ← drop_bytes hc, List.head?_drop]

theorem head?_bytes_cons (ch : Char) (rest : List Char) :
    ∃ b ∈ String.utf8EncodeChar ch, (bytes (ch :: rest)).head? = some b := by
  have hpos : 0 < (String.utf8EncodeChar ch).length :=
    String.length_utf8EncodeChar ch ▸ ch.utf8Size_pos
  obtain ⟨b, bs, hbs⟩ := List.exists_cons_of_length_pos hpos
  rw [bytes, List.flatMap_cons, hbs]
  exact ⟨b, List.mem_cons_self, rfl⟩

/-- The character at a cursor is told from those of ASCII by its first byte. -/
theorem peeks_cons {ch a : Char} (hc : StandsIn text ⟨ch :: rest, offset⟩) (ha : a.toNat < 128) :
    peeks text offset a = (ch == a) := by
  obtain ⟨b, hb, hhead⟩ := head?_bytes_cons ch rest
  have hbyte : byte? text offset = _ := byte?_offset hc
  rw [peeks, hbyte, hhead, Option.some_beq_some, beq_toUInt8 hb ha]

/-- A scan sees a character of ASCII only where the reader does. -/
theorem peeks_eq_false {a : Char} (hc : StandsIn text c) (ha : a.toNat < 128)
    (h : ∀ rest, c.rest ≠ a :: rest) : peeks text c.offset a = false := by
  obtain ⟨_ | ⟨ch, rest⟩, offset⟩ := c
  · rw [peeks, byte?_offset hc]
    rfl
  · rw [peeks_cons hc ha, beq_eq_false_iff_ne]
    rintro rfl
    exact h rest rfl

theorem byte?_eq_none_iff (hc : StandsIn text ⟨rest, offset⟩) :
    byte? text offset = none ↔ rest = [] := by
  have hbyte : byte? text offset = _ := byte?_offset hc
  rw [hbyte]
  rcases rest with _ | ⟨ch, rest⟩
  · simp [bytes]
  · obtain ⟨b, -, hhead⟩ := head?_bytes_cons ch rest
    simp [hhead]

/-! ## Runs of bytes -/

theorem skipWhile_eq_add (p : UInt8 → Bool) (text : String) (pos : Nat) :
    skipWhile p text pos = pos + (((bytes text.toList).drop pos).takeWhile p).length := by
  fun_induction skipWhile p text pos with
  | case1 pos b hb hp ih =>
    rw [byte?_eq, ← List.head?_drop] at hb
    obtain ⟨bs, hbs⟩ := List.head?_eq_some_iff.mp hb
    rw [ih, hbs, List.takeWhile_cons_of_pos hp, ← List.tail_drop, hbs, List.tail_cons,
      List.length_cons]
    omega
  | case2 pos b hb hp =>
    rw [byte?_eq, ← List.head?_drop] at hb
    obtain ⟨bs, hbs⟩ := List.head?_eq_some_iff.mp hb
    rw [hbs, List.takeWhile_cons_of_neg hp]
    rfl
  | case3 pos hb =>
    rw [byte?_eq, ← List.head?_drop, List.head?_eq_none_iff] at hb
    rw [hb]
    rfl

/-- A run of bytes is a run of characters, each of which has the property of its bytes. -/
theorem takeWhile_bytes {p : UInt8 → Bool} {q : Char → Bool}
    (hpq : ∀ ch, ∀ b ∈ String.utf8EncodeChar ch, p b = q ch) (cs : List Char) :
    (bytes cs).takeWhile p = bytes (cs.takeWhile q) := by
  induction cs with
  | nil => rfl
  | cons ch cs ih =>
    by_cases hq : q ch
    · rw [List.takeWhile_cons_of_pos hq, bytes, List.flatMap_cons,
        List.takeWhile_append_of_pos fun b hb => (hpq ch b hb).trans hq]
      exact congrArg _ ih
    · rw [List.takeWhile_cons_of_neg hq]
      obtain ⟨b, hb, hhead⟩ := head?_bytes_cons ch cs
      obtain ⟨bs, hbs⟩ := List.head?_eq_some_iff.mp hhead
      rw [hbs, List.takeWhile_cons_of_neg (hpq ch b hb ▸ hq)]
      rfl

theorem skipWhile_offset {p : UInt8 → Bool} {q : Char → Bool}
    (hpq : ∀ ch, ∀ b ∈ String.utf8EncodeChar ch, p b = q ch) (hc : StandsIn text c) :
    skipWhile p text c.offset = (c.skipWhile q).offset := by
  rw [skipWhile_eq_add, drop_bytes hc, takeWhile_bytes hpq, length_bytes]
  rfl

theorem skipBlanks_offset (hc : StandsIn text c) :
    skipBlanks text c.offset = c.skipBlanks.offset :=
  skipWhile_offset (fun _ _ => isBlank_eq) hc

theorem wordEnd_eq (hc : StandsIn text c) (hpos : pos = c.offset) :
    wordEnd text pos = c.word.2.offset :=
  hpos ▸ skipWhile_offset (fun _ _ h => congrArg _ (endsWord_eq h)) hc

/-! ## Cuts -/

/-- A cut in front of and behind characters that are left at a cursor. -/
theorem cut_eq {w : List Char} {stop : Nat} (hc : StandsIn text c) (hw : c.rest = w ++ rest)
    (hstop : stop = c.offset + byteLength w) :
    ∃ piece, cut text c.offset stop = .ok piece ∧ piece.text = String.ofList w := by
  have hbehind : StandsIn text ⟨rest, stop⟩ := hc.trans ⟨w, hw, hstop⟩
  have hextract : String.Pos.Raw.extract text ⟨c.offset⟩ ⟨stop⟩ = String.ofList w := by
    obtain ⟨before, htext, hoffset⟩ := hc.exists_append
    rw [hw, ← List.append_assoc] at htext
    rw [← String.ofList_toList (s := text), htext, hstop, hoffset, Reader.byteLength_eq_utf8Len,
      Reader.byteLength_eq_utf8Len, String.extract_of_valid]
  rw [cut, if_pos]
  · exact ⟨_, rfl, hextract⟩
  · rw [Bool.and_eq_true, Bool.and_eq_true, String.Pos.Raw.isValid_eq_true_iff,
      String.Pos.Raw.isValid_eq_true_iff, decide_eq_true_eq]
    exact ⟨⟨hc.isValid, hbehind.isValid⟩, hstop ▸ Nat.le_add_right _ _⟩

theorem word_eq (hc : StandsIn text c) (hpos : pos = c.offset) :
    ∃ w, word text pos = .ok w ∧ w.text = String.ofList c.word.1 := by
  subst hpos
  exact cut_eq hc (rest_eq_word_append c) (wordEnd_eq hc rfl)

theorem first?_nil (hc : StandsIn text ⟨[], offset⟩) : first? text offset = .ok none := by
  obtain ⟨piece, hcut, htext⟩ := cut_eq hc (List.append_nil _).symm hc.offset_add.symm
  rw [first?, hcut]
  dsimp only [bind, Except.bind]
  split
  case h_1 => rfl
  case h_2 h => simp [htext] at h

theorem first?_cons {ch : Char} (hc : StandsIn text ⟨ch :: rest, offset⟩) :
    ∃ f, first? text offset = .ok (some f) ∧ f.char = ch := by
  obtain ⟨piece, hcut, htext⟩ := cut_eq hc (List.append_nil _).symm hc.offset_add.symm
  rw [first?, hcut]
  dsimp only [bind, Except.bind]
  split
  case h_1 h => simp [htext] at h
  case h_2 d _ h =>
    rw [htext, String.toList_ofList] at h
    exact ⟨_, rfl, (List.cons.inj h).1.symm⟩

/-! ## The scan and the reader -/

/-- What a scan finds and where it ends. -/
def ends (s : Scan α pos) : Except Halt (α × Nat) := Except.map (fun r => (r.value, r.stop)) s

/-- What the reader finds, with the position of the cursor in its place. -/
def placed : Except Error (α × Cursor) → Except Halt (α × Nat)
  | .ok (x, c) => .ok (x, c.offset)
  | .error e => .error (.refused e)

/-- A scan ends as a reading does. -/
theorem exists_of_ends {s : Scan α pos} {r : Except Error (α × Cursor)} (h : ends s = placed r) :
    (∃ e, s = .error (.refused e) ∧ r = .error e) ∨
      ∃ x d, s = .ok x ∧ r = .ok (x.value, d) ∧ x.stop = d.offset := by
  rcases s with halt | x <;> rcases r with e | ⟨y, d⟩
  · exact .inl ⟨e, congrArg _ (Except.error.inj h), rfl⟩
  · cases h
  · cases h
  · obtain ⟨hvalue, hstop⟩ := Prod.mk.inj (Except.ok.inj h)
    exact .inr ⟨x, d, rfl, by rw [hvalue], hstop⟩

theorem ends_behind (s : Scan α pos) {start : Nat} (h : start ≤ pos) :
    ends (s.behind h) = ends s := by
  cases s <;> rfl

/-- What is made alike of a scan and of a reading. -/
theorem ends_map {s : Scan α pos} {r : Except Error (α × Cursor)} {start : Nat} (f : α → β)
    (h : start ≤ pos) (hs : ends s = placed r) :
    ends (s.map f h) = placed (r >>= fun x => .ok (f x.1, x.2)) := by
  obtain ⟨e, rfl, rfl⟩ | ⟨x, d, rfl, rfl, hstop⟩ := exists_of_ends hs
  · rfl
  · exact congrArg (fun stop => Except.ok (f x.value, stop)) hstop

/-- Two scans in a row are two readings in a row, if the second ones agree wherever the first
reading ends. -/
theorem ends_bind {s : Scan α pos} {r : Except Error (α × Cursor)} {start : Nat}
    {g : Found α pos → Scan β start} {f : α × Cursor → Except Error (β × Cursor)}
    (hs : ends s = placed r)
    (hf : ∀ x d, r = .ok (x.value, d) → x.stop = d.offset → ends (g x) = placed (f (x.value, d))) :
    ends (s >>= g) = placed (r >>= f) := by
  obtain ⟨e, rfl, rfl⟩ | ⟨x, d, rfl, rfl, hstop⟩ := exists_of_ends hs
  · rfl
  · exact hf x d rfl hstop

theorem ends_quotedFrom (start : Nat) {rest : List Char} {offset : Nat}
    (hc : StandsIn text ⟨rest, offset⟩) (seen : List Char) :
    ends (quotedFrom text start offset seen) = placed (Reader.quoted start rest offset seen) := by
  fun_induction Reader.quoted start rest offset seen with
  | case1 offset seen =>
    rw [quotedFrom, first?_nil hc]
    rfl
  | case2 offset seen =>
    obtain ⟨⟨_, hpos⟩, hfirst, rfl⟩ := first?_cons hc
    have hescape := hc.trans (passes_cons '\\' [] offset).reaches
    rw [quotedFrom, hfirst]
    dsimp only [bind, Except.bind]
    rw [if_neg (by decide), if_pos rfl, first?_nil hescape]
    rfl
  | case3 ch rest offset seen ih =>
    obtain ⟨⟨_, hpos⟩, hfirst, rfl⟩ := first?_cons hc
    have hescape := hc.trans (passes_cons '\\' (ch :: rest) offset).reaches
    obtain ⟨⟨_, hpos'⟩, hfirst', rfl⟩ := first?_cons hescape
    have hrest := hescape.trans (passes_cons _ rest _).reaches
    rw [quotedFrom, hfirst]
    dsimp only [bind, Except.bind]
    rw [if_neg (by decide), if_pos rfl, hfirst']
    dsimp only
    rw [ends_behind]
    exact ih hrest
  | case4 rest offset seen =>
    obtain ⟨⟨_, hpos⟩, hfirst, rfl⟩ := first?_cons hc
    rw [quotedFrom, hfirst]
    rfl
  | case5 ch rest offset seen hlast hescape hquote ih =>
    have hne : ch ≠ '\\' := by
      rintro rfl
      rcases rest with _ | ⟨d, rest⟩
      · exact hlast rfl rfl
      · exact hescape d rest rfl rfl
    obtain ⟨⟨_, hpos⟩, hfirst, rfl⟩ := first?_cons hc
    rw [quotedFrom, hfirst]
    dsimp only [bind, Except.bind]
    rw [if_neg hquote, if_neg hne, ends_behind]
    exact ih (hc.trans (passes_cons _ rest offset).reaches)

theorem ends_quoted (hc : StandsIn text ⟨'"' :: rest, offset⟩) :
    ends (quoted text offset) = placed (Reader.quoted offset rest (offset + 1) []) :=
  (ends_behind _ _).trans
    (ends_quotedFrom offset (hc.trans (passes_cons '"' rest offset).reaches) [])

variable {fuel : Nat}

/-! Fuel for two turns at each character left is enough: a tree and a child begin at the same
character, and so does the first child behind the blanks in front of it. -/

def NodesAgree (text : String) (fuel : Nat) : Prop :=
  ∀ c, StandsIn text c → 2 * c.rest.length + 1 ≤ fuel →
    ends (node text c.offset) = placed (Reader.node fuel c)

def SiblingsAgree (text : String) (fuel : Nat) : Prop :=
  ∀ c, StandsIn text c → 2 * c.rest.length + 3 ≤ fuel →
    ends (siblings text c.offset) = placed (Reader.siblings fuel c)

def ChildrenAgree (text : String) (fuel : Nat) : Prop :=
  ∀ c, StandsIn text c → 2 * c.rest.length + 2 ≤ fuel →
    ends (child text c.offset) = placed (Reader.child fuel c)

theorem isEmpty_ofList (w : List Char) : (String.ofList w).isEmpty = w.isEmpty := by
  rw [Bool.eq_iff_iff, String.isEmpty_iff, String.ofList_eq_empty_iff, List.isEmpty_iff]

theorem nodesAgree_succ (hsiblings : SiblingsAgree text fuel) : NodesAgree text (fuel + 1) := by
  rintro ⟨rest, offset⟩ hc hfuel
  rw [Reader.node.eq_def]
  dsimp only at hfuel ⊢
  split
  case h_1 rest =>
    have hopen : peeks text offset '(' = true := peeks_cons hc (by decide)
    have hbehind : StandsIn text ⟨rest, offset + 1⟩ :=
      hc.trans (passes_cons '(' rest offset).reaches
    have hblanks := hbehind.trans (reaches_skipBlanks _)
    have hskip : skipBlanks text (offset + 1) = _ := skipBlanks_offset hbehind
    have hend := wordEnd_eq hblanks hskip
    obtain ⟨tag, hword, htag⟩ := word_eq hblanks hskip
    rw [node, dif_pos hopen]
    dsimp only [bind, Except.bind]
    rw [hword]
    dsimp only
    rw [htag, isEmpty_ofList]
    split
    case isTrue =>
      rw [hend]
      rfl
    case isFalse htag =>
      have hlt := (reaches_skipBlanks _).passes (passes_word fun h => htag (by rw [h]; rfl))
      have hlength : _ < rest.length := hlt.length_lt
      rw [List.length_cons] at hfuel
      have hrest := hsiblings _ (hbehind.trans hlt.reaches) (by omega)
      rw [← hend] at hrest
      exact ends_map _ _ hrest
  case h_2 hne =>
    rw [node, dif_neg (ne_true_of_eq_false (peeks_eq_false hc (by decide) hne))]
    rfl

theorem siblingsAgree_succ (hchild : ChildrenAgree text fuel)
    (hsiblings : SiblingsAgree text fuel) : SiblingsAgree text (fuel + 1) := by
  intro c hc hfuel
  have hblanks := hc.trans (reaches_skipBlanks c)
  have hlength := (reaches_skipBlanks c).length_le
  have hskip := skipBlanks_offset hc
  rw [Reader.siblings.eq_def]
  dsimp only
  generalize c.skipBlanks = d at hblanks hlength hskip
  obtain ⟨rest, offset⟩ := d
  dsimp only at hlength hskip ⊢
  subst hskip
  split
  case h_1 =>
    rw [siblings, dif_pos ((byte?_eq_none_iff hblanks).mpr rfl)]
    rfl
  case h_2 rest =>
    have hclose : peeks text (skipBlanks text c.offset) ')' = true := peeks_cons hblanks (by decide)
    rw [siblings, dif_neg fun h => List.cons_ne_nil _ _ ((byte?_eq_none_iff hblanks).mp h),
      if_pos hclose]
    rfl
  case h_3 hend hne =>
    have hclose := peeks_eq_false hblanks (by decide) hne
    have hfirst : 2 * rest.length + 2 ≤ fuel := by omega
    rw [siblings, dif_neg fun h => hend ((byte?_eq_none_iff hblanks).mp h),
      if_neg (ne_true_of_eq_false hclose)]
    refine ends_bind (hchild _ hblanks hfirst) fun x d hd hstop => ?_
    have hpasses := ((Reader.advances_read fuel).2.2 _).passes hd
    have hless : _ < rest.length := hpasses.length_lt
    have hmore := hsiblings d (hblanks.trans hpasses.reaches) (by omega)
    rw [← hstop] at hmore
    exact ends_map _ _ hmore

/-- Behind a colon stands quoted text or a name. -/
theorem child_colon (hc : StandsIn text ⟨':' :: rest, offset⟩) :
    child text offset =
      (if peeks text (offset + 1) '"' then
        (quoted text (offset + 1)).map .text (Nat.le_succ offset)
      else do
        let w ← word text (offset + 1)
        if w.text.isEmpty then refuse (wordEnd text (offset + 1)) .emptyName
        else .ok ⟨.text w.text, wordEnd text (offset + 1), le_skipWhile ..⟩) := by
  have hopen : peeks text offset '(' = false := peeks_cons hc (by decide)
  have hquote : peeks text offset '"' = false := peeks_cons hc (by decide)
  have hcolon : peeks text offset ':' = true := peeks_cons hc (by decide)
  rw [child, if_neg (ne_true_of_eq_false hopen), if_neg (ne_true_of_eq_false hquote),
    if_pos hcolon]

theorem childrenAgree_succ (hnode : NodesAgree text fuel) : ChildrenAgree text (fuel + 1) := by
  rintro ⟨rest, offset⟩ hc hfuel
  rw [Reader.child.eq_def]
  dsimp only
  split
  case h_1 rest =>
    have hopen : peeks text offset '(' = true := peeks_cons hc (by decide)
    rw [child, if_pos hopen]
    exact ends_map _ _ (hnode _ hc (Nat.le_of_succ_le_succ hfuel))
  case h_2 rest =>
    have hopen : peeks text offset '(' = false := peeks_cons hc (by decide)
    have hquote : peeks text offset '"' = true := peeks_cons hc (by decide)
    rw [child, if_neg (ne_true_of_eq_false hopen), if_pos hquote]
    exact ends_map _ _ (ends_quoted hc)
  case h_3 rest =>
    have hquoted : StandsIn text ⟨'"' :: rest, offset + 1⟩ :=
      hc.trans (passes_cons ':' ('"' :: rest) offset).reaches
    have hquote : peeks text (offset + 1) '"' = true := peeks_cons hquoted (by decide)
    rw [child_colon hc, if_pos hquote]
    exact ends_map _ _ (ends_quoted hquoted)
  case h_4 rest hne =>
    have hname : StandsIn text ⟨rest, offset + 1⟩ := hc.trans (passes_cons ':' rest offset).reaches
    have hquote : peeks text (offset + 1) '"' = false := peeks_eq_false hname (by decide) hne
    have hend := wordEnd_eq hname rfl
    obtain ⟨w, hword, hw⟩ := word_eq hname rfl
    rw [child_colon hc, if_neg (ne_true_of_eq_false hquote), hword]
    dsimp only [bind, Except.bind]
    rw [hw, isEmpty_ofList]
    split
    · rw [hend]
      rfl
    · exact congrArg (fun stop => Except.ok (Child.text _, stop)) hend
  case h_5 hopen hquote _ hcolon =>
    have hopen := peeks_eq_false hc (by decide) hopen
    have hquote := peeks_eq_false hc (by decide) hquote
    have hcolon := peeks_eq_false hc (by decide) hcolon
    have hend := wordEnd_eq hc rfl
    obtain ⟨w, hword, hw⟩ := word_eq hc rfl
    rw [child, if_neg (ne_true_of_eq_false hopen), if_neg (ne_true_of_eq_false hquote),
      if_neg (ne_true_of_eq_false hcolon), hword]
    dsimp only [bind, Except.bind]
    generalize (Cursor.mk rest offset).word = found at hend hw
    obtain ⟨cs, after⟩ := found
    have hcs : w.text.toList = cs := by rw [hw, String.toList_ofList]
    dsimp only at hend ⊢
    split
    case isTrue hnil =>
      rw [if_pos (by rw [← hcs, hnil])]
      exact congrArg (fun stop => Except.ok (Child.absent, stop)) hend
    case isFalse hnil =>
      rw [if_neg fun h => hnil (String.toList_inj.mp (hcs.trans h))]
      split
      case h_1 x hx =>
        rw [hcs] at hx
        rw [hx]
        exact congrArg (fun stop => Except.ok (x, stop)) hend
      case h_2 hx =>
        rw [hcs] at hx
        rw [hx, hw]
        rfl

/-- With enough fuel the reader does what the scan does. -/
theorem scans_agree (text : String) (fuel : Nat) :
    NodesAgree text fuel ∧ SiblingsAgree text fuel ∧ ChildrenAgree text fuel := by
  induction fuel with
  | zero =>
    exact ⟨fun _ _ h => absurd h (by omega), fun _ _ h => absurd h (by omega),
      fun _ _ h => absurd h (by omega)⟩
  | succ fuel ih =>
    obtain ⟨hnode, hsiblings, hchild⟩ := ih
    exact ⟨nodesAgree_succ hsiblings, siblingsAgree_succ hchild hsiblings, childrenAgree_succ hnode⟩

/-! ## Boundaries -/

/-- A position in a text at which a character begins, or the end of the text. -/
def Boundary (text : String) (pos : Nat) : Prop :=
  pos ≤ text.utf8ByteSize ∧ String.Pos.Raw.IsValid text ⟨pos⟩

/-- How a scan may end: behind what it found at a boundary, or refusing the text at one. -/
inductive Within (text : String) : Scan α pos → Prop where
  | read {x : Found α pos} (h : Boundary text x.stop) : Within text (.ok x)
  | refused {e : Error} (h : Boundary text e.offset) : Within text (.error (.refused e))

theorem boundary_offset (hc : StandsIn text c) : Boundary text c.offset :=
  ⟨hc.offset_le, hc.isValid⟩

theorem within_of_ends {s : Scan α pos} {r : Except Error (α × Cursor)} (hc : StandsIn text c)
    (hr : Reader.Advances c r) (h : ends s = placed r) : Within text s := by
  obtain ⟨e, rfl, rfl⟩ | ⟨x, d, rfl, rfl, hstop⟩ := exists_of_ends h
  · cases hr with
    | error hd => exact .refused (boundary_offset (hc.trans hd))
  · exact .read (hstop ▸ boundary_offset (hc.trans (hr.passes rfl).reaches))

theorem within_quoted (hc : StandsIn text c) (hquote : peeks text c.offset '"' = true) :
    Within text (quoted text c.offset) := by
  obtain ⟨rest, offset⟩ := c
  obtain ⟨tail, rfl⟩ : ∃ tail, rest = '"' :: tail := by
    by_contra hne
    exact Bool.false_ne_true
      ((peeks_eq_false hc (by decide) fun tail h => hne ⟨tail, h⟩).symm.trans hquote)
  exact within_of_ends hc (Reader.advances_quoted (passes_cons '"' tail offset) []) (ends_quoted hc)

/-- A scan of a whole text does what the reader does. -/
theorem parse_eq (text : String) : parse text = (Tree.parse text).mapError .refused := by
  have hstart : StandsIn text ⟨text.toList, 0⟩ := .refl _
  have hblanks := hstart.trans (reaches_skipBlanks _)
  have hskip : skipBlanks text 0 = _ := skipBlanks_offset hstart
  rw [parse, Tree.parse, hskip]
  dsimp only
  generalize (Cursor.mk text.toList 0).skipBlanks = start at hblanks
  have hnode := (scans_agree text (2 * start.rest.length + 2)).1 start hblanks (Nat.le_succ _)
  have hread := (Reader.advances_read (2 * start.rest.length + 2)).1 start
  obtain ⟨e, hscan, hreader⟩ | ⟨t, d, hscan, hreader, hstop⟩ := exists_of_ends hnode
  · rw [hscan, hreader]
    rfl
  · have hbehind := hblanks.trans (hread.passes hreader).reaches
    have hend := (hbehind.trans (reaches_skipBlanks d)).offset_eq_iff
    rw [hscan, hreader]
    dsimp only [bind, Except.bind]
    rw [hstop, skipBlanks_offset hbehind]
    by_cases hrest : d.skipBlanks.rest = []
    · rw [if_pos (hend.mpr hrest), if_pos (List.isEmpty_iff.mpr hrest)]
      rfl
    · rw [if_neg fun h => hrest (hend.mp h), if_neg fun h => hrest (List.isEmpty_iff.mp h)]
      rfl

/-- Every text is scanned without a cut inside a character, and the scan has the tree that the
reader finds, or the error, which lies at a boundary. In the reader and in the scan a child always
ends behind the position at which it was looked for. From every boundary on, a word is cut out up to
a boundary, and quoted text, a tree and a child end at a boundary or are refused at one. -/
theorem scan_within_boundaries (text : String) :
    parse text = (Tree.parse text).mapError .refused ∧
      (∀ e, Tree.parse text = .error e → Boundary text e.offset) ∧
      (∀ fuel c x d, Reader.child fuel c = .ok (x, d) → c.offset < d.offset) ∧
      (∀ pos x, child text pos = .ok x → pos < x.stop) ∧
      ∀ pos, Boundary text pos →
        (∃ w, word text pos = .ok w ∧ Boundary text (wordEnd text pos)) ∧
        (peeks text pos '"' = true → Within text (quoted text pos)) ∧
        Within text (node text pos) ∧ Within text (child text pos) := by
  refine ⟨parse_eq text, fun e he => ?_, fun fuel c x d hchild => ?_, fun _ x _ => x.lt,
    fun pos hpos => ?_⟩
  · obtain ⟨c, hc, hoffset⟩ := Reader.exists_standsIn_of_parse he
    exact hoffset ▸ boundary_offset hc
  · exact (((Reader.advances_read fuel).2.2 c).passes hchild).offset_lt
  · obtain ⟨rest, hc⟩ := exists_standsIn hpos.2
    obtain ⟨hnode, -, hchild⟩ := scans_agree text (2 * rest.length + 2)
    obtain ⟨hnodes, -, hchildren⟩ := Reader.advances_read (2 * rest.length + 2)
    obtain ⟨w, hword, -⟩ := word_eq hc rfl
    refine ⟨⟨w, hword, ?_⟩, within_quoted hc, ?_, ?_⟩
    · exact wordEnd_eq hc rfl ▸ boundary_offset (hc.trans (reaches_word _))
    · exact within_of_ends hc (hnodes _) (hnode _ hc (Nat.le_succ _))
    · exact within_of_ends hc (hchildren _) (hchild _ hc (Nat.le_refl _))

/-- A tree whose tag, name and quoted text begin with characters of several bytes, and whose text is
not finished. -/
def unfinished : String := "(é :ß \"ü"

theorem scan_within_boundaries_unfinished :
    Tree.parse unfinished = .error ⟨8, .unterminatedText⟩ ∧ Boundary unfinished 8 ∧
      Within unfinished (child unfinished 8) := by
  have htext : unfinished.toList = ['(', 'é', ' ', ':', 'ß', ' ', '"', 'ü'] := rfl
  have hparse : Tree.parse unfinished = .error ⟨8, .unterminatedText⟩ := by
    rw [Tree.parse, htext]
    rfl
  have hquote : Boundary unfinished 8 := (scan_within_boundaries unfinished).2.1 _ hparse
  exact ⟨hparse, hquote, ((scan_within_boundaries unfinished).2.2.2.2 8 hquote).2.2.2⟩

end Garnet.Scanner
