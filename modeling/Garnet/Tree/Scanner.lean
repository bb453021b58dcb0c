import Garnet.Tree.Reader

/-!
# Reading trees by bytes

The reader as a scan of the bytes of a text. Blanks and the ends of words are found byte by byte, a
word is cut out of the text between two positions, and quoted text is read by its characters, each
of them the first one behind a cut. A cut is made only where a character begins or the text ends;
elsewhere the scan halts. What is found carries the fact that it ends behind the position at which
it was looked for, so that the loops end with the text.
-/

namespace Garnet.Scanner

open Reader (Error Cause)

/-- Why a scan stops without a result. -/
inductive Halt where
  | refused (error : Error)
  /-- A cut inside a character, or behind the text. -/
  | split (start stop : Nat)

def refuse {α : Type} (offset : Nat) (cause : Cause) : Except Halt α :=
  .error (.refused ⟨offset, cause⟩)

/-- What was found at a position, and the position behind it. -/
structure Found (α : Type) (pos : Nat) where
  value : α
  stop : Nat
  lt : pos < stop

/-- A scan from a position on. -/
abbrev Scan (α : Type) (pos : Nat) := Except Halt (Found α pos)

variable {α β : Type} {text : String} {pos start : Nat}

/-- What a scan finds, made into something else, as found from an earlier position on. -/
def Scan.map (f : α → β) (h : start ≤ pos) (s : Scan α pos) : Scan β start :=
  Except.map (fun r => ⟨f r.value, r.stop, Nat.lt_of_le_of_lt h r.lt⟩) s

/-- What a scan finds, as found from an earlier position on. -/
def Scan.behind (h : start ≤ pos) (s : Scan α pos) : Scan α start := s.map id h

/-! ## Bytes -/

/-- The byte at a position, nothing behind the text. -/
def byte? (text : String) (pos : Nat) : Option UInt8 := text.toByteArray.data[pos]?

theorem lt_of_byte?_ne_none (h : byte? text pos ≠ none) : pos < text.utf8ByteSize :=
  Nat.lt_of_not_le fun hle => h (Array.getElem?_eq_none hle)

/-- The byte at a position is the character `c`, one of a single byte. -/
def peeks (text : String) (pos : Nat) (c : Char) : Bool := byte? text pos == some c.toUInt8

theorem lt_of_peeks {c : Char} (h : peeks text pos c) : pos < text.utf8ByteSize :=
  lt_of_byte?_ne_none fun hnone => nomatch hnone.symm.trans (eq_of_beq h)

/-- A separator between the parts of a tree. -/
def isBlank (b : UInt8) : Bool :=
  b == ' '.toUInt8 || b == '\t'.toUInt8 || b == '\n'.toUInt8 || b == '\x0c'.toUInt8 ||
    b == '\r'.toUInt8 || b == ','.toUInt8

/-- A byte that ends a word. -/
def endsWord (b : UInt8) : Bool := isBlank b || b == '('.toUInt8 || b == ')'.toUInt8

/-- The position behind the longest run of bytes with property `p`. -/
def skipWhile (p : UInt8 → Bool) (text : String) (pos : Nat) : Nat :=
  match h : byte? text pos with
  | some b => if p b then skipWhile p text (pos + 1) else pos
  | none => pos
termination_by text.utf8ByteSize - pos
decreasing_by
  have hpos := lt_of_byte?_ne_none (Option.ne_none_iff_exists'.mpr ⟨_, h⟩)
  omega

theorem le_skipWhile (p : UInt8 → Bool) (text : String) (pos : Nat) :
    pos ≤ skipWhile p text pos := by
  fun_induction skipWhile p text pos <;> omega

def skipBlanks (text : String) (pos : Nat) : Nat := skipWhile isBlank text pos

def wordEnd (text : String) (pos : Nat) : Nat := skipWhile (!endsWord ·) text pos

/-! ## Cuts -/

/-- A part of a text between two positions. -/
structure Piece (start stop : Nat) where
  text : String
  lt_of_ne : text ≠ "" → start < stop

/-- The part of a text between two positions. -/
def cut (text : String) (start stop : Nat) : Except Halt (Piece start stop) :=
  if String.Pos.Raw.isValid text ⟨start⟩ && String.Pos.Raw.isValid text ⟨stop⟩ && start ≤ stop then
    .ok ⟨String.Pos.Raw.extract text ⟨start⟩ ⟨stop⟩,
      fun hne => Nat.lt_of_not_le fun hle => hne (if_pos hle)⟩
  else .error (.split start stop)

/-- The longest word at a position, possibly empty. -/
def word (text : String) (pos : Nat) : Except Halt (Piece pos (wordEnd text pos)) :=
  cut text pos (wordEnd text pos)

/-- The first character behind a position, which then lies in front of the end of the text. -/
structure First (text : String) (pos : Nat) where
  char : Char
  lt : pos < text.utf8ByteSize

def first? (text : String) (pos : Nat) : Except Halt (Option (First text pos)) := do
  let rest ← cut text pos text.utf8ByteSize
  match h : rest.text.toList with
  | [] => .ok none
  | c :: _ => .ok (some ⟨c, rest.lt_of_ne fun hrest => by simp [hrest] at h⟩)

/-- Text up to the closing quote, collected in reverse; `start` is the position of the opening
quote, to which errors point. -/
def quotedFrom (text : String) (start pos : Nat) (seen : List Char) : Scan String pos := do
  match ← first? text pos with
  | none => refuse start .unterminatedText
  | some ⟨c, hpos⟩ =>
    have hsize := c.utf8Size_pos
    if c = '"' then .ok ⟨String.ofList seen.reverse, pos + c.utf8Size, by omega⟩
    else if c = '\\' then
      match ← first? text (pos + c.utf8Size) with
      | none => refuse start .unterminatedEscape
      | some ⟨d, _⟩ =>
        (quotedFrom text start (pos + c.utf8Size + d.utf8Size) (Reader.unescape d :: seen)).behind
          (by omega)
    else (quotedFrom text start (pos + c.utf8Size) (c :: seen)).behind (by omega)
termination_by text.utf8ByteSize - pos

/-- Quoted text at a position, that of its opening quote. -/
def quoted (text : String) (pos : Nat) : Scan String pos :=
  (quotedFrom text pos (pos + 1) []).behind (Nat.le_succ pos)

/-! ## Trees -/

mutual

/-- A tree at a position. -/
def node (text : String) (pos : Nat) : Scan Tree pos :=
  if hopen : peeks text pos '(' then do
    have _ := lt_of_peeks hopen
    let start := skipBlanks text (pos + 1)
    have hstop : pos < wordEnd text (skipBlanks text (pos + 1)) :=
      Nat.le_trans (le_skipWhile ..) (le_skipWhile ..)
    let tag ← word text start
    if tag.text.isEmpty then refuse (wordEnd text start) .expectedTag
    else (siblings text (wordEnd text start)).map (Tree.mk tag.text) (Nat.le_of_lt hstop)
  else refuse pos .expectedOpen
termination_by 3 * (text.utf8ByteSize - pos)

/-- The children up to the closing parenthesis. -/
def siblings (text : String) (pos : Nat) : Scan (List Child) pos :=
  let start := skipBlanks text pos
  have hstart : pos ≤ start := le_skipWhile ..
  if hend : byte? text start = none then refuse start .unclosed
  else if peeks text start ')' then .ok ⟨[], start + 1, by omega⟩
  else do
    have hpos := lt_of_byte?_ne_none hend
    let x ← child text start
    have hx := x.lt
    (siblings text x.stop).map (x.value :: ·) (by omega)
termination_by 3 * (text.utf8ByteSize - pos) + 2

/-- One child. -/
def child (text : String) (pos : Nat) : Scan Child pos :=
  if peeks text pos '(' then (node text pos).map Tree.toChild (Nat.le_refl pos)
  else if peeks text pos '"' then (quoted text pos).map .text (Nat.le_refl pos)
  else if peeks text pos ':' then
    if peeks text (pos + 1) '"' then (quoted text (pos + 1)).map .text (Nat.le_succ pos)
    else do
      have hstop : pos + 1 ≤ wordEnd text (pos + 1) := le_skipWhile ..
      let w ← word text (pos + 1)
      if w.text.isEmpty then refuse (wordEnd text (pos + 1)) .emptyName
      else .ok ⟨.text w.text, wordEnd text (pos + 1), by omega⟩
  else do
    let w ← word text pos
    if hnil : w.text = "nil" then .ok ⟨.absent, wordEnd text pos, w.lt_of_ne (by simp [hnil])⟩
    else match h : Reader.number? w.text.toList with
      | some x =>
        .ok ⟨x, wordEnd text pos, w.lt_of_ne fun hne => Reader.ne_nil_of_number? h (by simp [hne])⟩
      | none => refuse pos (.unexpectedWord w.text)
termination_by 3 * (text.utf8ByteSize - pos) + 1

end

/-- The tree a text holds, blanks around it allowed. -/
def parse (text : String) : Except Halt Tree := do
  let t ← node text (skipBlanks text 0)
  let stop := skipBlanks text t.stop
  if stop = text.utf8ByteSize then .ok t.value else refuse stop .trailing

end Garnet.Scanner
