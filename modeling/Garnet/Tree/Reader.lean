import Garnet.Tree.Basic
import Garnet.Decimal.Numeral
import Garnet.Number.Digits

/-!
# Reading trees

`(tag child child)`: a child is a nested tree, quoted text, a name after a colon, a number, or
`nil` for an absent child. Blanks and commas separate. Errors carry the byte offset at which the
reader stood.
-/

namespace Garnet.Reader

/-- Why a text is no tree. -/
inductive Cause where
  | expectedOpen
  | expectedTag
  | unclosed
  | emptyName
  | unexpectedWord (word : String)
  | unterminatedText
  | unterminatedEscape
  | trailing
  deriving DecidableEq, Repr

def Cause.message : Cause → String
  | .expectedOpen => "expected '('"
  | .expectedTag => "expected node tag"
  | .unclosed => "unclosed node"
  | .emptyName => "empty symbol"
  | .unexpectedWord w => s!"unexpected token '{w}'"
  | .unterminatedText => "unterminated string"
  | .unterminatedEscape => "unterminated escape"
  | .trailing => "trailing input after root node"

/-- A cause and the byte at which it was found. -/
structure Error where
  offset : Nat
  cause : Cause
  deriving DecidableEq, Repr

def Error.message (e : Error) : String := s!"fixture error at byte {e.offset}: {e.cause.message}"

/-- What is left of a text, and how many bytes lie before it. -/
structure Cursor where
  rest : List Char
  offset : Nat

/-- A separator between the parts of a tree. -/
def isBlank (c : Char) : Bool :=
  c == ' ' || c == '\t' || c == '\n' || c == '\x0c' || c == '\r' || c == ','

/-- A character that ends a word. -/
def endsWord (c : Char) : Bool := isBlank c || c == '(' || c == ')'

/-- The number of bytes that characters take. -/
def byteLength (cs : List Char) : Nat := cs.foldl (fun n c => n + c.utf8Size) 0

namespace Cursor

/-- The cursor after the longest run of characters with property `p`. -/
def skipWhile (p : Char → Bool) (c : Cursor) : Cursor :=
  ⟨c.rest.dropWhile p, c.offset + byteLength (c.rest.takeWhile p)⟩

def skipBlanks (c : Cursor) : Cursor := c.skipWhile isBlank

/-- The longest word at the cursor, possibly empty, and the cursor after it. -/
def word (c : Cursor) : List Char × Cursor :=
  (c.rest.takeWhile (!endsWord ·), c.skipWhile (!endsWord ·))

end Cursor

/-- What a character after a backslash stands for. -/
def unescape (c : Char) : Char :=
  if c = 'n' then '\n'
  else if c = 't' then '\t'
  else if c = 'r' then '\r'
  else if c = 'e' then '\x1b'
  else if c = '0' then Char.ofNat 0
  else c

/-- Text up to the closing quote, collected in reverse; `start` is the offset of the opening
quote, to which errors point. -/
def quoted (start : Nat) : List Char → Nat → List Char → Except Error (String × Cursor)
  | [], _, _ => .error ⟨start, .unterminatedText⟩
  | ['\\'], _, _ => .error ⟨start, .unterminatedEscape⟩
  | '\\' :: c :: rest, offset, seen =>
    quoted start rest (offset + 1 + c.utf8Size) (unescape c :: seen)
  | c :: rest, offset, seen =>
    if c = '"' then .ok (String.ofList seen.reverse, ⟨rest, offset + 1⟩)
    else quoted start rest (offset + c.utf8Size) (c :: seen)

/-- A numeric word: an optional minus, a digit, and more. Underscores are dropped. Without a point
or exponent it is an integer, kept as its digits when it does not fit in 64 bits. -/
def number? (w : List Char) : Option Child :=
  let unsigned := match w with
    | '-' :: ds => ds
    | ds => ds
  match unsigned with
  | [] => none
  | d :: _ =>
    if !d.isDigit then none
    else
      let cleaned := w.filter (· != '_')
      if (cleaned.drop 1).all Char.isDigit then
        let value : Int := match cleaned with
          | '-' :: ds => -(Decimal.digitsValue ds : Int)
          | ds => Decimal.digitsValue ds
        if Number.isWord value then some (.int (Int64.ofInt value))
        else some (.text (String.ofList cleaned))
      else (Decimal.float? cleaned).map .float

/-- The empty word is no number. -/
theorem ne_nil_of_number? {w : List Char} {x : Child} (h : number? w = some x) : w ≠ [] := by
  rintro rfl
  cases h

mutual

/-- A tree at the cursor; `fuel` bounds the characters read. -/
def node : Nat → Cursor → Except Error (Tree × Cursor)
  | 0, c => .error ⟨c.offset, .unclosed⟩
  | fuel + 1, c =>
    match c.rest with
    | '(' :: rest =>
      let (tag, c) := (Cursor.mk rest (c.offset + 1)).skipBlanks.word
      if tag.isEmpty then .error ⟨c.offset, .expectedTag⟩
      else do
        let (children, c) ← siblings fuel c
        .ok (⟨String.ofList tag, children⟩, c)
    | _ => .error ⟨c.offset, .expectedOpen⟩

/-- The children up to the closing parenthesis. -/
def siblings : Nat → Cursor → Except Error (List Child × Cursor)
  | 0, c => .error ⟨c.offset, .unclosed⟩
  | fuel + 1, c =>
    let c := c.skipBlanks
    match c.rest with
    | [] => .error ⟨c.offset, .unclosed⟩
    | ')' :: rest => .ok ([], ⟨rest, c.offset + 1⟩)
    | _ => do
      let (x, c) ← child fuel c
      let (xs, c) ← siblings fuel c
      .ok (x :: xs, c)

/-- One child. -/
def child : Nat → Cursor → Except Error (Child × Cursor)
  | 0, c => .error ⟨c.offset, .unclosed⟩
  | fuel + 1, c =>
    match c.rest with
    | '(' :: _ => do
      let (t, c) ← node fuel c
      .ok (t.toChild, c)
    | '"' :: rest => do
      let (s, c) ← quoted c.offset rest (c.offset + 1) []
      .ok (.text s, c)
    | ':' :: '"' :: rest => do
      let (s, c) ← quoted (c.offset + 1) rest (c.offset + 2) []
      .ok (.text s, c)
    | ':' :: rest =>
      let (w, c) := (Cursor.mk rest (c.offset + 1)).word
      if w.isEmpty then .error ⟨c.offset, .emptyName⟩ else .ok (.text (String.ofList w), c)
    | _ =>
      let (w, after) := c.word
      if w = "nil".toList then .ok (.absent, after)
      else match number? w with
        | some x => .ok (x, after)
        | none => .error ⟨c.offset, .unexpectedWord (String.ofList w)⟩

end

end Reader

/-- The tree a text holds, blanks around it allowed. -/
def Tree.parse (text : String) : Except Reader.Error Tree := do
  let start := (Reader.Cursor.mk text.toList 0).skipBlanks
  let (t, c) ← Reader.node (2 * start.rest.length + 2) start
  let c := c.skipBlanks
  if c.rest.isEmpty then .ok t else .error ⟨c.offset, .trailing⟩

end Garnet
