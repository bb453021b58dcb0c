import Garnet.Decimal.Digits
import Garnet.Text.Letters

/-!
# How values are written

Texts in quotes, symbols after a colon, and floats with the fewest digits that read back. A float is
written positionally when its point falls at most three places before its first digit or at most
sixteen after it, and with an exponent of at least two digits otherwise.
-/

namespace Garnet.Text

/-! ## Floats -/

/-- Which floats are written positionally, and how long an exponent is at least. -/
structure FloatStyle where
  lowest : Int
  highest : Int
  exponentWidth : Nat
  tie : Decimal.Tie

/-- The style of float values. -/
def floatStyle : FloatStyle := ⟨-3, 16, 2, .toEven⟩

/-- An exponent with its sign and at least `width` digits. -/
def exponentText (width : Nat) (e : Int) : List Char :=
  let ds := Nat.toDigits 10 e.natAbs
  (if e < 0 then '-' else '+') :: List.replicate (width - ds.length) '0' ++ ds

/-- A non-zero magnitude in a style. -/
def writtenText (style : FloatStyle) (x : Decimal.Written) : List Char :=
  if style.lowest ≤ x.point && x.point ≤ style.highest then
    if x.digits.length ≤ x.point.toNat then x.positional ++ ".0".toList else x.positional
  else
    let rest := x.digits.drop 1
    x.digits.take 1 ++ '.' :: (if rest.isEmpty then ['0'] else rest) ++
      'e' :: exponentText style.exponentWidth (x.point - 1)

def floatChars (x : Float) : List Char :=
  match Decimal.Finite.ofFloat? x with
  | none =>
    if x.isNaN then "NaN".toList
    else if x > 0 then "Infinity".toList
    else "-Infinity".toList
  | some f =>
    let sign := if f.negative then ['-'] else []
    if f.mantissa == 0 then sign ++ "0.0".toList
    else sign ++ writtenText floatStyle (f.shortest floatStyle.tie).written

def floatText (x : Float) : String := String.ofList (floatChars x)

/-! ## Texts and symbols -/

/-- Two hexadecimal digits. -/
def hexPair (n : Nat) : List Char :=
  let ds := (Nat.toDigits 16 n).map Char.toUpper
  List.replicate (2 - ds.length) '0' ++ ds

/-- Whether `#` before this character would begin an interpolation. -/
def opensInterpolation : List Char → Bool
  | c :: _ => c == '\x7b' || c == '$' || c == '@'
  | [] => false

/-- A text between the quotes: quotes, backslashes, controls and the beginnings of interpolations
are escaped. -/
def inspectChars : List Char → List Char
  | [] => []
  | c :: rest =>
    let here :=
      if c == '"' then ['\\', '"']
      else if c == '\\' then ['\\', '\\']
      else if c == '\n' then ['\\', 'n']
      else if c == '\t' then ['\\', 't']
      else if c == '\r' then ['\\', 'r']
      else if c == '\x1b' then ['\\', 'e']
      else if c == '#' && opensInterpolation rest then ['\\', '#']
      else if c.toNat < 0x20 || c.toNat == 0x7f then '\\' :: 'x' :: hexPair c.toNat
      else [c]
    here ++ inspectChars rest

def inspectText (s : String) : String := String.ofList ('"' :: inspectChars s.toList ++ ['"'])

/-- Operators that are written bare after a colon. -/
def operatorNames : List String :=
  ["+", "-", "*", "/", "%", "**", "==", "!=", "<", ">", "<=", ">=", "<=>", "===", "[]", "[]=",
   "!", "=~", "!~", "<<", ">>", "&", "|", "^", "~", "+@", "-@"]

/-- A letter or underscore, then letters, digits and underscores. -/
def isIdentifier : List Char → Bool
  | [] => false
  | c :: cs => (isAlphabetic c || c == '_') && cs.all fun c => isAlphanumeric c || c == '_'

/-- The part of a name that must be an identifier: without a sigil in front, or else without one
mark at the end. -/
def nameBody (cs : List Char) : List Char :=
  match cs with
  | '@' :: '@' :: rest => rest
  | '@' :: rest => rest
  | '$' :: rest => rest
  | _ =>
    match cs.getLast? with
    | some c => if c == '?' || c == '!' || c == '=' then cs.dropLast else cs
    | none => cs

def isPlainSymbol (s : String) : Bool :=
  operatorNames.contains s || isIdentifier (nameBody s.toList)

def inspectSymbol (s : String) : String :=
  ":" ++ if isPlainSymbol s then s else inspectText s

end Garnet.Text
