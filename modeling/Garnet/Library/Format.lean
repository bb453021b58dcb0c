import Garnet.Decimal.Digits
import Garnet.Library.Basic
import Garnet.Number.Digits
import Garnet.Text.CharClass

/-!
# Format directives

A directive is `%`, flags among `-`, `+`, blank and `0`, a width, a point with a precision, and a
letter. It takes the next argument; `%%` takes none.
-/

namespace Garnet

/-- A directive of a format, without the letter that names its kind. -/
structure Directive where
  left : Bool := false
  plus : Bool := false
  space : Bool := false
  zero : Bool := false
  width : Nat := 0
  precision : Option Nat := none

namespace Directive

/-- Reads flags, in any order and number. -/
def flags : List Char → Directive → Directive × List Char
  | '-' :: cs, d => flags cs { d with left := true }
  | '+' :: cs, d => flags cs { d with plus := true }
  | ' ' :: cs, d => flags cs { d with space := true }
  | '0' :: cs, d => flags cs { d with zero := true }
  | cs, d => (d, cs)

/-- A number is added up digit by digit in 64 bits, and wraps around beyond them. -/
def number (cs : List Char) : Nat × List Char :=
  (Number.ofDigits 10 (cs.takeWhile Char.isDigit) % 0x10000000000000000, cs.dropWhile Char.isDigit)

/-- Reads everything up to the letter. -/
def read (cs : List Char) : Directive × List Char :=
  let (d, cs) := flags cs {}
  let (width, cs) := number cs
  let d := { d with width }
  match cs with
  | '.' :: cs =>
    let (p, cs) := number cs
    ({ d with precision := some p }, cs)
  | cs => (d, cs)

/-- The mark of a sign: a minus, or what the flags ask for in front of a number. -/
def sign (d : Directive) (negative numeric : Bool) : List Char :=
  if negative then ['-']
  else if numeric && d.plus then ['+']
  else if numeric && d.space then [' ']
  else []

/-- Sign and body filled up to the width: on the right, or on the left with zeros or blanks. -/
def fill (d : Directive) (negative numeric : Bool) (body : List Char) : List Char :=
  let mark := d.sign negative numeric
  let missing := d.width - (mark.length + body.length)
  if d.left then mark ++ body ++ List.replicate missing ' '
  else if d.zero && numeric then mark ++ List.replicate missing '0' ++ body
  else List.replicate missing ' ' ++ mark ++ body

end Directive

/-- The text of a magnitude with a given number of places; what is not finite has a name. -/
def placesText (x : Float) (render : Decimal.Finite → List Char) : List Char :=
  match Decimal.Finite.ofFloat? x with
  | some f => render f
  | none => if x.isNaN then "NaN".toList else "inf".toList

def fixedText (x : Float) (places : Nat) : List Char := placesText x (·.fixed places)

/-- Digits with a point after the first, and a signed exponent of at least two digits. -/
def scientificText (x : Float) (places : Nat) (mark : Char) : List Char :=
  let (body, e) := match Decimal.Finite.ofFloat? x with
    | some f =>
      let (n, e) := f.significant places
      (Decimal.Finite.significantText n places, e)
    | none => (placesText x fun _ => [], 0)
  body ++ mark :: Text.exponentText 2 e

/-- Whether a float is written with a minus sign; no zero is. -/
def isNegative (x : Float) : Bool := x < 0.0

namespace Eval

/-- The integer that an integer directive writes. -/
def formatInteger (v : Value) : Op Int := do
  match ← payload v with
  | .float x => pure x.floor.toInt64.toInt
  | .integer i => pure i
  | _ =>
    let t ← toText v
    match Number.integer? (Text.trim t.toList) with
    | some i => pure i
    | none =>
      let shown := Text.inspectText t
      argumentError s!"invalid value for Integer(): {shown}"

def formatFloat (v : Value) : Op Float := do
  match ← view (·.number? v) with
  | some x => pure x
  | none => cantConvert v "Float"

/-- The text of one argument under a directive. -/
def formatOne (d : Directive) (kind : Char) (v : Value) : Op (List Char) := do
  let places := d.precision.getD 6
  let integer := fun radix => do
    let i ← formatInteger v
    pure (d.fill (i < 0) true (Number.digits radix i.natAbs))
  let float := fun render => do
    let x ← formatFloat v
    pure (d.fill (isNegative x) true (render x.abs))
  let text := fun body => pure (d.fill false false body)
  match kind with
  | 'd' | 'i' | 'u' => integer 10
  | 'x' => integer 16
  | 'X' => do
    let i ← formatInteger v
    pure (d.fill (i < 0) true ((Number.digits 16 i.natAbs).map Char.toUpper))
  | 'o' => integer 8
  | 'b' | 'B' => integer 2
  | 'f' => float (fixedText · places)
  | 'e' => float (scientificText · places 'e')
  | 'E' => float (scientificText · places 'E')
  | 'g' | 'G' => float Text.floatChars
  | 'c' =>
    match ← view (·.word? v) with
    | some i => text (Text.charOf? i).toList
    | none => text ((← toText v).toList.take 1)
  | 'p' => text (← inspect v).toList
  | 's' =>
    let cs := (← toText v).toList
    text (match d.precision with
      | some n => cs.take n
      | none => cs)
  | other =>
    argumentError s!"malformed format string - %{other}"

/-- Writes arguments as a format says; `fuel` bounds the length of the format. -/
def formatLoop : Nat → List Char → List Value → List Char → Op (List Char)
  | 0, _, _, out => pure out
  | _ + 1, [], _, out => pure out
  | fuel + 1, '%' :: cs, args, out => do
    match Directive.read cs with
    | (_, []) => argumentError "incomplete format specifier; use %% (double %) instead"
    | (_, '%' :: cs) => formatLoop fuel cs args ('%' :: out)
    | (d, kind :: cs) =>
      match args with
      | [] => argumentError "too few arguments"
      | v :: args =>
        let body ← formatOne d kind v
        formatLoop fuel cs args (body.reverse ++ out)
  | fuel + 1, c :: cs, args, out => formatLoop fuel cs args (c :: out)

def formatText (format : String) (args : List Value) : Op String := do
  let cs := format.toList
  let out ← formatLoop (cs.length + 1) cs args []
  pure (String.ofList out.reverse)

end Eval

end Garnet
