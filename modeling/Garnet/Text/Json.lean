import Garnet.Decimal.Numeral

/-!
# JSON texts

A reader for JSON values. Numbers are kept as integers when they are written without point and
exponent and fit in 64 bits, and as doubles otherwise; a number beyond the doubles is an error, as
are lone surrogates, control characters in strings and more than 127 nested brackets. Doubles are read
at the best effort, which need not be the nearest one.
A member that nobody asks for may be passed over without those limits.
-/

namespace Garnet.Text

/-- A JSON value; an object keeps its members in order, repeated names included. -/
inductive Json where
  | null
  | bool (value : Bool)
  | int (value : Int)
  | float (value : Float)
  | text (value : String)
  | list (items : List Json)
  | object (members : List (String × Json))

namespace Json

/-- Whether values are read, or only passed over. -/
inductive Mode where
  | read
  | pass
  deriving DecidableEq

abbrev Input := List Char

def isSpace (c : Char) : Bool := c == ' ' || c == '\n' || c == '\t' || c == '\r'

def skipSpace (cs : Input) : Input := cs.dropWhile isSpace

def hexDigit? (c : Char) : Option Nat :=
  if c.isDigit then some (c.toNat - '0'.toNat)
  else if 'a' ≤ c && c ≤ 'f' then some (c.toNat - 'a'.toNat + 10)
  else if 'A' ≤ c && c ≤ 'F' then some (c.toNat - 'A'.toNat + 10)
  else none

/-- Four hexadecimal digits. -/
def hexFour? : Input → Option (Nat × Input)
  | a :: b :: c :: d :: rest => do
    let a ← hexDigit? a
    let b ← hexDigit? b
    let c ← hexDigit? c
    let d ← hexDigit? d
    some (((a * 16 + b) * 16 + c) * 16 + d, rest)
  | _ => none

/-- The code point of an escape `\u`, joining a pair of surrogates. -/
def codePoint? (mode : Mode) (cs : Input) : Option (Char × Input) := do
  let (n, rest) ← hexFour? cs
  if mode == .pass then some (Char.ofNat n, rest)
  else if 0xDC00 ≤ n && n ≤ 0xDFFF then none
  else if 0xD800 ≤ n && n ≤ 0xDBFF then
    match rest with
    | '\\' :: 'u' :: rest => do
      let (m, rest) ← hexFour? rest
      if 0xDC00 ≤ m && m ≤ 0xDFFF then
        some (Char.ofNat (0x10000 + (n - 0xD800) * 0x400 + (m - 0xDC00)), rest)
      else none
    | _ => none
  else some (Char.ofNat n, rest)

/-- A string after its opening quote; `fuel` bounds the characters read. -/
def string? (mode : Mode) : Nat → Input → List Char → Option (String × Input)
  | 0, _, _ => none
  | fuel + 1, cs, seen =>
    match cs with
    | [] => none
    | '"' :: rest => some (String.ofList seen.reverse, rest)
    | '\\' :: 'u' :: rest => do
      let (c, rest) ← codePoint? mode rest
      string? mode fuel rest (c :: seen)
    | '\\' :: e :: rest => do
      let c ← match e with
        | '"' => some '"'
        | '\\' => some '\\'
        | '/' => some '/'
        | 'b' => some '\x08'
        | 'f' => some '\x0c'
        | 'n' => some '\n'
        | 'r' => some '\r'
        | 't' => some '\t'
        | _ => none
      string? mode fuel rest (c :: seen)
    | ['\\'] => none
    | c :: rest => if c.toNat < 0x20 then none else string? mode fuel rest (c :: seen)

/-- The digits after a mark that demands at least one. -/
def someDigits? (cs : Input) : Option (List Char × Input) :=
  let ds := cs.takeWhile Char.isDigit
  if ds.isEmpty then none else some (ds, cs.dropWhile Char.isDigit)

/-- The integer part of a number: a lone zero or digits without a leading zero. -/
def integerPart? (cs : Input) : Option (List Char × Input) := do
  let (ds, rest) ← someDigits? cs
  if ds.length > 1 && ds.head? == some '0' then none else some (ds, rest)

/-- The fraction of a number, if it has one. -/
def fraction? : Input → Option (Option (List Char) × Input)
  | '.' :: rest => do
    let (ds, rest) ← someDigits? rest
    some (some ds, rest)
  | rest => some (none, rest)

/-- The exponent of a number, if it has one. -/
def exponent? : Input → Option (Option Int × Input)
  | c :: rest =>
    if c == 'e' || c == 'E' then do
      let (negative, rest) := Decimal.splitSign rest
      let (ds, rest) ← someDigits? rest
      let e ← Decimal.exponent? ('e' :: ds)
      some (some (if negative then -e else e), rest)
    else some (none, c :: rest)
  | [] => some (none, [])

/-- A digit behind others, when 64 bits hold the number. -/
@[irreducible]
def pushDigit? (m : Nat) (c : Char) : Option Nat :=
  let n := 10 * m + (c.toNat - '0'.toNat)
  if n < 0x10000000000000000 then some n else none

/-- The number that the first digits make up behind `m` in 64 bits, and how many are left. -/
def wholeDigits : List Char → Nat → Nat × Nat
  | [], m => (m, 0)
  | c :: cs, m =>
    match pushDigit? m c with
    | some m => wholeDigits cs m
    | none => (m, cs.length + 1)

/-- The number that the first digits of a fraction make up behind `m` in 64 bits, and how many these
are. The others do not count. -/
def fractionDigits : List Char → Nat → Nat × Nat
  | [], m => (m, 0)
  | c :: cs, m =>
    match pushDigit? m c with
    | some m =>
      let (m, places) := fractionDigits cs m
      (m, places + 1)
    | none => (m, 0)

/-- The largest exponent of a power of ten among the doubles. -/
def maxPower : Nat := 308

def powerOfTen (k : Nat) : Float := Decimal.toFloat 1 k

/-- `x / 10 ^ k`, by powers of ten that are doubles; zero stays zero. -/
def shrink (x : Float) (k : Nat) : Float :=
  if k ≤ maxPower then x / powerOfTen k
  else if x == 0 then x
  else shrink (x / powerOfTen maxPower) (k - maxPower)
termination_by k
decreasing_by
  have : 0 < maxPower := by decide
  omega

/-- `m · 10 ^ e`, rounded when `m` becomes a double and again with each power of ten. -/
def scaled (m : Nat) (e : Int) : Float :=
  let x := Decimal.ofInt m
  if e < 0 then shrink x (-e).toNat
  else if e ≤ maxPower then x * powerOfTen e.toNat
  else if m == 0 then x
  else Float.ofBits 0x7ff0000000000000

/-- The double that digits with a fraction and an exponent are read as. -/
def double (whole fraction : List Char) (e : Int) : Float :=
  let (m, left) := wholeDigits whole 0
  let (m, places) := fractionDigits fraction m
  scaled m (e + left - places)

/-- A whole number as a value: negative zero and what does not fit in 64 bits are doubles. -/
def ofWhole (negative : Bool) (whole : List Char) : Json :=
  let n := Decimal.digitsValue whole
  if negative then
    if 0 < n && n ≤ 0x8000000000000000 then .int (-n) else .float (-(double whole [] 0))
  else if n < 0x10000000000000000 then .int n
  else .float (double whole [] 0)

/-- What a number without a point and an exponent is, and what one with either is. -/
def numberValue (negative : Bool) (whole : List Char) :
    Option (List Char) → Option Int → Json
  | none, none => ofWhole negative whole
  | f, e =>
    let x := double whole (f.getD []) (e.getD 0)
    .float (if negative then -x else x)

/-- The minus at the front of a number, if it has one. -/
def splitMinus : Input → Bool × Input
  | '-' :: cs => (true, cs)
  | cs => (false, cs)

/-- A number; one that is too large for a double is refused when it is read. -/
def number? (mode : Mode) (cs : Input) : Option (Json × Input) := do
  let (negative, cs) := splitMinus cs
  let (whole, rest) ← integerPart? cs
  let (fraction, rest) ← fraction? rest
  let (exponent, rest) ← exponent? rest
  let value := numberValue negative whole fraction exponent
  match mode, value with
  | .read, .float x => if x.isInf then none else some (value, rest)
  | _, _ => some (value, rest)

/-- The rest after an expected word. -/
def expect? : List Char → Input → Option Input
  | [], cs => some cs
  | w :: ws, c :: cs => if w == c then expect? ws cs else none
  | _ :: _, [] => none

mutual

/-- A value at the front of the input. `level` is how many brackets may still be opened when values
are read. -/
def value? (mode : Mode) : Nat → Nat → Input → Option (Json × Input)
  | 0, _, _ => none
  | fuel + 1, level, cs =>
    match skipSpace cs with
    | [] => none
    | '"' :: rest => do
      let (s, rest) ← string? mode (rest.length + 1) rest []
      some (.text s, rest)
    | '[' :: rest =>
      if mode == .read && level == 0 then none
      else match skipSpace rest with
        | ']' :: rest => some (.list [], rest)
        | rest => do
          let (xs, rest) ← items? mode fuel (level - 1) rest
          some (.list xs, rest)
    | '\x7b' :: rest =>
      if mode == .read && level == 0 then none
      else match skipSpace rest with
        | '\x7d' :: rest => some (.object [], rest)
        | rest => do
          let (xs, rest) ← members? mode (fun _ => mode) fuel (level - 1) rest
          some (.object xs, rest)
    | 'n' :: rest => do
      let rest ← expect? "ull".toList rest
      some (.null, rest)
    | 't' :: rest => do
      let rest ← expect? "rue".toList rest
      some (.bool true, rest)
    | 'f' :: rest => do
      let rest ← expect? "alse".toList rest
      some (.bool false, rest)
    | rest => number? mode rest

/-- The items of a non-empty list and its closing bracket. -/
def items? (mode : Mode) : Nat → Nat → Input → Option (List Json × Input)
  | 0, _, _ => none
  | fuel + 1, level, cs => do
    let (x, rest) ← value? mode fuel level cs
    match skipSpace rest with
    | ',' :: rest => do
      let (xs, rest) ← items? mode fuel level rest
      some (x :: xs, rest)
    | ']' :: rest => some ([x], rest)
    | _ => none

/-- The members of a non-empty object and its closing bracket; `modeOf` tells how the value of a
member is read. -/
def members? (mode : Mode) (modeOf : String → Mode) :
    Nat → Nat → Input → Option (List (String × Json) × Input)
  | 0, _, _ => none
  | fuel + 1, level, cs =>
    match skipSpace cs with
    | '"' :: rest => do
      let (name, rest) ← string? mode (rest.length + 1) rest []
      match skipSpace rest with
      | ':' :: rest => do
        let (x, rest) ← value? (modeOf name) fuel level rest
        match skipSpace rest with
        | ',' :: rest => do
          let (xs, rest) ← members? mode modeOf fuel level rest
          some ((name, x) :: xs, rest)
        | '\x7d' :: rest => some ([(name, x)], rest)
        | _ => none
      | _ => none
    | _ => none

end

/-- The largest number of nested brackets. -/
def maxNesting : Nat := 127

/-- The value a text holds. Members of an outermost object whose name is not in `names` are only
passed over. -/
def parse? (names : List String) (text : String) : Option Json := do
  let cs := skipSpace text.toList
  let fuel := 2 * cs.length + 2
  let (value, rest) ← match cs with
    | '\x7b' :: rest =>
      match skipSpace rest with
      | '\x7d' :: rest => some (Json.object [], rest)
      | rest => do
        let modeOf := fun name => if names.contains name then Mode.read else Mode.pass
        let (xs, rest) ← members? .read modeOf fuel (maxNesting - 1) rest
        some (Json.object xs, rest)
    | cs => value? .read fuel maxNesting cs
  if (skipSpace rest).isEmpty then some value else none

end Json

end Garnet.Text
