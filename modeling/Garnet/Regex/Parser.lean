import Garnet.Regex.Machine

/-!
# Reading patterns

The notation has literals, escapes, bracketed sets with intersection and difference, groups with
and without a number, options that hold to the end of their group, and greedy and lazy repetition.
There are no back references and no looking around.
-/

namespace Garnet.Regex

/-- The options in force. -/
structure Options where
  ignoreCase : Bool := false
  multiLine : Bool := false
  dotAll : Bool := false
  swapGreed : Bool := false
  extended : Bool := false
  unicode : Bool := true

/-- What is left of a pattern, the options in force, and the groups opened so far. -/
structure Reading where
  rest : List Char
  options : Options := {}
  groups : Nat := 1
  names : List String := []

abbrev Read := StateT Reading Option

namespace Read

variable {α : Type}

def fail : Read α := fun _ => none

def peek? : Read (Option Char) := do pure (← get).rest.head?

def peekSecond? : Read (Option Char) := do pure ((← get).rest.drop 1).head?

def skip (n : Nat) : Read Unit := modify fun s => { s with rest := s.rest.drop n }

/-- The next character, which must be there. -/
def take : Read Char := do
  match (← get).rest with
  | c :: cs => modify fun s => { s with rest := cs }; pure c
  | [] => fail

/-- Skips `word` if it is next. -/
def accept (word : String) : Read Bool := do
  let s ← get
  if word.toList.isPrefixOf s.rest then
    skip word.length
    pure true
  else pure false

/-- The rest after blanks and comments. -/
def afterBlanks : Nat → List Char → List Char
  | 0, cs => cs
  | n + 1, cs =>
    match cs.dropWhile Text.isBlank with
    | '#' :: rest => afterBlanks n (rest.dropWhile (· != '\n'))
    | rest => rest

/-- In the extended notation blanks and comments do not count. -/
def skipBlanks : Read Unit := do
  let s ← get
  if s.options.extended then set { s with rest := afterBlanks s.rest.length s.rest }

/-- The character after the next one, blanks not counted. -/
def peekAfter? : Read (Option Char) := do
  let s ← get
  let rest := s.rest.drop 1
  if s.options.extended then pure (afterBlanks rest.length rest).head? else pure rest.head?

end Read

open Read

/-! ## Single characters and sets -/

def isMeta (c : Char) : Bool := "\\.+*?()|[]\x7b\x7d^$#&-~".toList.contains c

/-- Whether a backslash before `c` gives `c` itself. -/
def isEscapable (c : Char) : Bool :=
  isMeta c || (c.toNat < 128 && !c.isAlphanum && c != '<' && c != '>')

def hexValue? (c : Char) : Option Nat :=
  if c.isDigit then some (c.toNat - '0'.toNat)
  else if 'a' ≤ c && c ≤ 'f' then some (c.toNat - 'a'.toNat + 10)
  else if 'A' ≤ c && c ≤ 'F' then some (c.toNat - 'A'.toNat + 10)
  else none

/-- The character with a hexadecimal code point. -/
def charOfHex? (ds : List Char) : Option Char := do
  if ds.isEmpty then none
  let n ← ds.foldlM (fun n c => (hexValue? c).map (16 * n + ·)) 0
  if h : n.isValidChar then some (Char.ofNatAux n h) else none

/-- A code point after `\x`, `\u` or `\U`: `width` digits, or any number in braces. -/
def hexEscape (width : Nat) : Read Char := do
  let ds ← if ← accept "\x7b" then do
      let rest := (← get).rest
      let ds := rest.takeWhile (· != '\x7d')
      if ds.length == rest.length then fail
      else do
        skip (ds.length + 1)
        pure ds
    else do
      let ds := (← get).rest.take width
      if ds.length < width then fail
      else do
        skip width
        pure ds
  match charOfHex? ds with
  | some c => pure c
  | none => fail

def asciiDigit : Chars := .range '0' '9'
def asciiSpace : Chars := .either (.range '\t' '\r') (.single ' ')
def asciiLower : Chars := .range 'a' 'z'
def asciiUpper : Chars := .range 'A' 'Z'
def asciiAlpha : Chars := .either asciiLower asciiUpper
def asciiAlnum : Chars := .either asciiAlpha asciiDigit
def asciiWord : Chars := .either asciiAlnum (.single '_')
def asciiPunct : Chars :=
  .either (.either (.range '!' '/') (.range ':' '@')) (.either (.range '[' '\x60') (.range '\x7b' '~'))

/-- The sets with a name in double brackets. -/
def namedSet? : String → Option Chars
  | "alnum" => some asciiAlnum
  | "alpha" => some asciiAlpha
  | "ascii" => some (.range (Char.ofNat 0) '\x7f')
  | "blank" => some (.either (.single '\t') (.single ' '))
  | "cntrl" => some (.either (.range (Char.ofNat 0) '\x1f') (.single '\x7f'))
  | "digit" => some asciiDigit
  | "graph" => some (.range '!' '~')
  | "lower" => some asciiLower
  | "print" => some (.range ' ' '~')
  | "punct" => some asciiPunct
  | "space" => some asciiSpace
  | "upper" => some asciiUpper
  | "word" => some asciiWord
  | "xdigit" => some (.either asciiDigit (.either (.range 'a' 'f') (.range 'A' 'F')))
  | _ => none

/-- The set of a property name, spelled without regard to case, blanks and underscores. -/
def property? (name : String) : Option Chars :=
  let kept := name.toList.filter fun c => c != ' ' && c != '_' && c != '-'
  let key := String.ofList (kept.map Char.toLower)
  match key with
  | "l" | "letter" | "alphabetic" | "alpha" => some .alphabetic
  | "lu" | "uppercase" | "uppercaseletter" | "upper" => some .upper
  | "ll" | "lowercase" | "lowercaseletter" | "lower" => some .lower
  | "n" | "number" => some .numeric
  | "nd" | "decimalnumber" | "digit" => some .digit
  | "whitespace" | "space" | "wspace" => some .space
  | "any" => some .any
  | "ascii" => some (.range (Char.ofNat 0) '\x7f')
  | _ => none

/-- The set of a property after `\p`. -/
def propertyEscape : Read Chars := do
  let name ← if ← accept "\x7b" then do
      let rest := (← get).rest
      let ds := rest.takeWhile (· != '\x7d')
      if ds.length == rest.length then fail
      else do
        skip (ds.length + 1)
        pure ds
    else do
      let c ← take
      pure [c]
  let (negated, name) := match name with
    | '^' :: cs => (true, cs)
    | cs => (false, cs)
  match property? (String.ofList name) with
  | some s => pure (if negated then .not s else s)
  | none => fail

/-- What an escape stands for. -/
inductive Escape where
  | char (c : Char)
  | set (s : Chars)
  | look (l : Look)

/-- An escape after its backslash. -/
def escape : Read Escape := do
  let c ← take
  let unicode := (← get).options.unicode
  let d := if unicode then Chars.digit else asciiDigit
  let sp := if unicode then Chars.space else asciiSpace
  let w := if unicode then Chars.word else asciiWord
  match c with
  | 'd' => pure (.set d)
  | 'D' => pure (.set (.not d))
  | 's' => pure (.set sp)
  | 'S' => pure (.set (.not sp))
  | 'w' => pure (.set w)
  | 'W' => pure (.set (.not w))
  | 'p' => .set <$> propertyEscape
  | 'P' => do
    let s ← propertyEscape
    pure (.set (.not s))
  | 'x' => .char <$> hexEscape 2
  | 'u' => .char <$> hexEscape 4
  | 'U' => .char <$> hexEscape 8
  | 'a' => pure (.char '\x07')
  | 'f' => pure (.char '\x0c')
  | 't' => pure (.char '\t')
  | 'n' => pure (.char '\n')
  | 'r' => pure (.char '\r')
  | 'v' => pure (.char '\x0b')
  | 'A' => pure (.look .textStart)
  | 'z' => pure (.look .textEnd)
  | 'B' => pure (.look .notWordBoundary)
  | '<' => pure (.look .wordStart)
  | '>' => pure (.look .wordEnd)
  | 'b' =>
    if ← accept "\x7bstart\x7d" then pure (.look .wordStart)
    else if ← accept "\x7bend\x7d" then pure (.look .wordEnd)
    else pure (.look .wordBoundary)
  | c => if isEscapable c then pure (.char c) else fail

/-- Closes a set under case when case is ignored. -/
def fold (ignoreCase : Bool) (s : Chars) : Chars := if ignoreCase then .folded s else s

/-! ## Bracketed sets -/

/-- One member of a bracketed set that may begin a range. -/
def setMember : Read Escape := do
  let c ← take
  if c == '\\' then
    match ← escape with
    | .look _ => fail
    | e => pure e
  else pure (.char c)

/-- A member or a range of characters. -/
def setRange : Read Chars := do
  let low ← setMember
  skipBlanks
  let ranged := (← peek?) == some '-' && match ← peekAfter? with
    | some c => c != ']' && c != '-'
    | none => true
  if !ranged then
    match low with
    | .char c => pure (.single c)
    | .set s => pure s
    | .look _ => fail
  else
    skip 1
    skipBlanks
    let high ← setMember
    match low, high with
    | .char a, .char b => if a ≤ b then pure (.range a b) else fail
    | _, _ => fail

/-- A set such as `[:alpha:]` at the opening bracket, if there is one. -/
def posixSet? : Read (Option Chars) := do
  let rest := (← get).rest
  match rest with
  | '[' :: ':' :: cs =>
    let (negated, cs') := match cs with
      | '^' :: ds => (true, ds)
      | ds => (false, ds)
    let name := cs'.takeWhile Char.isAlpha
    if ":]".toList.isPrefixOf (cs'.drop name.length) then
      match namedSet? (String.ofList name) with
      | some s =>
        skip (2 + (cs.length - cs'.length) + name.length + 2)
        pure (some (if negated then .not s else s))
      | none => pure none
    else pure none
  | _ => pure none

/-- How the set so far is joined with the one being read. -/
inductive SetOp where
  | both
  | minus
  | symmetric

def SetOp.apply : Option (SetOp × Chars) → Chars → Chars
  | none, s => s
  | some (.both, t), s => .both t s
  | some (.minus, t), s => .both t (.not s)
  | some (.symmetric, t), s => .either (.both t (.not s)) (.both s (.not t))

mutual

/-- A bracketed set after its opening bracket. -/
def bracket : Nat → Read Chars
  | 0 => fail
  | n + 1 => do
    let ignoreCase := (← get).options.ignoreCase
    skipBlanks
    let negated ← accept "^"
    skipBlanks
    let dashes := (← get).rest.takeWhile (· == '-')
    skip dashes.length
    let start : Chars := if dashes.isEmpty then .none else .single '-'
    skipBlanks
    let start ← if dashes.isEmpty && (← peek?) == some ']' then do
        skip 1
        pure (.single ']')
      else pure start
    let s ← bracketItems n none start
    pure (if negated then .not (fold ignoreCase s) else fold ignoreCase s)

/-- The members up to the closing bracket; `left` waits for its right side. -/
def bracketItems : Nat → Option (SetOp × Chars) → Chars → Read Chars
  | 0, _, _ => fail
  | n + 1, left, s => do
    let ignoreCase := (← get).options.ignoreCase
    skipBlanks
    match ← peek? with
    | none => fail
    | some ']' =>
      skip 1
      pure (SetOp.apply left (fold ignoreCase s))
    | some '[' =>
      match ← posixSet? with
      | some t => bracketItems n left (.either s t)
      | none =>
        skip 1
        let t ← bracket n
        bracketItems n left (.either s t)
    | some c =>
      let second ← peekSecond?
      let op := if c == '&' && second == some '&' then some SetOp.both
        else if c == '-' && second == some '-' then some SetOp.minus
        else if c == '~' && second == some '~' then some SetOp.symmetric
        else none
      match op with
      | some op =>
        skip 2
        bracketItems n (some (op, SetOp.apply left (fold ignoreCase s))) .none
      | none =>
        let t ← setRange
        bracketItems n left (.either s t)

end

/-! ## Groups and repetition -/

/-- A count of a repetition. -/
def count : Read (Option Nat) := do
  modify fun s => { s with rest := s.rest.dropWhile Text.isBlank }
  let ds := (← get).rest.takeWhile Char.isDigit
  skip ds.length
  modify fun s => { s with rest := s.rest.dropWhile Text.isBlank }
  if ds.isEmpty then pure none
  else
    let n := ds.foldl (fun n c => 10 * n + (c.toNat - '0'.toNat)) 0
    if n < 0x100000000 then pure (some n) else fail

/-- The bounds of a counted repetition after its opening brace. -/
def bounds : Read (Nat × Option Nat) := do
  skipBlanks
  let low ← count
  match low, ← peek? with
  | some n, some '\x7d' =>
    skip 1
    pure (n, some n)
  | some n, some ',' =>
    skip 1
    skipBlanks
    if ← accept "\x7d" then pure (n, none)
    else
      match ← count with
      | some m =>
        if n ≤ m && (← accept "\x7d") then pure (n, some m) else fail
      | none => fail
  | _, _ => fail

/-- A repetition of `a`; a question mark makes it lazy. -/
def repetition (a : Node) (min : Nat) (max : Option Nat) : Read Node := do
  let lazy ← accept "?"
  let swap := (← get).options.swapGreed
  pure (.repeated a min max (lazy == swap))

/-- Options of a group up to a colon or a closing parenthesis; `on` tells whether they are set or
cleared, `empty` whether none was read since the last change of that. -/
def optionLetters : Nat → Bool → Bool → Options → Read (Options × Bool × Bool)
  | 0, _, _, _ => fail
  | n + 1, on, empty, o => do
    let c ← take
    match c with
    | ':' => if empty && !on then fail else pure (o, true, empty)
    | ')' => if empty then fail else pure (o, false, empty)
    | '-' => if on then optionLetters n false true o else fail
    | 'i' => optionLetters n on false { o with ignoreCase := on }
    | 'm' => optionLetters n on false { o with multiLine := on }
    | 's' => optionLetters n on false { o with dotAll := on }
    | 'U' => optionLetters n on false { o with swapGreed := on }
    | 'x' => optionLetters n on false { o with extended := on }
    | 'u' => optionLetters n on false { o with unicode := on }
    | 'R' => optionLetters n on false o
    | _ => fail

/-- The name of a group up to the closing angle bracket. -/
def groupName : Read Unit := do
  let s ← get
  let name := s.rest.takeWhile (· != '>')
  let valid := match name with
    | c :: cs => (Text.isAlphabetic c || c == '_') &&
        cs.all fun c => Text.isAlphanumeric c || c == '_' || c == '.' || c == '[' || c == ']'
    | [] => false
  let key := String.ofList name
  if !valid || name.length == s.rest.length || s.names.contains key then fail
  else set { s with rest := s.rest.drop (name.length + 1), names := key :: s.names }

def newGroup : Read Nat := fun s => some (s.groups, { s with groups := s.groups + 1 })

/-- The pattern for one character that stands for itself. -/
def literal (c : Char) : Read Node := do
  let ignoreCase := (← get).options.ignoreCase
  pure (.chars (fold (ignoreCase && (Text.caseVariants c).length > 1) (.single c)))

def catAll : List Node → Node
  | [] => .empty
  | [a] => a
  | a :: as => .cat a (catAll as)

mutual

/-- Alternatives up to a closing parenthesis or the end. -/
def alternatives : Nat → Read Node
  | 0 => fail
  | n + 1 => do
    let a ← sequence n []
    if ← accept "|" then
      let b ← alternatives n
      pure (.alt a b)
    else pure a

/-- Patterns in a row, `seen` in reverse; an entry of `none` can not be repeated. -/
def sequence : Nat → List (Option Node) → Read Node
  | 0, _ => fail
  | n + 1, seen => do
    skipBlanks
    match ← peek? with
    | none | some '|' | some ')' => pure (catAll (seen.reverse.filterMap id))
    | some '*' =>
      skip 1
      repeatLast n seen 0 none
    | some '+' =>
      skip 1
      repeatLast n seen 1 none
    | some '?' =>
      skip 1
      repeatLast n seen 0 (some 1)
    | some '\x7b' =>
      match seen with
      | some _ :: _ =>
        skip 1
        let (low, high) ← bounds
        repeatLast n seen low high
      | _ => fail
    | some '(' =>
      skip 1
      let a ← group n
      sequence n (a :: seen)
    | some '[' =>
      skip 1
      let s ← bracket n
      sequence n (some (.chars s) :: seen)
    | some '.' =>
      skip 1
      let all := (← get).options.dotAll
      sequence n (some (.chars (if all then .any else .not (.single '\n'))) :: seen)
    | some '^' =>
      skip 1
      let lines := (← get).options.multiLine
      sequence n (some (.look (if lines then .lineStart else .textStart)) :: seen)
    | some '$' =>
      skip 1
      let lines := (← get).options.multiLine
      sequence n (some (.look (if lines then .lineEnd else .textEnd)) :: seen)
    | some '\\' =>
      skip 1
      let ignoreCase := (← get).options.ignoreCase
      let a ← match ← escape with
        | .char c => literal c
        | .set s => pure (.chars (fold ignoreCase s))
        | .look l => pure (.look l)
      sequence n (some a :: seen)
    | some c =>
      skip 1
      let a ← literal c
      sequence n (some a :: seen)

/-- Repeats the last pattern read, which must be there. -/
def repeatLast : Nat → List (Option Node) → Nat → Option Nat → Read Node
  | 0, _, _, _ => fail
  | n + 1, seen, low, high =>
    match seen with
    | some a :: before => do
      let r ← repetition a low high
      sequence n (some r :: before)
    | _ => fail

/-- A group after its opening parenthesis; options alone give no pattern. -/
def group : Nat → Read (Option Node)
  | 0 => fail
  | n + 1 => do
    skipBlanks
    let outer := (← get).options
    if (← accept "?P<") then numbered n outer true
    else if (← accept "?<=") || (← accept "?<!") || (← accept "?=") || (← accept "?!") then fail
    else if (← accept "?<") then numbered n outer true
    else if (← accept "?") then
      let (options, body, _) ← optionLetters (n + 1) true true outer
      modify fun s => { s with options }
      if body then
        let a ← alternatives n
        close outer
        pure (some a)
      else pure none
    else numbered n outer false

/-- A group with a number, and a name if it is `named`. -/
def numbered : Nat → Options → Bool → Read (Option Node)
  | 0, _, _ => fail
  | n + 1, outer, named => do
    let index ← newGroup
    if named then groupName
    let a ← alternatives n
    close outer
    pure (some (.capture index a))

/-- The closing parenthesis, after which the outer options hold again. -/
def close (outer : Options) : Read Unit := do
  if ← accept ")" then modify fun s => { s with options := outer } else fail

end

/-- The pattern a text denotes, nothing when it is not well formed. -/
def Compiled.parse? (options : Options) (source : String) : Option Compiled := do
  let cs := source.toList
  let (a, s) ← alternatives (4 * cs.length + 4) { rest := cs, options }
  if s.rest.isEmpty then some (Compiled.ofNode a s.groups) else none

/-- The pattern that matches a text literally. -/
def Compiled.literal (text : String) : Compiled :=
  Compiled.ofNode (catAll (text.toList.map fun c => .chars (.single c))) 1

/-- A text with the characters that have a meaning in patterns escaped. -/
def quote (text : String) : String :=
  String.ofList (text.toList.flatMap fun c => if isMeta c then ['\\', c] else [c])

end Garnet.Regex
