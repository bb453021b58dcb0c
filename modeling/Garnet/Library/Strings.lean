import Garnet.Eval.Matching
import Garnet.Library.Format
import Garnet.Library.Integers
import Garnet.Text.Case
import Garnet.Text.CharSet
import Garnet.Text.Pieces
import Garnet.Text.Successor

/-!
# Operations of texts
-/

namespace Garnet.Library.Strings

open Eval

def textOf (v : Value) : Op String := do pure ((← view (·.text? v)).getD "")

def charsOf (v : Value) : Op (List Char) := do pure (← textOf v).toList

/-- Replaces the contents of a text. -/
def setText (v : Value) (t : String) : Op Unit :=
  update (.setText v t)

/-- The first argument as a text; more arguments are passed over. -/
def firstText (args : List Value) : Op String :=
  match args with
  | v :: _ => needText v
  | [] => argumentError "wrong number of arguments"

def construct : Native := fun recv args _ => do
  match ← atMostOneArg args with
  | some v =>
    if (← view (·.text? recv)).isSome then setText recv (← needText v)
  | none => pure ()
  pure .nil

def itself : Native := fun recv _ _ => pure recv

/-- A text made of the characters. -/
def mapped (f : List Char → List Char) : Native := fun recv _ _ => do
  newChars (f (← charsOf recv))

/-! ## Building -/

def plus : Native := fun recv args _ => do
  let other ← needText (← oneArg args)
  newText ((← textOf recv) ++ other)

def times : Native := fun recv args _ => do
  let n ← needWord (← oneArg args)
  if n < 0 then argumentError "negative argument"
  else
    let t ← textOf recv
    discard (repeatLength t.utf8ByteSize n)
    if t.isEmpty then newText t
    else newText (String.join (List.replicate n.toNat t))

def format : Native := fun recv args _ => do
  let values ← toList (← oneArg args)
  newText (← formatText (← textOf recv) values)

/-- Texts and code points one after the other. -/
def appended (args : List Value) : Op String :=
  args.foldlM (fun out a => do
    match ← view (·.word? a) with
    | some i => pure (out ++ String.ofList (Text.charOf? i).toList)
    | none => pure (out ++ (← needText a))) ""

def append : Native := fun recv args _ => do
  let tail ← appended args
  setText recv ((← textOf recv) ++ tail)
  pure recv

def replace : Native := fun recv args _ => do
  setText recv (← firstText args)
  pure recv

/-- Changes a text in place; nil when that changes nothing. -/
def mutate (recv : Value) (t : String) : Op Value := do
  match ← view (·.text? recv) with
  | none => pure .nil
  | some old =>
    if old == t then pure .nil
    else
      setText recv t
      pure recv

def mutated (f : List Char → List Char) : Native := fun recv _ _ => do
  mutate recv (String.ofList (f (← charsOf recv)))

/-! ## Comparing -/

def equal : Native := fun recv args _ => do
  let other ← oneArg args
  newBool ((← view (·.text? other)) == some (← textOf recv))

def compareOp : Native := fun recv args _ => do
  let other ← oneArg args
  let t ← textOf recv
  newOrder ((← view (·.text? other)).map (compare t))

/-! ## Matching -/

def matchOp : Native := fun recv args _ => do
  let p ← oneArg args
  if (← view (·.text? p)).isSome then
    typeError "wrong argument type String (expected Regexp)"
  else
    let re ← pattern p
    positionOrNil (← matchPosition re (← textOf recv))

def isMatch : Native := fun recv args _ => do
  let re ← pattern (← oneArg args)
  newBool (re.findFrom (← charsOf recv).toArray 0).isSome

def matchGroups : Native := fun recv args _ => do
  let re ← pattern (← oneArg args)
  discard (matchPosition re (← textOf recv))
  getGlobal "$~"

/-- What `scan` gives for a match: its groups when the pattern has any, or else all of it. -/
def scanItem (groups : List (Option String)) : Op Value := do
  match groups with
  | [whole] => newText (whole.getD "")
  | _ :: rest => newList (← rest.mapM groupText)
  | [] => newText ""

def scan : Native := fun recv args block => do
  let re ← pattern (← oneArg args)
  let chars := (← charsOf recv).toArray
  let found ← (re.findAll chars).foldlM (fun found m => do
    let groups := groupTexts chars m
    let item ← scanItem groups
    recordMatch (some groups)
    match block with
    | some b =>
      discard (callBlock b [item])
      pure found
    | none => pure (item :: found)) []
  match block with
  | some _ => pure recv
  | none => newList found.reverse

/-- A replacement with the groups it refers to filled in. -/
def expandReplacement (groups : List (Option String)) : List Char → List Char
  | '\\' :: c :: rest =>
    if c.isDigit then groupChars (c.toNat - '0'.toNat) ++ expandReplacement groups rest
    else if c == '&' then groupChars 0 ++ expandReplacement groups rest
    else if c == '\\' then '\\' :: expandReplacement groups rest
    else '\\' :: expandReplacement groups (c :: rest)
  | c :: rest => c :: expandReplacement groups rest
  | [] => []
where
  groupChars (n : Nat) : List Char := ((groups[n]?).join.getD "").toList

/-- Where the replacement of a match comes from. -/
inductive Replacement where
  | template (cs : List Char)
  | table (hash : Value)
  | block (b : Value)

def replacementOf (v : Option Value) (block : Option Value) : Op Replacement := do
  match v with
  | some r =>
    if (← view (·.hash? r)).isSome then pure (.table r)
    else
      let t ← needText r
      pure (.template t.toList)
  | none => .block <$> needBlock block

def Replacement.text (r : Replacement) (groups : List (Option String)) : Op String := do
  match r with
  | .template cs => pure (String.ofList (expandReplacement groups cs))
  | .table h =>
    let key ← newText ((groups.head?.join).getD "")
    toText (← send h "[]" [key] none)
  | .block b =>
    let whole ← newText ((groups.head?.join).getD "")
    toText (← callBlock b [whole])

/-- The text with its matches replaced, all of them or the first one. -/
def substituted (all : Bool) (recv : Value) (args : List Value) (block : Option Value) :
    Op String := do
  let (p, v) ← oneOrTwoArgs args
  let re ← pattern p
  let r ← replacementOf v block
  let chars := (← charsOf recv).toArray
  let found := if all then re.findAll chars else (re.findFrom chars 0).toList
  let (out, last) ← found.foldlM (fun (out, last) m => do
    let groups := groupTexts chars m
    recordMatch (some groups)
    let piece ← r.text groups
    pure (out ++ spanText chars ⟨last, m.whole.first⟩ ++ piece, m.whole.last)) ("", 0)
  pure (out ++ spanText chars ⟨last, chars.size⟩)

def substitute (all : Bool) : Native := fun recv args block => do
  newText (← substituted all recv args block)

def substituteInPlace (all : Bool) : Native := fun recv args block => do
  mutate recv (← substituted all recv args block)

/-! ## Parts -/

def sliceOrNil (cs : List Char) : Option (Nat × Nat) → Op Value
  | some (a, b) => newChars ((cs.drop a).take (b - a))
  | none => pure .nil

def index : Native := fun recv args _ => do
  let (key, count) ← oneOrTwoArgs args
  let t ← textOf recv
  let cs := t.toList
  match count with
  | some n =>
    let start ← needWord key
    let n ← needWord n
    sliceOrNil cs (sliceBounds start n cs.length)
  | none =>
    match ← payload key with
    | .range a b exclusive => sliceOrNil cs (← boundsOf a b exclusive cs.length)
    | .text sub => if (Text.find? sub.toList cs).isSome then newText sub else pure .nil
    | .regexp r =>
      discard (matchPosition r.regex t)
      getGroup 0
    | _ =>
      let i ← needWord key
      sliceOrNil cs ((normIndex i cs.length).map fun i => (i, i + 1))

/-- The bounds of the part that an assignment replaces. -/
def assignBounds (cs : List Char) (key : Value) (count : Option Value) :
    Op (Option (Nat × Nat)) := do
  match count with
  | some n =>
    let start ← needWord key
    let n ← needWord n
    pure (sliceBounds start n cs.length)
  | none =>
    match ← payload key with
    | .range a b exclusive => boundsOf a b exclusive cs.length
    | .text sub => pure ((Text.find? sub.toList cs).map fun a => (a, a + sub.length))
    | _ =>
      let i ← needWord key
      pure ((normIndex i cs.length).map fun i => (i, i + 1))

def assignPart (recv key : Value) (count : Option Value) (v : Value) : Op Value := do
  let new ← needText v
  let cs ← charsOf recv
  match ← assignBounds cs key count with
  | some (a, b) =>
    setText recv (String.ofList (cs.take a ++ new.toList ++ cs.drop b))
    pure v
  | none =>
    let shown ← view fun s => (s.scalarText? key).getD ""
    indexError s!"index {shown} out of string"

def indexSet : Native := fun recv args _ => do
  match args with
  | [key, v] => assignPart recv key none v
  | [key, n, v] => assignPart recv key (some n) v
  | _ => arityError args.length "2..3"

/-- The position of a text or pattern, looked for from a position on. -/
def indexOf : Native := fun recv args _ => do
  let (p, start) ← oneOrTwoArgs args
  let cs ← charsOf recv
  let start ← match start with
    | some v =>
      let i ← needWord v
      pure (if i < 0 then i + cs.length else i)
    | none => pure 0
  if start < 0 || start > cs.length then pure .nil
  else
    let re ← pattern p
    let found := re.findFrom (cs.drop start.toNat).toArray 0
    positionOrNil (found.map (start.toNat + ·.whole.first))

def includes : Native := fun recv args _ => do
  let sub ← firstText args
  newBool (Text.find? sub.toList (← charsOf recv)).isSome

def startsWith : Native := fun recv args _ => do
  let cs ← charsOf recv
  newBool (← args.anyM fun a => do
    match ← view (·.regexp? a) with
    | some r => pure ((r.regex.findFrom cs.toArray 0).map (·.whole.first) == some 0)
    | none => pure ((← needText a).toList.isPrefixOf cs))

def endsWith : Native := fun recv args _ => do
  let cs ← charsOf recv
  newBool (← args.anyM fun a => do pure ((← needText a).toList.isSuffixOf cs))

def isBlankOrNul (c : Char) : Bool := Text.isBlank c || c == '\x00'

def strip (cs : List Char) : List Char :=
  Text.dropEndWhile isBlankOrNul (cs.dropWhile isBlankOrNul)

/-- A text without one line end. -/
def dropLineEnd (cs : List Char) : List Char :=
  (Text.dropSuffix? ['\r', '\n'] cs <|> Text.dropSuffix? ['\n'] cs <|>
    Text.dropSuffix? ['\r'] cs).getD cs

def chomp : Native := fun recv args _ => do
  let tail ← atMostOneArg args
  let cs ← charsOf recv
  match tail with
  | some v =>
    let tail ← needText v
    newChars ((Text.dropSuffix? tail.toList cs).getD cs)
  | none => newChars (dropLineEnd cs)

def chop (cs : List Char) : List Char := (Text.dropSuffix? ['\r', '\n'] cs).getD cs.dropLast

/-! ## Pieces -/

def charTexts (recv : Value) : Op (List Value) := do
  (← charsOf recv).mapM fun c => newChars [c]

def chars : Native := fun recv _ _ => do newList (← charTexts recv)

def bytes : Native := fun recv _ _ => do
  let bs := (← textOf recv).toUTF8.toList
  newList (← bs.mapM fun b => newNat b.toNat)

def eachChar : Native := fun recv _ block => do
  let items ← charTexts recv
  match block with
  | none => newList items
  | some b =>
    items.forM fun c => discard (callBlock b [c])
    pure recv

/-- The pieces between matches; the last of `limit` pieces is what is left. -/
def splitAt (chars : Array Char) (limit : Nat) (found : List Regex.Match) : List String :=
  let cuts := if limit == 0 then found else found.take (limit - 1)
  let (pieces, last) := cuts.foldl (fun (pieces, last) m =>
    (spanText chars ⟨last, m.whole.first⟩ :: pieces, m.whole.last)) (([] : List String), 0)
  (spanText chars ⟨last, chars.size⟩ :: pieces).reverse

def splitPieces (t : String) (sep : Option Value) (limit : Int) : Op (List String) := do
  let cs := t.toList
  let ofWords := (Text.words cs []).map String.ofList
  match sep with
  | none =>
    if limit > 0 then
      pure ((Text.splitBlanks (limit.toNat - 1) (Text.trimStart cs) []).map String.ofList)
    else pure ofWords
  | some v =>
    match ← view (·.text? v) with
    | some " " => pure ofWords
    | some "" => pure (cs.map String.singleton)
    | _ =>
      let re ← pattern v
      let chars := cs.toArray
      pure (splitAt chars limit.toNat (re.findAll chars))

def split : Native := fun recv args _ => do
  checkArity args 0 2
  let t ← textOf recv
  let limit ← match args[1]? with
    | some l => needWord l
    | none => pure 0
  let pieces ← splitPieces t (args.head?.filter (!·.isNil)) limit
  let pieces := if limit == 0 then (pieces.reverse.dropWhile (·.isEmpty)).reverse else pieces
  newList (← pieces.mapM newText)

def lines : Native := fun recv _ _ => do
  newList (← (Text.lines (← charsOf recv) []).mapM newChars)

/-! ## Filling -/

/-- How many characters are missing up to a width, and what fills them. -/
def missing (cs : List Char) (args : List Value) : Op (Nat × List Char) := do
  let (width, filling) ← oneOrTwoArgs args
  let width ← needWord width
  let filling ← match filling with
    | some f => needText f
    | none => pure " "
  if filling.isEmpty then argumentError "zero width padding"
  else pure (width.toNat - cs.length, filling.toList)

/-- Fills on both sides; `share` tells how much of it goes to the left. -/
def padded (share : Nat → Nat) : Native := fun recv args _ => do
  let cs ← charsOf recv
  let (n, filling) ← missing cs args
  let left := share n
  newChars (Text.fillTo filling left ++ cs ++ Text.fillTo filling (n - left))

/-! ## Sets of characters -/

def count : Native := fun recv args _ => do
  let set := Text.Letterset.ofText (← firstText args).toList
  newNat ((← charsOf recv).countP set.contains)

def delete : Native := fun recv args _ => do
  let set := Text.Letterset.ofText (← firstText args).toList
  newChars ((← charsOf recv).filter (!set.contains ·))

def squeeze : Native := fun recv args _ => do
  let test ← match args with
    | a :: _ => do pure (Text.Letterset.ofText (← needText a).toList).contains
    | [] => pure fun _ => true
  newChars (Text.squeeze test none (← charsOf recv))

def translate : Native := fun recv args _ => do
  let (source, target) ← twoArgs args
  let set := Text.Letterset.ofText (← needText source).toList
  let target := Text.expandRanges (← needText target).toList
  newChars (set.translate target (← charsOf recv))

/-! ## Case -/

def capitalize : List Char → List Char
  | [] => []
  | c :: cs => Text.upperChar c ++ Text.lowercase cs

def swapcase (cs : List Char) : List Char :=
  cs.flatMap fun c => if Text.isUppercase c then Text.lowerChar c else Text.upperChar c

/-! ## Converting -/

def length : Native := fun recv _ _ => do newNat (← charsOf recv).length

def bytesize : Native := fun recv _ _ => do newNat (← textOf recv).utf8ByteSize

def isEmpty : Native := fun recv _ _ => do newBool (← textOf recv).isEmpty

def ord : Native := fun recv _ _ => do
  match ← charsOf recv with
  | c :: _ => newNat c.toNat
  | [] => argumentError "empty string"

/-- The number that leading hexadecimal digits give. -/
def hexValue (cs : List Char) : Int :=
  let (negative, cs) := match Text.trim cs with
    | '-' :: cs => (true, cs)
    | cs => (false, cs)
  let cs := match cs with
    | '0' :: 'x' :: cs => cs
    | '0' :: 'X' :: cs => cs
    | cs => cs
  let n : Int := Number.ofDigits 16 (cs.takeWhile fun c => (Number.digitValue? 16 c).isSome)
  if negative then -n else n

def hex : Native := fun recv _ _ => do newInt (hexValue (← charsOf recv))

/-- The number that leading digits give; underscores among them are passed over. -/
def leadingInteger (radix : Nat) (cs : List Char) : Int :=
  let (negative, cs) := Decimal.splitSign (Text.trimStart cs)
  let ds := cs.takeWhile fun c => (Number.digitValue? radix c).isSome || c == '_'
  let n : Int := Number.ofDigits radix (ds.filter (· != '_'))
  if negative then -n else n

def toI : Native := fun recv args _ => do
  let radix ← match ← atMostOneArg args with
    | some b => needWord b
    | none => pure 10
  if radix < 2 || radix > 36 then argumentError s!"invalid radix {radix}"
  else newInt (leadingInteger radix.toNat (← charsOf recv))

/-- The longest beginning that reads as a number. -/
def leadingFloat (cs : List Char) : Float :=
  let cs := (Text.trimStart cs).takeWhile fun c => c.isDigit || "-+.eE_".toList.contains c
  ((List.range cs.length).reverse.findSome? fun n =>
    Decimal.float? ((cs.take (n + 1)).filter (· != '_'))).getD 0.0

def toF : Native := fun recv _ _ => do newFloat (leadingFloat (← charsOf recv))

def toSym : Native := fun recv _ _ => do newSymbol (← textOf recv)

def inspectText : Native := fun recv _ _ => do newText (Text.inspectText (← textOf recv))

def hashCode : Native := fun recv _ _ => do newInt (← view (·.hashCode recv))

def entries : List Entry :=
  let on := Entry.method .string
  let all := Entry.methods .string
  [on "initialize" construct,
   on "+" plus,
   on "*" times,
   on "%" format,
   all ["==", "===", "eql?"] equal,
   on "<=>" compareOp,
   on "=~" matchOp,
   on "match?" isMatch,
   on "match" matchGroups,
   on "scan" scan,
   all ["[]", "slice"] index,
   on "[]=" indexSet,
   all ["<<", "concat"] append,
   on "replace" replace,
   all ["length", "size"] length,
   on "bytesize" bytesize,
   on "empty?" isEmpty,
   on "upcase" (mapped Text.uppercase),
   on "downcase" (mapped Text.lowercase),
   on "capitalize" (mapped capitalize),
   on "swapcase" (mapped swapcase),
   on "upcase!" (mutated Text.uppercase),
   on "downcase!" (mutated Text.lowercase),
   on "reverse" (mapped List.reverse),
   on "include?" includes,
   on "start_with?" startsWith,
   on "end_with?" endsWith,
   on "index" indexOf,
   on "strip" (mapped strip),
   on "lstrip" (mapped Text.trimStart),
   on "rstrip" (mapped (Text.dropEndWhile isBlankOrNul)),
   on "chomp" chomp,
   on "chop" (mapped chop),
   on "chars" chars,
   on "bytes" bytes,
   on "each_char" eachChar,
   on "split" split,
   on "lines" lines,
   on "center" (padded (· / 2)),
   on "ljust" (padded fun _ => 0),
   on "rjust" (padded id),
   on "count" count,
   on "delete" delete,
   on "squeeze" squeeze,
   on "tr" translate,
   on "sub" (substitute false),
   on "gsub" (substitute true),
   on "sub!" (substituteInPlace false),
   on "gsub!" (substituteInPlace true),
   all ["succ", "next"] (mapped Text.succ),
   on "ord" ord,
   on "hex" hex,
   all ["to_s", "to_str"] itself,
   all ["to_sym", "intern"] toSym,
   on "to_i" toI,
   on "to_f" toF,
   all ["inspect", "dump"] inspectText,
   on "hash" hashCode,
   on "freeze" itself,
   on "+@" (mapped id),
   on "-@" itself]

end Garnet.Library.Strings
