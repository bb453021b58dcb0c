import Garnet.Library.Integers
import Garnet.Library.Iteration

/-!
# Operations of arrays
-/

namespace Garnet.Library.Arrays

open Eval

def itemsOf (v : Value) : Op (Array Value) := do pure ((← view (·.array? v)).getD #[])

def listOf (v : Value) : Op (List Value) := do pure (← itemsOf v).toList

/-- Changes the elements of an array in place. -/
def modifyItems (v : Value) (f : Array Value → Array Value) : Op Unit :=
  update (.modifyItems v f)

def setItems (v : Value) (items : List Value) : Op Unit :=
  modifyItems v fun _ => items.toArray

def itself : Native := fun recv _ _ => pure recv

/-- The element at a position, or nil. -/
def itemAt (items : Array Value) (i : Int) : Value :=
  ((normIndex i items.size).bind (items[·]?)).getD .nil

/-- One value for each position below `n`: what the block gives, or always the same. -/
def filled (n : Nat) (block : Option Value) (v : Value) : Op (List Value) :=
  match block with
  | some b => (List.range n).mapM fun i => do callBlock b [← newNat i]
  | none => pure (List.replicate n v)

def construct : Native := fun recv args block => do
  checkArity args 0 2
  let source ← match args with
    | [v] => view (·.array? v)
    | _ => pure none
  match args, source with
  | [], _ => pure ()
  | _, some items => modifyItems recv fun _ => items
  | v :: _, none =>
    let n ← needWord v
    if n < 0 then argumentError "negative array size"
    else
      let n ← repeatLength 1 n
      setItems recv (← filled n block (args[1]?.getD .nil))
  pure .nil

def arrayArg (args : List Value) : Op (List Value) := do
  pure (← needArray (← oneArg args)).toList

/-! ## Combining -/

def plus : Native := fun recv args _ => do
  let other ← arrayArg args
  newList ((← listOf recv) ++ other)

/-- Whether a key equal to `v` is among the values. -/
def hasKey (s : Store) (vs : List Value) (v : Value) : Bool := vs.any (s.keyEql · v)

def minus : Native := fun recv args _ => do
  let other ← arrayArg args
  let items ← listOf recv
  newList (← view fun s => items.filter (!hasKey s other ·))

def intersection : Native := fun recv args _ => do
  let other ← arrayArg args
  let items ← listOf recv
  let kept ← view fun s => items.filter (hasKey s other)
  newList (← distinct none kept {})

def union : Native := fun recv args _ => do
  let other ← arrayArg args
  newList (← distinct none ((← listOf recv) ++ other) {})

/-- The texts of all elements, nested arrays spread out. -/
def leafTexts (vs : List Value) : Op (List String) :=
  repeatUntil (fun (todo, out) => do
    match todo with
    | [] => pure (.inr out.reverse)
    | v :: rest =>
      match ← view (·.array? v) with
      | some items => pure (.inl (items.toList ++ rest, out))
      | none =>
        let t ← toText v
        pure (.inl (rest, t :: out))) (vs, [])

def join : Native := fun recv args _ => do
  let separator ← match ← atMostOneArg args with
    | some v => if v.isNil then pure "" else needText v
    | none => pure ""
  newText (separator.intercalate (← leafTexts (← listOf recv)))

def times : Native := fun recv args block => do
  let v ← oneArg args
  if (← view (·.text? v)).isSome then join recv args block
  else
    let n ← needWord v
    if n < 0 then argumentError "negative argument"
    else
      let items ← listOf recv
      discard (repeatLength items.length n)
      newList (if items.isEmpty then [] else (List.replicate n.toNat items).flatten)

/-! ## Comparing -/

def allEqual : List Value → List Value → Op Bool
  | [], [] => pure true
  | x :: xs, y :: ys => do if ← equals x y then allEqual xs ys else pure false
  | _, _ => pure false

/-- Arrays of different lengths differ before any element is compared. -/
def sameItems (xs ys : Array Value) : Op Bool :=
  if xs.size == ys.size then allEqual xs.toList ys.toList else pure false

def equal : Native := fun recv args _ => do
  let other ← oneArg args
  match ← view (·.array? other) with
  | some ys => newBool (← sameItems (← itemsOf recv) ys)
  | none => newBool false

def eql : Native := fun recv args _ => do newBool (← keyEql recv (← oneArg args))

/-- The order of the first elements that differ, or else of the lengths. -/
def orderLists : List Value → List Value → Op Ordering
  | x :: xs, y :: ys => do
    match ← order x y with
    | .eq => orderLists xs ys
    | o => pure o
  | [], [] => pure .eq
  | [], _ :: _ => pure .lt
  | _ :: _, [] => pure .gt

def compareOp : Native := fun recv args _ => do
  let other ← oneArg args
  match ← view (·.array? other) with
  | some ys => newOrder (some (← orderLists (← listOf recv) ys.toList))
  | none => pure .nil

def hashCode : Native := fun recv _ _ => do newInt (← view (·.hashCode recv))

/-! ## Adding and removing -/

def push : Native := fun recv args _ => do
  modifyItems recv (· ++ args)
  pure recv

/-- How many elements are asked for, if a number is given. -/
def countArg (args : List Value) : Op (Option Nat) := do
  match ← atMostOneArg args with
  | none => pure none
  | some v =>
    let n ← needWord v
    if n < 0 then argumentError "negative array size" else pure (some n.toNat)

/-- Keeps the elements up to a position and gives those after it. -/
def pop : Native := fun recv args _ => do
  let n ← countArg args
  match ← view (·.array? recv), n with
  | none, _ => pure .nil
  | some items, none =>
    modifyItems recv (·.pop)
    pure (items.back?.getD .nil)
  | some items, some n =>
    modifyItems recv (·.take (items.size - n))
    newArray (items.drop (items.size - n))

def shift : Native := fun recv args _ => do
  let n ← countArg args
  match ← view (·.array? recv), n with
  | none, _ => pure .nil
  | some items, none =>
    modifyItems recv (·.drop 1)
    pure (items[0]?.getD .nil)
  | some items, some n =>
    modifyItems recv (·.drop n)
    newArray (items.take n)

def unshift : Native := fun recv args _ => do
  modifyItems recv (args.toArray ++ ·)
  pure recv

/-- An array that is at least `n` long, filled up with nil. -/
def extendTo (items : Array Value) (n : Nat) : Array Value :=
  items ++ Array.replicate (n - items.size) Value.nil

/-- Puts values in place of the elements between two positions. -/
def splice (items : Array Value) (first last : Nat) (new : Array Value) : Array Value :=
  items.take first ++ new ++ items.drop last

def insert : Native := fun recv args _ => do
  match args with
  | [] => arityError 0 "1+"
  | v :: new =>
    let i ← needWord v
    let size := (← itemsOf recv).size
    let place := if i < 0 then i + size + 1 else i
    if place < 0 then
      let least := size + 1
      indexError s!"index {i} too small for array; minimum: -{least}"
    else
      let place := place.toNat
      modifyItems recv fun items => splice (extendTo items place) place place new.toArray
      pure recv

def concat : Native := fun recv args _ => do
  let tails ← args.mapM needArray
  modifyItems recv fun items => tails.foldl (· ++ ·) items
  pure recv

def clear : Native := fun recv _ _ => do
  setItems recv []
  pure recv

def replace : Native := fun recv args _ => do
  setItems recv (← arrayArg args)
  pure recv

def fill : Native := fun recv args block => do
  let v ← atMostOneArg args
  if block.isNone && v.isNone then
    argumentError "wrong number of arguments (given 0, expected 1..3)"
  else
    let n := (← itemsOf recv).size
    setItems recv (← filled n block (v.getD .nil))
    pure recv

/-- Removes the elements equal to a value and gives the last of them. -/
def delete : Native := fun recv args _ => do
  let target ← oneArg args
  let (kept, found) ← (← listOf recv).foldlM (fun (kept, found) v => do
    if ← equals v target then pure (kept, some v) else pure (v :: kept, found))
    (([] : List Value), none)
  setItems recv kept.reverse
  pure (found.getD .nil)

def deleteAt : Native := fun recv args _ => do
  let i ← needWord (← oneArg args)
  match ← view (·.array? recv) with
  | none => pure .nil
  | some items =>
    match normIndex i items.size with
    | none => pure .nil
    | some k =>
      modifyItems recv fun items => splice items k (k + 1) #[]
      pure (items[k]?.getD .nil)

/-! ## Reading and writing elements -/

def index : Native := fun recv args _ => do
  let (key, count) ← oneOrTwoArgs args
  let items ← itemsOf recv
  let slice := fun bounds : Option (Nat × Nat) => match bounds with
    | some (a, b) => newArray (items.extract a b)
    | none => pure .nil
  match count with
  | some n =>
    let start ← needWord key
    let n ← needWord n
    slice (sliceBounds start n items.size)
  | none =>
    match ← view (·.range? key) with
    | some (a, b, exclusive) => slice (← boundsOf a b exclusive items.size)
    | none => pure (itemAt items (← needWord key))

/-- The part of an array that an assignment replaces. -/
structure Part where
  first : Nat
  last : Nat
  /-- Whether an array stands for its elements. -/
  spread : Bool

/-- Where a part ends in an array of a given length. -/
def Part.stop (part : Part) (size : Nat) : Nat := max (min part.last size) part.first

def countedPart (size : Nat) (key count : Value) : Op Part := do
  let start ← needWord key
  let count ← needWord count
  let first := if start < 0 then start + size else start
  if first < 0 || count < 0 then indexError s!"index {start} too small for array"
  else pure ⟨first.toNat, (first + count).toNat, true⟩

def rangePart (size : Nat) (first last : Value) (exclusive : Bool) : Op Part := do
  let a ← needWord first
  let a := if a < 0 then a + size else a
  let b ← if last.isNil then pure ((size : Int) - 1) else needWord last
  let b := if b < 0 then b + size else b
  let b := if exclusive && !last.isNil then b else b + 1
  if a < 0 then indexError "range out of array"
  else pure ⟨a.toNat, (max b a).toNat, true⟩

def singlePart (size : Nat) (key : Value) : Op Part := do
  let i ← needWord key
  let place := if i < 0 then i + size else i
  if place < 0 then indexError s!"index {i} too small for array; minimum: -{size}"
  else pure ⟨place.toNat, place.toNat + 1, false⟩

/-- Replaces a part; an array that is too short is filled up with nil. An array that should take the
place of a part of itself would be read while it is written, which aborts the program. -/
def assign (recv : Value) (part : Part) (v : Value) : Op Value := do
  let new ← view fun s => match part.spread, s.array? v with
    | true, some items => if v == recv then none else some items
    | _, _ => some #[v]
  match new with
  | none => .exhausted
  | some new =>
    modifyItems recv fun items =>
      let items := extendTo items part.first
      splice items part.first (part.stop items.size) new
    pure v

def indexSet : Native := fun recv args _ => do
  let size := (← itemsOf recv).size
  match args with
  | [key, count, v] => assign recv (← countedPart size key count) v
  | [key, v] =>
    match ← view (·.range? key) with
    | some (first, last, exclusive) => assign recv (← rangePart size first last exclusive) v
    | none => assign recv (← singlePart size key) v
  | _ => arityError args.length "2..3"

def itemAtArg : Native := fun recv args _ => do
  let i ← needWord (← oneArg args)
  pure (itemAt (← itemsOf recv) i)

/-- Follows keys one after the other until one leads to nil. -/
def digLoop : List Value → Value → Op Value
  | [], v => pure v
  | key :: keys, v => do
    if v.isNil then pure v else digLoop keys (← send v "[]" [key] none)

def dig : Native := fun recv args _ => do
  checkAtLeast args 1
  digLoop args recv

def fetch : Native := fun recv args block => do
  let (key, default) ← oneOrTwoArgs args
  let i ← needWord key
  let items ← itemsOf recv
  match (normIndex i items.size).bind (items[·]?) with
  | some v => pure v
  | none =>
    match block, default with
    | some b, _ => callBlock b [key]
    | none, some v => pure v
    | none, none =>
      let n := items.size
      indexError s!"index {i} outside of array bounds: {-(n : Int)}...{n}"

def valuesAt : Native := fun recv args _ => do
  let items ← itemsOf recv
  newList (← args.mapM fun a => do pure (itemAt items (← needWord a)))

def length : Native := fun recv _ _ => do newNat (← itemsOf recv).size

def isEmpty : Native := fun recv _ _ => do newBool (← itemsOf recv).isEmpty

def first : Native := fun recv args _ => do
  let n ← countArg args
  let items ← itemsOf recv
  match n with
  | none => pure (items[0]?.getD .nil)
  | some n => newArray (items.take n)

def last : Native := fun recv args _ => do
  let n ← countArg args
  let items ← itemsOf recv
  match n with
  | none => pure (items.back?.getD .nil)
  | some n => newArray (items.drop (items.size - n))

def take : Native := fun recv args block => do
  discard (oneArg args)
  first recv args block

def drop : Native := fun recv args _ => do
  discard (oneArg args)
  let n ← countArg args
  newArray ((← itemsOf recv).drop (n.getD 0))

/-- How many elements the block accepts before the first it does not. -/
def acceptedCount (block : Value) : List Value → Op Nat
  | [] => pure 0
  | v :: vs => do
    if (← callBlock block [v]).truthy then pure ((← acceptedCount block vs) + 1) else pure 0

def splitWhile (part : Nat → Array Value → Array Value) : Native := fun recv _ block => do
  let b ← needBlock block
  let items ← itemsOf recv
  let n ← acceptedCount b items.toList
  newArray (part n items)

/-! ## Visiting -/

/-- Visits the elements that are there when their turn comes. -/
def each : Native := fun recv _ block => do
  match block with
  | none => pure recv
  | some b =>
    discard (walkArray (.each b) recv {})
    pure recv

def callEach (block : Option Value) (vs : List Value) : Op Unit := do
  let b ← needBlock block
  vs.forM fun v => discard (callBlock b [v])

def eachIndex : Native := fun recv _ block => do
  let b ← needBlock block
  (List.range (← itemsOf recv).size).forM fun i => do discard (callBlock b [← newNat i])
  pure recv

def reverseEach : Native := fun recv _ block => do
  callEach block (← listOf recv).reverse
  pure recv

/-- The test that an argument or else the block gives. -/
def testOf (args : List Value) (block : Option Value) : Op (Option Test) := do
  match ← atMostOneArg args, block with
  | some target, _ => pure (some (.equals target))
  | none, some b => pure (some (.block b))
  | none, none => pure none

def position (test : Option Test) : List (Value × Nat) → Op Value
  | [] => pure .nil
  | (v, i) :: rest => do
    match test with
    | none => argumentError "wrong number of arguments (given 0, expected 1)"
    | some t => if ← Test.holds t v then newNat i else position test rest

def indexOf (arrange : List (Value × Nat) → List (Value × Nat)) : Native :=
    fun recv args block => do
  let t ← testOf args block
  position t (arrange (← listOf recv).zipIdx)

def includes : Native := fun recv args _ => do
  let target ← oneArg args
  newBool (← (← listOf recv).anyM (equals · target))

def count : Native := fun recv args block => do
  let t ← testOf args block
  let n ← (← listOf recv).foldlM (fun n v => do
    let hit ← match t with
      | some t => Test.holds t v
      | none => pure true
    pure (if hit then n + 1 else n)) 0
  newNat n

def assoc : Native := fun recv args _ => do
  let target ← oneArg args
  let hit ← (← listOf recv).findM? fun v => do
    match ← view fun s => (s.array? v).bind (·[0]?) with
    | some key => equals key target
    | none => pure false
  pure (hit.getD .nil)

/-! ## Rearranging -/

def mapped (f : List Value → List Value) : Native := fun recv _ _ => do
  newList (f (← listOf recv))

def reverseInPlace : Native := fun recv _ _ => do
  modifyItems recv (·.reverse)
  pure recv

def rotate : Native := fun recv args _ => do
  let n ← match ← atMostOneArg args with
    | some v => needWord v
    | none => pure 1
  let items ← listOf recv
  let k := (n % items.length).toNat
  newList (items.drop k ++ items.take k)

/-- Sets new elements; nil when there are as many as before. -/
def shrinkTo (recv : Value) (before : Nat) (items : List Value) : Op Value := do
  setItems recv items
  pure (if items.length == before then .nil else recv)

def isPresent (v : Value) : Bool := !v.isNil

def compactInPlace : Native := fun recv _ _ => do
  let items ← listOf recv
  shrinkTo recv items.length (items.filter isPresent)

/-- Spreads out nested arrays, to any depth when none is given. -/
def flattened (vs : List Value) (depth : Option Int) : Op (List Value) :=
  repeatUntil (fun (todo, out) => do
    match todo with
    | [] => pure (.inr out.reverse)
    | (v, depth) :: rest =>
      match ← view (·.array? v), depth.all (· > (0 : Int)) with
      | some items, true =>
        let deeper := depth.map (· - (1 : Int))
        pure (.inl (items.toList.map (·, deeper) ++ rest, out))
      | _, _ => pure (.inl (rest, v :: out))) (vs.map (·, depth), [])

def flatten : Native := fun recv args _ => do
  let depth ← match ← atMostOneArg args with
    | some d => if d.isNil then pure none else some <$> needWord d
    | none => pure none
  newList (← flattened (← listOf recv) depth)

def uniq : Native := fun recv _ block => do
  newList (← distinct block (← listOf recv) {})

def uniqInPlace : Native := fun recv _ block => do
  let items ← listOf recv
  shrinkTo recv items.length (← distinct block items {})

def sortInPlace : Native := fun recv _ block => do
  setItems recv (← sorted (← listOf recv) block)
  pure recv

def mapInPlace : Native := fun recv _ block => do
  let b ← needBlock block
  setItems recv (← (← listOf recv).mapM fun v => callBlock b [v])
  pure recv

def keepIf (keep : Bool) : Native := fun recv _ block => do
  let b ← needBlock block
  setItems recv (← (← listOf recv).filterM fun v => do
    pure ((← callBlock b [v]).truthy == keep))
  pure recv

def transpose : Native := fun recv _ _ => do
  let rows ← (← listOf recv).mapM needArray
  let width := (rows.head?.map Array.size).getD 0
  if rows.any (·.size != width) then indexError "element size differs"
  else
    newList (← (List.range width).mapM fun c =>
      newList (rows.map fun row => row[c]?.getD .nil))

def product : Native := fun recv args _ => do
  let others ← args.mapM needArray
  let rows := others.foldl
    (fun rows other => rows.flatMap fun row => other.toList.map fun v => row ++ [v])
    ((← listOf recv).map ([·]))
  newList (← rows.mapM newList)

def inspectArray : Native := fun recv _ _ => do
  let parts ← (← listOf recv).mapM fun v => if v == recv then pure "[...]" else inspect v
  newText ("[" ++ ", ".intercalate parts ++ "]")

def entries : List Entry :=
  let on := Entry.method .array
  let all := Entry.methods .array
  [on "initialize" construct,
   on "+" plus,
   on "-" minus,
   on "*" times,
   on "&" intersection,
   on "|" union,
   on "==" equal,
   on "eql?" eql,
   on "<=>" compareOp,
   on "hash" hashCode,
   all ["<<", "push", "append"] push,
   on "pop" pop,
   on "shift" shift,
   all ["unshift", "prepend"] unshift,
   on "insert" insert,
   on "concat" concat,
   all ["[]", "slice"] index,
   on "[]=" indexSet,
   on "at" itemAtArg,
   on "dig" dig,
   on "fetch" fetch,
   on "values_at" valuesAt,
   all ["length", "size"] length,
   on "empty?" isEmpty,
   on "first" first,
   on "last" last,
   on "take" take,
   on "drop" drop,
   on "take_while" (splitWhile fun n items => items.take n),
   on "drop_while" (splitWhile fun n items => items.drop n),
   on "each" each,
   on "each_index" eachIndex,
   on "reverse_each" reverseEach,
   all ["index", "find_index"] (indexOf id),
   on "rindex" (indexOf List.reverse),
   on "join" join,
   on "reverse" (mapped List.reverse),
   on "reverse!" reverseInPlace,
   on "rotate" rotate,
   on "compact" (mapped (·.filter isPresent)),
   on "compact!" compactInPlace,
   on "flatten" flatten,
   on "uniq" uniq,
   on "uniq!" uniqInPlace,
   on "sort!" sortInPlace,
   all ["map!", "collect!"] mapInPlace,
   all ["select!", "keep_if", "filter!"] (keepIf true),
   all ["reject!", "delete_if"] (keepIf false),
   on "delete" delete,
   on "delete_at" deleteAt,
   on "clear" clear,
   on "replace" replace,
   on "fill" fill,
   on "include?" includes,
   on "count" count,
   on "transpose" transpose,
   on "product" product,
   on "assoc" assoc,
   all ["to_a", "entries"] itself,
   all ["inspect", "to_s"] inspectArray]

end Garnet.Library.Arrays
