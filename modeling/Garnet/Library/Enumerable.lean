import Garnet.Library.Iteration

/-!
# Operations on anything with `each`
-/

namespace Garnet.Library.Enumerable

open Eval

def map : Native := fun recv _ block => do
  match block with
  | none => newArray (← gather recv)
  | some b => newArray (← walk (.map b) recv {}).items

def flatMap : Native := fun recv _ block => do
  let b ← needBlock block
  newArray (← walk (.flatMap b) recv {}).items

/-- Pairs as a hash, when they come from one. -/
def rebuild (recv : Value) (items : Array Value) : Op Value := do
  if (← view (·.hash? recv)).isNone then newArray items
  else
    let out ← newHash
    items.toList.forM fun pair => do
      let kv ← toList pair
      insertEntry out (kv[0]?.getD .nil) (kv[1]?.getD .nil)
    pure out

def filterBy (keep : Bool) : Native := fun recv _ block => do
  let b ← needBlock block
  rebuild recv (← walk (.filter b keep) recv {}).items

def filterMap : Native := fun recv _ block => do
  let b ← needBlock block
  newArray (← walk (.filterMap b) recv {}).items

def find : Native := fun recv _ block => do
  let b ← needBlock block
  pure ((← walk (.find b) recv {}).held.getD .nil)

def findIndex : Native := fun recv args block => do
  let t ← match ← atMostOneArg args with
    | some target => pure (.equals target)
    | none => .block <$> needBlock block
  let p ← walk (.findIndex t) recv {}
  if p.hit then newNat p.count else pure .nil

def eachWithIndex : Native := fun recv _ block => do
  let b ← needBlock block
  discard (walk (.withIndex b) recv {})
  pure recv

def eachWithObject : Native := fun recv args block => do
  let memo ← oneArg args
  let b ← needBlock block
  discard (walk (.withObject b memo) recv {})
  pure memo

def chunked (overlapping : Bool) : Native := fun recv args block => do
  let n ← needWord (← oneArg args)
  if n ≤ 0 then argumentError "invalid slice size"
  else
    let p ← walk (.chunks block n.toNat overlapping) recv {}
    let p ← if !overlapping && !p.items.isEmpty then emitChunk block p p.items else pure p
    match block with
    | some _ => pure recv
    | none => newArray p.others

def inject : Native := fun recv args block => do
  checkArity args 0 2
  let (acc, op) ← match args, block with
    | [name], none => do pure (none, some (← nameOf name))
    | [init, name], _ => do pure (some init, some (← nameOf name))
    | [init], some _ => pure (some init, none)
    | _, _ => pure (none, none)
  let p ← walk (.fold op block) recv { held := acc }
  pure (p.held.getD .nil)

def sum : Native := fun recv args block => do
  let acc ← match ← atMostOneArg args with
    | some v => pure v
    | none => newInt 0
  let p ← walk (.sum block) recv { held := some acc }
  pure (p.held.getD .nil)

def count : Native := fun recv args block => do
  let t := match ← atMostOneArg args, block with
    | some target, _ => some (.equals target)
    | none, some b => some (.block b)
    | none, none => none
  newNat (← walk (.count t) recv {}).count

def toArray : Native := fun recv _ _ => do newArray (← gather recv)

def includes : Native := fun recv args _ => do
  let target ← oneArg args
  newBool (← walk (.includes (.equals target)) recv {}).hit

def first : Native := fun recv args _ => do
  match ← atMostOneArg args with
  | none => pure ((← walk .first recv {}).held.getD .nil)
  | some n =>
    let n ← needWord n
    if n < 0 then argumentError "attempt to take negative size"
    else if n == 0 then newList []
    else newArray (← walk (.take n.toNat) recv {}).items

def take : Native := fun recv args block => do
  discard (oneArg args)
  first recv args block

def sort : Native := fun recv _ block => do
  let items ← gather recv
  newList (← sorted items.toList block)

/-- The elements with the keys that the block gives them. -/
def keyed (recv : Value) (block : Option Value) : Op (List Value) := do
  let b ← needBlock block
  pure (← walk (.keyed b) recv {}).items.toList

/-- The key of a pair made by `keyed`. -/
def pairKey (s : Store) (v : Value) : Value := ((s.array? v).bind (·[0]?)).getD v

def pairValue (s : Store) (v : Value) : Value := ((s.array? v).bind (·[1]?)).getD v

def orderKeys (x y : Value) : Op Ordering := do
  let (a, b) ← view fun s => (pairKey s x, pairKey s y)
  order a b

def sortByKey : Native := fun recv _ block => do
  let pairs ← keyed recv block
  let out ← sortBy (fun x y => do pure ((← orderKeys x y) == .lt)) pairs.length pairs
  newList (← view fun s => out.map (pairValue s))

/-- The first element that no other one exceeds in the wanted direction. -/
def extreme (compareWith : Value → Value → Op Ordering) (want : Ordering) :
    List Value → Option Value → Op (Option Value)
  | [], best => pure best
  | x :: xs, none => extreme compareWith want xs (some x)
  | x :: xs, some b => do
    let better := (← compareWith x b) == want
    extreme compareWith want xs (some (if better then x else b))

def minMax (want : Ordering) : Native := fun recv args block => do
  let n ← atMostOneArg args
  let items ← gather recv
  match n with
  | some n =>
    let n ← needWord n
    let out ← sorted items.toList block
    let out := if want == .gt then out.reverse else out
    newList (out.take n.toNat)
  | none => pure ((← extreme (orderBy block) want items.toList none).getD .nil)

def extremeBy (want : Ordering) : Native := fun recv _ block => do
  let pairs ← keyed recv block
  match ← extreme orderKeys want pairs none with
  | some p => view fun s => pairValue s p
  | none => pure .nil

def minmax : Native := fun recv _ block => do
  let items := (← gather recv).toList
  let low ← extreme (orderBy block) .lt items none
  let high ← extreme (orderBy block) .gt items none
  newList [low.getD .nil, high.getD .nil]

/-- Whether some element tests as wanted. -/
def testUntil (stopOn : Bool) (recv : Value) (args : List Value) (block : Option Value) :
    Op Bool := do
  let pattern ← atMostOneArg args
  pure (← walk (.until pattern block stopOn) recv {}).hit

def any : Native := fun recv args block => do newBool (← testUntil true recv args block)

def all : Native := fun recv args block => do newBool (!(← testUntil false recv args block))

def none : Native := fun recv args block => do newBool (!(← testUntil true recv args block))

/-- Adds an element to the group of its key. -/
def addToGroup (groups key item : Value) : Op Unit := do
  match ← lookupEntry groups key with
  | some list => update (.modifyItems list (·.push item))
  | Option.none => insertEntry groups key (← newList [item])

def groupBy : Native := fun recv _ block => do
  let pairs ← keyed recv block
  let groups ← newHash
  pairs.forM fun p => do
    let (key, item) ← view fun s => (pairKey s p, pairValue s p)
    addToGroup groups key item
  pure groups

def partition : Native := fun recv _ block => do
  let b ← needBlock block
  let p ← walk (.partition b) recv {}
  let yes ← newArray p.items
  let no ← newArray p.others
  newList [yes, no]

def tally : Native := fun recv _ _ => do
  let counts ← newHash
  discard (walk (.tally counts) recv {})
  pure counts

def uniq : Native := fun recv _ block => do
  let items ← gather recv
  newList (← distinct block items.toList {})

def zip : Native := fun recv args _ => do
  let items ← gather recv
  let others ← args.mapM gather
  let rows ← items.toList.zipIdx.mapM fun (x, i) =>
    newList (x :: others.map fun o => o[i]?.getD .nil)
  newList rows

def toHash : Native := fun recv _ block => do
  let out ← newHash
  discard (walk (.toHash block out) recv {})
  pure out

def eachEntry : Native := fun recv _ block => do
  let b ← needBlock block
  discard (walk (.each b) recv {})
  pure recv

def entries : List Entry :=
  let on := Entry.methods .enumerable
  [on ["map", "collect"] map,
   on ["flat_map", "collect_concat"] flatMap,
   on ["select", "filter"] (filterBy true),
   on ["reject"] (filterBy false),
   on ["filter_map"] filterMap,
   on ["find", "detect"] find,
   on ["find_index"] findIndex,
   on ["each_with_index"] eachWithIndex,
   on ["each_with_object"] eachWithObject,
   on ["each_slice"] (chunked false),
   on ["each_cons"] (chunked true),
   on ["inject", "reduce"] inject,
   on ["sum"] sum,
   on ["count"] count,
   on ["to_a", "entries"] toArray,
   on ["include?", "member?"] includes,
   on ["first"] first,
   on ["take"] take,
   on ["min"] (minMax .lt),
   on ["max"] (minMax .gt),
   on ["min_by"] (extremeBy .lt),
   on ["max_by"] (extremeBy .gt),
   on ["minmax"] minmax,
   on ["sort"] sort,
   on ["sort_by"] sortByKey,
   on ["any?"] any,
   on ["all?"] all,
   on ["none?"] none,
   on ["group_by"] groupBy,
   on ["partition"] partition,
   on ["tally"] tally,
   on ["uniq"] uniq,
   on ["zip"] zip,
   on ["to_h"] toHash,
   on ["each_entry"] eachEntry]

end Garnet.Library.Enumerable
