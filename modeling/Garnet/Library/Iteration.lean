import Garnet.Library.Basic

/-!
# Iteration

An iteration visits the elements of its source one by one and keeps what it has found. An array is
read element by element as it is at that moment; any other source gets a block for its `each`, and
is stopped by a break to a site of its own.
-/

namespace Garnet

namespace Visit

/-- What is kept when a visit does not end normally: what the visit changes before it calls back. -/
def entering (v : Visit) (p : Progress) (item : Value) : Progress :=
  match v with
  | .withIndex _ => { p with count := p.count + 1 }
  | .chunks _ size overlapping =>
    let items := p.items.push item
    if items.size < size then { p with items }
    else { p with items := if overlapping then items.extract 1 items.size else #[] }
  | .fold _ _ => { p with held := none }
  | _ => p

end Visit

namespace Eval

def Test.holds (t : Test) (item : Value) : Op Bool :=
  match t with
  | .equals target => equals item target
  | .block b => do pure (← callBlock b [item]).truthy

/-- Hands a full group to the block, or keeps it when there is none. -/
def emitChunk (b : Option Value) (p : Progress) (group : Array Value) : Op Progress := do
  let g ← newArray group
  match b with
  | some b =>
    discard (callBlock b [g])
    pure p
  | none => pure { p with others := p.others.push g }

/-- Visits one element; the flag tells whether the iteration is over. -/
def visitItem (v : Visit) (p : Progress) (item : Value) : Op (Progress × Bool) :=
  match v with
  | .gather => pure ({ p with items := p.items.push item }, false)
  | .map b => do
    let x ← callBlock b [item]
    pure ({ p with items := p.items.push x }, false)
  | .flatMap b => do
    let x ← callBlock b [item]
    match ← view (·.array? x) with
    | some xs => pure ({ p with items := p.items ++ xs }, false)
    | none => pure ({ p with items := p.items.push x }, false)
  | .filter b keep => do
    let x ← callBlock b [item]
    pure (if x.truthy == keep then { p with items := p.items.push item } else p, false)
  | .filterMap b => do
    let x ← callBlock b [item]
    pure (if x.truthy then { p with items := p.items.push x } else p, false)
  | .find b => do
    let x ← callBlock b [item]
    pure (if x.truthy then ({ p with held := some item }, true) else (p, false))
  | .findIndex t => do
    if ← Test.holds t item then pure ({ p with hit := true }, true)
    else pure ({ p with count := p.count + 1 }, false)
  | .withIndex b => do
    let i ← newNat p.count
    discard (callBlock b [item, i])
    pure ({ p with count := p.count + 1 }, false)
  | .withObject b memo => do
    discard (callBlock b [item, memo])
    pure (p, false)
  | .chunks b size _ => do
    let items := p.items.push item
    if items.size < size then pure ({ p with items }, false)
    else
      let p ← emitChunk b (v.entering p item) items
      pure (p, false)
  | .fold op b => do
    match p.held with
    | none => pure ({ p with held := some item }, false)
    | some acc =>
      let x ← match op with
        | some name => send acc name [item] none
        | none => do callBlock (← needBlock b) [acc, item]
      pure ({ p with held := some x }, false)
  | .sum b => do
    let x ← match b with
      | some b => callBlock b [item]
      | none => pure item
    let acc ← send (p.held.getD .nil) "+" [x] none
    pure ({ p with held := some acc }, false)
  | .count t => do
    let hit ← match t with
      | some t => Test.holds t item
      | none => pure true
    pure (if hit then { p with count := p.count + 1 } else p, false)
  | .includes t => do
    if ← Test.holds t item then pure ({ p with hit := true }, true) else pure (p, false)
  | .first => pure ({ p with held := some item }, true)
  | .take n =>
    let items := p.items.push item
    pure ({ p with items }, items.size ≥ n)
  | .keyed b => do
    let key ← callBlock b [item]
    let pair ← newList [key, item]
    pure ({ p with items := p.items.push pair }, false)
  | .until pattern b stopOn => do
    let hit ← match pattern, b with
      | some x, _ => caseEquals x item
      | none, some b => do pure (← callBlock b [item]).truthy
      | none, none => pure item.truthy
    pure (if hit == stopOn then ({ p with hit := true }, true) else (p, false))
  | .partition b => do
    let x ← callBlock b [item]
    pure (if x.truthy then { p with items := p.items.push item }
      else { p with others := p.others.push item }, false)
  | .tally counts => do
    let seen ← lookupEntry counts item
    let n ← view fun s => (seen.bind s.word?).getD 0
    let count ← newInt (n + 1)
    insertEntry counts item count
    pure (p, false)
  | .toHash b into => do
    let pair ← match b with
      | some b => callBlock b [item]
      | none => pure item
    match (← view (·.array? pair)).map (·.toList) with
    | some [key, value] =>
      insertEntry into key value
      pure (p, false)
    | _ =>
      let kind ← className pair
      typeError s!"wrong element type {kind} (expected array)"
  | .each b => do
    discard (callBlock b [item])
    pure (p, false)

/-- A site that no program and no other iteration has. -/
def newStop : Op Nat := .change .newStop (·.nextStop) rfl

def newCell (p : Progress) : Op Nat := .change (.newCell p) (·.cells.size) rfl

def setCell (cell : Nat) (p : Option Progress) : Op Unit := update (.setCell cell p)

/-- Empties a cell and gives what was in it. -/
def takeCell (cell : Nat) : Op (Option Progress) :=
  .change (.setCell cell none) (fun s => s.cells.getD cell none) rfl

/-- The block of an iteration: it does nothing once the iteration is over, or while a visit of the
same iteration is running. -/
def runVisit (cell : Nat) (v : Visit) (site : Nat) (args : List Value) : Op Value := do
  match ← takeCell cell with
  | none => pure .nil
  | some p =>
    let item ← match args with
      | [x] => pure x
      | xs => newList xs
    let (p, stop) ← Act.ensure (visitItem v p item) (setCell cell (some (v.entering p item)))
    setCell cell (some p)
    if stop then signal (.breakTo site .nil) else pure .nil

/-- Visits the elements of an array, which is read anew for each. -/
def walkArray (v : Visit) (recv : Value) (p : Progress) : Op Progress :=
  repeatUntil (fun (i, p) => do
    match ← view fun s => (s.array? recv).bind (·[i]?) with
    | none => pure (.inr p)
    | some item =>
      let (p, stop) ← visitItem v p item
      pure (if stop then .inr p else .inl (i + 1, p))) (0, p)

/-- Visits every element of a source. -/
def walk (v : Visit) (recv : Value) (p : Progress) : Op Progress := do
  if (← view (·.array? recv)).isSome then walkArray v recv p
  else
    let site ← newStop
    let cell ← newCell p
    let block ← newObject .proc (.proc ⟨.native (.visit cell v site), false⟩)
    Act.catchBreak site (discard (send recv "each" [] (some block))) fun _ => ()
    match ← takeCell cell with
    | some p => pure p
    | none => runtimeError "iteration state lost"

/-- Every element of a source, in order. -/
def gather (recv : Value) : Op (Array Value) := do
  match ← view (·.array? recv) with
  | some xs => pure xs
  | none => pure (← walk .gather recv {}).items

/-! ## Sorting -/

/-- Merges two sorted lists; of two elements that compare equal the left one comes first. `fuel`
bounds the length of the result. -/
def mergeBy (less : Value → Value → Op Bool) :
    Nat → List Value → List Value → List Value → Op (List Value)
  | 0, _, _, out => pure out.reverse
  | n + 1, a :: as, b :: bs, out => do
    if ← less b a then mergeBy less n (a :: as) bs (b :: out)
    else mergeBy less n as (b :: bs) (a :: out)
  | _, as, bs, out => pure (out.reverse ++ as ++ bs)

/-- Stable merge sort; `fuel` bounds the depth of the halving. -/
def sortBy (less : Value → Value → Op Bool) : Nat → List Value → Op (List Value)
  | 0, xs => pure xs
  | n + 1, xs => do
    if xs.length ≤ 1 then pure xs
    else
      let half := xs.length / 2
      let left ← sortBy less n (xs.take half)
      let right ← sortBy less n (xs.drop half)
      mergeBy less (xs.length + 1) left right []

/-- The order that a block gives two elements. -/
def blockOrder (b x y : Value) : Op Ordering := do
  let r ← callBlock b [x, y]
  match ← view (·.word? r) with
  | some n => pure (compare n 0)
  | none =>
    let kx ← className x
    let ky ← className y
    argumentError s!"comparison of {kx} with {ky} failed"

/-- The order by a block, or else by the values themselves. -/
def orderBy (block : Option Value) (x y : Value) : Op Ordering :=
  match block with
  | some b => blockOrder b x y
  | none => order x y

def sorted (items : List Value) (block : Option Value) : Op (List Value) :=
  sortBy (fun x y => do pure ((← orderBy block x y) == .lt)) items.length items

/-! ## Distinct values -/

/-- The first of each group of elements with equal keys. -/
def distinct (block : Option Value) : List Value → Table → Op (List Value)
  | [], _ => pure []
  | x :: xs, seen => do
    let key ← match block with
      | some b => callBlock b [x]
      | none => pure x
    if (← tableGet? seen key).isSome then distinct block xs seen
    else
      let seen ← tableInsert seen key .nil
      let rest ← distinct block xs seen
      pure (x :: rest)

end Eval

end Garnet
