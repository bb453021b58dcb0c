import Garnet.Library.Arrays

/-!
# Operations of hashes
-/

namespace Garnet.Library.Hashes

open Eval

def dataOf (v : Value) : Op HashData := do pure ((← view (·.hash? v)).getD {})

def tableOf (v : Value) : Op Table := view (·.entries v)

def pairsOf (v : Value) : Op (List (Value × Value)) := do pure (← tableOf v).pairs

/-- Changes a hash in place. -/
def edit (v : Value) (e : HashEdit) : Op Unit := update (.editHash v e)

def newPair (entry : Value × Value) : Op Value := newList [entry.1, entry.2]

def construct : Native := fun recv args block => do
  let default ← atMostOneArg args
  edit recv (.setFallback default block)
  pure .nil

/-! ## Reading and writing -/

/-- The value of a key; for a missing one the block of the hash is asked, or else its default
taken. -/
def getOrDefault (recv key : Value) : Op Value := do
  match ← lookupEntry recv key with
  | some v => pure v
  | none =>
    let h ← dataOf recv
    match h.fallbackProc with
    | some p => callBlock p [recv, key]
    | none => pure (h.fallback.getD .nil)

def get : Native := fun recv args _ => do getOrDefault recv (← oneArg args)

/-- A text used as a key is copied first. -/
def set : Native := fun recv args _ => do
  let (key, v) ← twoArgs args
  let key ← match ← view (·.text? key) with
    | some t => newText t
    | none => pure key
  insertEntry recv key v
  pure v

def default : Native := fun recv _ _ => do pure ((← dataOf recv).fallback.getD .nil)

def setDefault : Native := fun recv args _ => do
  let v ← oneArg args
  edit recv (.setFallback (some v) (← dataOf recv).fallbackProc)
  pure v

def fetch : Native := fun recv args block => do
  let (key, default) ← oneOrTwoArgs args
  match ← lookupEntry recv key, block, default with
  | some v, _, _ => pure v
  | none, some b, _ => callBlock b [key]
  | none, none, some v => pure v
  | none, none, none =>
    let shown ← inspect key
    keyError s!"key not found: {shown}"

def hasKey : Native := fun recv args _ => do
  newBool (← lookupEntry recv (← oneArg args)).isSome

/-- The first entry whose value equals the argument. -/
def entryOf (recv : Value) (args : List Value) : Op (Option (Value × Value)) := do
  let target ← oneArg args
  (← pairsOf recv).findM? fun entry => equals entry.2 target

def hasValue : Native := fun recv args _ => do newBool (← entryOf recv args).isSome

def keyFor : Native := fun recv args _ => do
  pure (((← entryOf recv args).map (·.1)).getD .nil)

def keys : Native := fun recv _ _ => do newList (← tableOf recv).keys

def values : Native := fun recv _ _ => do newList (← tableOf recv).values

def valuesAt : Native := fun recv args _ => do newList (← args.mapM (getOrDefault recv))

def length : Native := fun recv _ _ => do newNat (← tableOf recv).size

def isEmpty : Native := fun recv _ _ => do newBool ((← tableOf recv).size == 0)

/-! ## Visiting -/

/-- Calls the block with something of each entry. -/
def visit (part : Value × Value → Op Value) : Native := fun recv _ block => do
  let b ← needBlock block
  (← pairsOf recv).forM fun entry => do discard (callBlock b [← part entry])
  pure recv

/-! ## Removing -/

def delete : Native := fun recv args block => do
  let key ← oneArg args
  match ← lookupEntry recv key, block with
  | some v, _ =>
    edit recv (.erase key)
    pure v
  | none, some b => callBlock b [key]
  | none, none => pure .nil

def keepIf (keep : Bool) : Native := fun recv _ block => do
  let b ← needBlock block
  let kept ← newHash
  (← pairsOf recv).forM fun entry => do
    let pair ← newPair entry
    if (← callBlock b [pair]).truthy == keep then insertEntry kept entry.1 entry.2
  edit recv (.copy kept)
  pure recv

def clear : Native := fun recv _ _ => do
  edit recv .clear
  pure recv

/-! ## Combining -/

/-- Adds to a hash what is made of each entry. -/
def fill (out : Value) (change : Value × Value → Op (Value × Value))
    (entries : List (Value × Value)) : Op Unit :=
  entries.forM fun entry => do
    let (key, v) ← change entry
    insertEntry out key v

/-- An entry to be added; the block decides about a key that is there already. -/
def resolved (block : Option Value) (out : Value) : Value × Value → Op (Value × Value) :=
  fun (key, v) => do
    match ← lookupEntry out key, block with
    | some old, some b => pure (key, ← callBlock b [key, old, v])
    | _, _ => pure (key, v)

/-- Adds the entries of a hash to another. -/
def mergeInto (block : Option Value) (out other : Value) : Op Unit := do
  match ← view (·.hash? other) with
  | none => noConversion other "Hash"
  | some h => fill out (resolved block out) h.table.pairs

/-- A new hash with the entries of `recv` and those of others. -/
def merged (recv : Value) (others : List Value) (block : Option Value) : Op Value := do
  let out ← newHash
  edit out (.copy recv)
  others.forM (mergeInto block out)
  pure out

def merge : Native := fun recv args block => do
  let h ← dataOf recv
  let out ← merged recv args block
  edit out (.setFallback h.fallback h.fallbackProc)
  pure out

def mergeInPlace : Native := fun recv args block => do
  edit recv (.copy (← merged recv args block))
  pure recv

/-- A hash made from each entry in turn. -/
def rebuilt (recv : Value) (change : Value × Value → Op (Value × Value)) : Op Value := do
  let out ← newHash
  fill out change (← pairsOf recv)
  pure out

def transformValues : Native := fun recv _ block => do
  let b ← needBlock block
  rebuilt recv fun (key, v) => do pure (key, ← callBlock b [v])

def transformKeys : Native := fun recv _ block => do
  let b ← needBlock block
  rebuilt recv fun (key, v) => do pure (← callBlock b [key], v)

def invert : Native := fun recv _ _ => rebuilt recv fun (key, v) => pure (v, key)

def toH : Native := fun recv _ block => do
  match block with
  | none => pure recv
  | some b =>
    rebuilt recv fun entry => do
      let pair ← newPair entry
      let items ← needArray (← callBlock b [pair])
      pure (items[0]?.getD .nil, items[1]?.getD .nil)

def toA : Native := fun recv _ _ => do newList (← (← pairsOf recv).mapM newPair)

/-! ## Comparing and showing -/

/-- Whether each entry is also one of `other`. -/
def allIn (other : Value) : List (Value × Value) → Op Bool
  | [] => pure true
  | (key, v) :: rest => do
    match ← lookupEntry other key with
    | some w => if ← equals v w then allIn other rest else pure false
    | none => pure false

/-- The same entries in any order. -/
def equal : Native := fun recv args _ => do
  let other ← oneArg args
  match ← view (·.hash? recv), ← view (·.hash? other) with
  | some a, some b =>
    if a.table.size == b.table.size then newBool (← allIn other a.table.pairs) else newBool false
  | _, _ => newBool false

def hashCode : Native := fun recv _ _ => do newInt (← view (·.hashCode recv))

def inspectHash : Native := fun recv _ _ => do
  let parts ← (← pairsOf recv).mapM fun (key, v) => do
    let key ← inspect key
    let v ← if v == recv then pure "\x7b...\x7d" else inspect v
    pure s!"{key}=>{v}"
  newText ("\x7b" ++ ", ".intercalate parts ++ "\x7d")

def entries : List Entry :=
  let on := Entry.method .hash
  let all := Entry.methods .hash
  [on "initialize" construct,
   on "[]" get,
   all ["[]=", "store"] set,
   on "default" default,
   on "default=" setDefault,
   on "fetch" fetch,
   on "dig" Arrays.dig,
   all ["key?", "has_key?", "include?", "member?"] hasKey,
   all ["value?", "has_value?"] hasValue,
   on "key" keyFor,
   on "keys" keys,
   on "values" values,
   on "values_at" valuesAt,
   all ["length", "size"] length,
   on "empty?" isEmpty,
   all ["each", "each_pair"] (visit newPair),
   on "each_key" (visit fun entry => pure entry.1),
   on "each_value" (visit fun entry => pure entry.2),
   on "delete" delete,
   all ["delete_if", "reject!"] (keepIf false),
   all ["keep_if", "select!"] (keepIf true),
   on "merge" merge,
   all ["merge!", "update"] mergeInPlace,
   on "transform_values" transformValues,
   on "transform_keys" transformKeys,
   on "invert" invert,
   on "clear" clear,
   on "to_a" toA,
   on "to_h" toH,
   on "==" equal,
   on "hash" hashCode,
   all ["inspect", "to_s"] inspectHash]

end Garnet.Library.Hashes
