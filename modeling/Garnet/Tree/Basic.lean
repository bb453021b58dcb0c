/-!
# Program trees

A tree is a tag with ordered children. A child is a nested tree, a literal, or nothing at all.
-/

namespace Garnet

/-! ## The closed table of node tags

Every kind of node that a program may contain, with its spelling. A tag outside the table is
refused when a program is built, so nothing later meets an unknown node.
-/

/-- The kinds of node a program is built from. -/
inductive Tag where
  | send | csend | superCall | bareSuper | yieldTo | block | blockPass | lambda | splat
  | index | indexAsgn | sequence | bracketed | cond | whileLoop | whileLoopPost | untilLoop
  | untilLoopPost | forLoop | and | or | not
  | caseOf | whenClause | nextPass | breakOut | returnFrom | rescue | resbody | ensure
  | lvar | lvasgn | ivar | ivasgn | gvar | gvasgn | cvar | cvasgn | const | casgn | cbase
  | nthRef | opAsgn | orAsgn | andAsgn | masgn | mlhs
  | int | float | str | dstr | sym | dsym | regexp | regopt | array | hash | pair
  | irange | erange | nil | true | false | self
  | define | defs | args | arg | optarg | restarg | blockarg | procarg0 | kwarg | kwoptarg
  | classBody | moduleBody | singletonBody | aliasName
  deriving DecidableEq, Repr

namespace Tag

/-- How a tag is spelled in a tree. -/
def name : Tag → String
  | .send => "send" | .csend => "csend" | .superCall => "super" | .bareSuper => "zsuper"
  | .yieldTo => "yield" | .block => "block" | .blockPass => "block_pass" | .lambda => "lambda"
  | .splat => "splat" | .index => "index" | .indexAsgn => "indexasgn"
  | .sequence => "begin" | .bracketed => "kwbegin" | .cond => "if" | .whileLoop => "while"
  | .whileLoopPost => "while_post" | .untilLoop => "until" | .untilLoopPost => "until_post"
  | .forLoop => "for" | .and => "and" | .or => "or" | .not => "not"
  | .caseOf => "case" | .whenClause => "when" | .nextPass => "next" | .breakOut => "break"
  | .returnFrom => "return" | .rescue => "rescue" | .resbody => "resbody" | .ensure => "ensure"
  | .lvar => "lvar" | .lvasgn => "lvasgn" | .ivar => "ivar" | .ivasgn => "ivasgn"
  | .gvar => "gvar" | .gvasgn => "gvasgn" | .cvar => "cvar" | .cvasgn => "cvasgn"
  | .const => "const" | .casgn => "casgn" | .cbase => "cbase" | .nthRef => "nth_ref"
  | .opAsgn => "op_asgn" | .orAsgn => "or_asgn" | .andAsgn => "and_asgn"
  | .masgn => "masgn" | .mlhs => "mlhs"
  | .int => "int" | .float => "float" | .str => "str" | .dstr => "dstr" | .sym => "sym"
  | .dsym => "dsym" | .regexp => "regexp" | .regopt => "regopt" | .array => "array"
  | .hash => "hash" | .pair => "pair" | .irange => "irange" | .erange => "erange"
  | .nil => "nil" | .true => "true" | .false => "false" | .self => "self"
  | .define => "def" | .defs => "defs" | .args => "args" | .arg => "arg"
  | .optarg => "optarg" | .restarg => "restarg" | .blockarg => "blockarg"
  | .procarg0 => "procarg0" | .kwarg => "kwarg" | .kwoptarg => "kwoptarg"
  | .classBody => "class" | .moduleBody => "module" | .singletonBody => "sclass"
  | .aliasName => "alias"

/-- The whole table. -/
def all : List Tag :=
  [.send, .csend, .superCall, .bareSuper, .yieldTo, .block, .blockPass, .lambda, .splat,
   .index, .indexAsgn, .sequence, .bracketed, .cond, .whileLoop, .whileLoopPost, .untilLoop,
   .untilLoopPost, .forLoop, .and, .or, .not,
   .caseOf, .whenClause, .nextPass, .breakOut, .returnFrom, .rescue, .resbody, .ensure,
   .lvar, .lvasgn, .ivar, .ivasgn, .gvar, .gvasgn, .cvar, .cvasgn, .const, .casgn, .cbase,
   .nthRef, .opAsgn, .orAsgn, .andAsgn, .masgn, .mlhs,
   .int, .float, .str, .dstr, .sym, .dsym, .regexp, .regopt, .array, .hash, .pair,
   .irange, .erange, .nil, .true, .false, .self,
   .define, .defs, .args, .arg, .optarg, .restarg, .blockarg, .procarg0, .kwarg, .kwoptarg,
   .classBody, .moduleBody, .singletonBody, .aliasName]

/-- The tag with a given spelling, `none` outside the table. -/
def lookup (spelling : String) : Option Tag :=
  all.find? (·.name == spelling)

end Tag

/-! ## Trees -/

/-- One child slot of a tree. -/
inductive Child where
  | node (tag : String) (children : List Child)
  | int (value : Int64)
  | float (value : Float)
  | text (value : String)
  | absent

/-- A tagged tree. -/
structure Tree where
  tag : String
  children : List Child

namespace Child

/-- The tree in a slot, if there is one. -/
def tree? : Child → Option Tree
  | node tag children => some ⟨tag, children⟩
  | _ => none

/-- The text in a slot, if there is one. -/
def text? : Child → Option String
  | text s => some s
  | _ => none

mutual

/-- Equality of slots; floats are compared as numbers, so a NaN differs from itself. -/
def beq : Child → Child → Bool
  | node s xs, node t ys => s == t && beqAll xs ys
  | int x, int y => x == y
  | float x, float y => x == y
  | text s, text t => s == t
  | absent, absent => true
  | _, _ => false

def beqAll : List Child → List Child → Bool
  | [], [] => true
  | x :: xs, y :: ys => beq x y && beqAll xs ys
  | _, _ => false

end

mutual

/-- How deeply trees are nested in a slot. -/
def depth : Child → Nat
  | node _ children => depthAll children + 1
  | _ => 0

def depthAll : List Child → Nat
  | [] => 0
  | c :: cs => max (depth c) (depthAll cs)

end

end Child

namespace Tree

instance : BEq Tree := ⟨fun a b => a.tag == b.tag && Child.beqAll a.children b.children⟩

/-- The tag resolved against the table. -/
def kind (t : Tree) : Option Tag := Tag.lookup t.tag

def hasKind (t : Tree) (k : Tag) : Bool := t.kind == some k

def size (t : Tree) : Nat := t.children.length

def depth (t : Tree) : Nat := Child.depthAll t.children + 1

def child? (t : Tree) (i : Nat) : Option Child := t.children[i]?

/-- Slot `i` as a tree; nothing when it is a literal, absent or out of range. -/
def tree? (t : Tree) (i : Nat) : Option Tree := (t.child? i).bind Child.tree?

/-- Slot `i` as text. -/
def text? (t : Tree) (i : Nat) : Option String := (t.child? i).bind Child.text?

/-- The trees among the slots from `start` on; literals and absent slots are passed over. -/
def treesFrom (t : Tree) (start : Nat) : List Tree := (t.children.drop start).filterMap Child.tree?

def toChild (t : Tree) : Child := .node t.tag t.children

end Tree

end Garnet
