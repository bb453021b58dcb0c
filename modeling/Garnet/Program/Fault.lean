/-!
# Why a tree is no program
-/

namespace Garnet

/-- What is wrong with the slots of a node. -/
inductive Reason where
  | notTree (slot : Nat)
  | notName (slot : Nat)
  /-- The node stands outside the construct it belongs to. -/
  | misplaced (home : String)
  | blockOutsideCall
  | blockNotLast
  | twoBlocks
  | takesNoBlock
  | missingValue
  | notParams
  | keywordParams
  | unexpectedParam (tag : String)
  | nestedParam
  | aliasOfOther
  | missingTests
  | expectedWhen
  | expectedHandler
  | nextOutside
  | breakOutside
  | notTarget
  | manySplats
  | expectedTargets
  | badInteger (digits : String)
  | expectedInteger
  | expectedFloat
  | badEntry (tag : String)
  | expectedGroup
  | tooDeep
  deriving DecidableEq, Repr

def Reason.message : Reason → String
  | .notTree i => s!"child {i} must be a node"
  | .notName i => s!"child {i} must be a name"
  | .misplaced home => s!"only valid {home}"
  | .blockOutsideCall => "block argument outside a call"
  | .blockNotLast => "block argument must come last"
  | .twoBlocks => "both block argument and literal block given"
  | .takesNoBlock => "cannot take a block"
  | .missingValue => "missing assigned value"
  | .notParams => "expected a parameter list"
  | .keywordParams => "keyword arguments are not supported"
  | .unexpectedParam tag => s!"unexpected parameter '{tag}'"
  | .nestedParam => "unsupported nested parameter"
  | .aliasOfOther => "only method names can be aliased"
  | .missingTests => "missing tests"
  | .expectedWhen => "expected 'when'"
  | .expectedHandler => "expected 'resbody'"
  | .nextOutside => "next used outside of a loop or block"
  | .breakOutside => "break used outside of a loop or block"
  | .notTarget => "not an assignment target"
  | .manySplats => "more than one splat target"
  | .expectedTargets => "expected 'mlhs' target"
  | .badInteger digits => s!"bad integer literal '{digits}'"
  | .expectedInteger => "expected an integer literal"
  | .expectedFloat => "expected a float literal"
  | .badEntry tag => s!"unexpected '{tag}' entry"
  | .expectedGroup => "expected a group number"
  | .tooDeep => "nested too deeply"

/-- Why a tree was refused: an unknown tag, or a known one with wrong slots. -/
inductive Fault where
  | unsupported (tag : String)
  | malformed (tag : String) (reason : Reason)
  deriving DecidableEq, Repr

namespace Fault

/-- The tag of the node at fault. -/
def tag : Fault → String
  | unsupported tag | malformed tag _ => tag

def message : Fault → String
  | unsupported tag => s!"unsupported node type '{tag}'"
  | malformed tag reason => s!"malformed '{tag}' node: {reason.message}"

end Fault

end Garnet
