/-!
# Values

Every value is a reference to an object on the heap, and two values are the same object exactly when
they are equal. The classes and the singular objects that every store begins with have fixed places.
-/

namespace Garnet

/-- A place on the heap. -/
structure Value where
  index : Nat
  deriving DecidableEq, Inhabited, Repr, Hashable

/-- A place among the scopes. -/
structure ScopeId where
  index : Nat
  deriving DecidableEq, Inhabited, Repr

/-- What a new instance of a class holds. -/
inductive AllocKind where
  | object
  | array
  | hash
  | text
  | newClass
  | newModule
  /-- Instances come only from literals and operations. -/
  | none
  deriving DecidableEq, Repr

/-- The classes and modules of every store, in the order of their places. -/
inductive CoreClass where
  | basicObject | object | moduleClass | classClass | kernel | comparable | enumerable
  | nilClass | trueClass | falseClass | integer | float | string | symbol | array | hash | range
  | proc | regexp | io
  | exception | standardError | runtimeError | nameError | noMethodError | typeError | argumentError
  | zeroDivisionError | indexError | keyError | stopIteration | localJumpError | systemStackError
  deriving DecidableEq, Repr

namespace CoreClass

def all : List CoreClass :=
  [basicObject, object, moduleClass, classClass, kernel, comparable, enumerable,
   nilClass, trueClass, falseClass, integer, float, string, symbol, array, hash, range,
   proc, regexp, io,
   exception, standardError, runtimeError, nameError, noMethodError, typeError, argumentError,
   zeroDivisionError, indexError, keyError, stopIteration, localJumpError, systemStackError]

def value (c : CoreClass) : Value := ⟨c.ctorIdx⟩

def name : CoreClass → String
  | basicObject => "BasicObject"
  | object => "Object"
  | moduleClass => "Module"
  | classClass => "Class"
  | kernel => "Kernel"
  | comparable => "Comparable"
  | enumerable => "Enumerable"
  | nilClass => "NilClass"
  | trueClass => "TrueClass"
  | falseClass => "FalseClass"
  | integer => "Integer"
  | float => "Float"
  | string => "String"
  | symbol => "Symbol"
  | array => "Array"
  | hash => "Hash"
  | range => "Range"
  | proc => "Proc"
  | regexp => "Regexp"
  | io => "IO"
  | exception => "Exception"
  | standardError => "StandardError"
  | runtimeError => "RuntimeError"
  | nameError => "NameError"
  | noMethodError => "NoMethodError"
  | typeError => "TypeError"
  | argumentError => "ArgumentError"
  | zeroDivisionError => "ZeroDivisionError"
  | indexError => "IndexError"
  | keyError => "KeyError"
  | stopIteration => "StopIteration"
  | localJumpError => "LocalJumpError"
  | systemStackError => "SystemStackError"

def isModule : CoreClass → Bool
  | kernel | comparable | enumerable => true
  | _ => false

/-- The class above a class. -/
def base : CoreClass → Option CoreClass
  | basicObject | kernel | comparable | enumerable => none
  | object => some basicObject
  | classClass => some moduleClass
  | standardError | systemStackError => some exception
  | runtimeError | nameError | typeError | argumentError | zeroDivisionError | indexError
  | localJumpError => some standardError
  | noMethodError => some nameError
  | keyError | stopIteration => some indexError
  | _ => some object

def alloc : CoreClass → AllocKind
  | moduleClass => .newModule
  | classClass => .newClass
  | string => .text
  | array => .array
  | hash => .hash
  | kernel | comparable | enumerable | nilClass | trueClass | falseClass | integer | float | symbol
  | range | proc | regexp | io => .none
  | _ => .object

/-- The modules a class starts out with. -/
def mixins : CoreClass → List CoreClass
  | object => [kernel]
  | array | hash | range => [enumerable]
  | string | integer | float => [comparable]
  | _ => []

end CoreClass

namespace Value

/-- The places after the classes hold nil, the truth values, the outermost self and the output. -/
def nil : Value := ⟨33⟩
def true : Value := ⟨34⟩
def false : Value := ⟨35⟩
def main : Value := ⟨36⟩
def stdout : Value := ⟨37⟩

/-- The first place after the fixed ones. -/
def firstFree : Nat := 38

def ofBool (b : Bool) : Value := if b then .true else .false

def isNil (v : Value) : Bool := v == .nil

/-- Everything but nil and false counts as true. -/
def truthy (v : Value) : Bool := v != .nil && v != .false

end Value

end Garnet
