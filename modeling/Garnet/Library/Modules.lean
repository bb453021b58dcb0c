import Garnet.Library.Basic

/-!
# Operations of classes and modules
-/

namespace Garnet

namespace Eval

/-- A new instance of a class, before anything is run on it. -/
def allocate (cls : Value) : Op Value := do
  match ← view (·.module? cls) with
  | none =>
    let kind ← className cls
    typeError s!"{kind} is not a class"
  | some m =>
    let name := m.name
    if m.isModule then noMethodError s!"undefined method 'new' for module {name}"
    else match m.alloc.blank? with
      | some _ => make (.instantiate cls)
      | none => noMethodError s!"undefined method 'new' for class {name}"

end Eval

namespace Library.Modules

open Eval

def name : Native := fun recv _ _ => do
  newText (← view fun s => match s.moduleName? recv with
    | some n => if n.isEmpty then s.defaultText recv else n
    | none => s.defaultText recv)

/-! ## Ancestry -/

/-- The first module named comes first in the lookup. -/
def includeAll : Native := fun recv args _ => do
  checkAtLeast args 1
  args.reverse.forM (includeModule recv)
  pure recv

def includes : Native := fun recv args _ => do
  let m ← oneArg args
  newBool (← view fun s => s.isModule m && recv != m && s.inherits recv m)

def ancestors : Native := fun recv _ _ => do newList (← view (·.ancestors recv))

def caseEqual : Native := fun recv args _ => do
  let v ← oneArg args
  newBool (← view (·.isA v recv))

def same : Native := fun recv args _ => do newBool (recv == (← oneArg args))

/-- Whether `a` is below `b`; nil when neither is below the other. -/
def relation (a b : Value) (strict : Bool) : Op Value := do
  if !(← view (·.isModuleLike b)) then typeError "compared with non class/module"
  else if a == b then newBool (!strict)
  else if ← view (·.inherits a b) then newBool true
  else if ← view (·.inherits b a) then newBool false
  else pure .nil

def below (strict : Bool) : Native := fun recv args _ => do relation recv (← oneArg args) strict

def above (strict : Bool) : Native := fun recv args _ => do relation (← oneArg args) recv strict

def superclass : Native := fun recv _ _ => do pure ((← view (·.base? recv)).getD .nil)

/-! ## Methods -/

def methodNames (vs : List Visibility) : Native := fun recv args _ => do
  let inherited := (args.head?.map Value.truthy).getD true
  newSymbols (← view (·.instanceMethodNames recv inherited vs))

def visibilityOf (recv : Value) (args : List Value) : Op (Option Visibility) := do
  let (n, _) ← oneOrTwoArgs args
  let name ← nameOf n
  view fun s => (s.findInstanceMethod? recv name).map (·.2)

def methodDefined (vs : List Visibility) : Native := fun recv args _ => do
  match ← visibilityOf recv args with
  | some v => newBool (vs.contains v)
  | none => newBool false

def methodVisibility : Native := fun recv args _ => do
  match ← visibilityOf recv args with
  | some v => newSymbol v.text
  | none => pure .nil

def defineReader (module : Value) (name : String) : Op Unit :=
  defineInstanceMethod module name ⟨name, .reader s!"@{name}", false⟩

def defineWriter (module : Value) (name : String) : Op Unit :=
  let setter := s!"{name}="
  defineInstanceMethod module setter ⟨setter, .writer s!"@{name}", false⟩

def attrReader : Native := fun recv args _ => do
  let names ← args.mapM nameOf
  names.forM (defineReader recv)
  newSymbols names

def attrWriter : Native := fun recv args _ => do
  let names ← args.mapM nameOf
  names.forM (defineWriter recv)
  newSymbols (names.map (· ++ "="))

def attrAccessor : Native := fun recv args _ => do
  let names ← args.mapM nameOf
  names.forM fun n => do
    defineReader recv n
    defineWriter recv n
  newSymbols (names.flatMap fun n => [n, n ++ "="])

/-- Names given one by one, or as a single array. -/
def givenNames (args : List Value) : Op (List String) := do
  let vs ← match args with
    | [v] => toList v
    | _ => pure args
  vs.mapM nameOf

def changeVisibility (v : Visibility) : Native := fun recv args _ => do
  let names ← givenNames args
  setVisibility recv v names
  match args with
  | [] => pure .nil
  | [a] => pure a
  | _ => newList args

def classMethodVisibility (v : Visibility) : Native := fun recv args _ => do
  let names ← givenNames args
  names.forM fun n => do
    if ← view (·.hasOwnMethod recv n) then update (.setVisibility (.own recv) n v)
    else undefinedMethod recv n
  pure .nil

def nothing : Native := fun _ _ _ => pure .nil

/-- Copies instance methods to the module itself. -/
def moduleFunction : Native := fun recv args _ => do
  let names ← givenNames args
  names.forM fun n => do
    if (← view (·.findInstanceMethod? recv n)).isSome then update (.adopt (.own recv) recv n .pub)
    else undefinedMethod recv n
  pure .nil

def aliasMethod : Native := fun recv args _ => do
  let (new, old) ← twoArgs args
  let new ← nameOf new
  let old ← nameOf old
  aliasIn recv new old
  newSymbol new

def defineMethod : Native := fun recv args block => do
  let (n, body) ← oneOrTwoArgs args
  let name ← nameOf n
  let body ← match body with
    | some p =>
      if (← view (·.proc? p)).isSome then pure p
      else
        let kind ← className p
        typeError s!"wrong argument type {kind} (expected Proc)"
    | none => needBlock block
  defineInstanceMethod recv name ⟨name, .proc body, true⟩
  newSymbol name

def removeMethod : Native := fun recv args _ => do
  args.forM fun a => do
    let n ← nameOf a
    if ← view fun s => (s.tableOf (.instances recv)).contains n then
      update (.eraseMethod (.instances recv) n)
    else
      let owner ← view fun s => (s.moduleName? recv).getD ""
      nameError s!"method '{n}' not defined in {owner}"
  pure recv

/-! ## Constants and class variables -/

/-- Follows a path of names; the first may also be one of the outermost constants. -/
def constPath (recv : Value) : List String → Value → Op Value
  | [], here => pure here
  | part :: rest, here => do
    match ← rescue (getConstIn here part) with
    | .ok v => constPath recv rest v
    | .error exc =>
      if here == recv then constPath recv rest (← getTopConst part) else signal (.raise exc)

def constGet : Native := fun recv args _ => do
  let (n, _) ← oneOrTwoArgs args
  let path ← nameOf n
  constPath recv ((path.splitOn "::").filter (!·.isEmpty)) recv

def constSet : Native := fun recv args _ => do
  let (n, v) ← twoArgs args
  let name ← nameOf n
  if (name.toList.head?.map Char.isUpper).getD false then setConstIn recv name v
  else nameError s!"wrong constant name {name}"

def constDefined : Native := fun recv args _ => do
  let (n, _) ← oneOrTwoArgs args
  let name ← nameOf n
  match ← rescue (getConstIn recv name) with
  | .ok _ => newBool true
  | .error _ => newBool false

def constants : Native := fun recv _ _ => do
  newSymbols (← view fun s => ((s.module? recv).map (·.consts.keys)).getD [])

def cvarGet : Native := fun recv args _ => do
  let name ← nameOf (← oneArg args)
  match ← view (·.cvar? recv name) with
  | some v => pure v
  | none =>
    let owner ← view fun s => (s.moduleName? recv).getD ""
    nameError s!"uninitialized class variable {name} in {owner}"

def cvarSet : Native := fun recv args _ => do
  let (n, v) ← twoArgs args
  let name ← nameOf n
  update (.setCvar recv name v)
  pure v

/-! ## Instances -/

def classEval : Native := fun recv _ block => do
  callBlockAs (← needBlock block) recv [recv]

/-- A new class or module runs the block as its body; any other instance is initialized with the
arguments. -/
def new : Native := fun recv args block => do
  let build := fun made : Value => do
    match block with
    | some b => discard (callBlockAs b made [made])
    | none => pure ()
    pure made
  let kind ← view fun s => (s.module? recv).map ModuleInfo.alloc
  match kind with
  | some .newClass => build (← Eval.subclass (args.headD CoreClass.object.value) "")
  | some .newModule => build (← newModule "")
  | _ =>
    let made ← Eval.allocate recv
    discard (send made "initialize" args block)
    pure made

def allocate : Native := fun recv _ _ => Eval.allocate recv

def subclass : Native := fun recv args _ => do
  let name ← match ← atMostOneArg args with
    | some n => nameOf n
    | none => pure ""
  Eval.subclass recv name

def copy : Native := fun recv _ _ => copyClass recv

def hashCode : Native := fun recv _ _ => newNat (recv.index + 1)

def entries : List Entry :=
  let on := Entry.method .moduleClass
  let all := Entry.methods .moduleClass
  let hidden := Entry.hiddenMethod .moduleClass
  let onClass := Entry.method .classClass
  [all ["name", "to_s", "inspect"] name,
   on "include" includeAll,
   on "include?" includes,
   on "ancestors" ancestors,
   all ["instance_methods", "public_instance_methods"] (methodNames [.pub, .prot]),
   on "private_instance_methods" (methodNames [.priv]),
   on "method_defined?" (methodDefined [.pub, .prot]),
   on "public_method_defined?" (methodDefined [.pub]),
   on "private_method_defined?" (methodDefined [.priv]),
   on "protected_method_defined?" (methodDefined [.prot]),
   on "instance_method_visibility" methodVisibility,
   all ["attr_reader", "attr"] attrReader,
   on "attr_writer" attrWriter,
   on "attr_accessor" attrAccessor,
   hidden "private" (changeVisibility .priv),
   hidden "public" (changeVisibility .pub),
   hidden "protected" (changeVisibility .prot),
   on "private_class_method" (classMethodVisibility .priv),
   on "public_class_method" (classMethodVisibility .pub),
   on "private_constant" nothing,
   on "module_function" moduleFunction,
   on "alias_method" aliasMethod,
   on "define_method" defineMethod,
   on "remove_method" removeMethod,
   on "const_get" constGet,
   on "const_set" constSet,
   on "const_defined?" constDefined,
   on "constants" constants,
   on "class_variable_get" cvarGet,
   on "class_variable_set" cvarSet,
   all ["class_eval", "module_eval", "class_exec"] classEval,
   on "===" caseEqual,
   on "==" same,
   on "<" (below true),
   on "<=" (below false),
   on ">" (above true),
   on ">=" (above false),
   on "hash" hashCode,
   onClass "new" new,
   onClass "allocate" allocate,
   onClass "superclass" superclass,
   onClass "subclass" subclass,
   onClass "copy" copy]

end Library.Modules

end Garnet
