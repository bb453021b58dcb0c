import Garnet.Library.Basic

/-!
# Operations of every object
-/

namespace Garnet.Library.Objects

open Eval

def construct : Native := fun _ args _ => do
  checkArity args 0 0
  pure .nil

def methodMissing : Native := fun recv args _ => do
  match args with
  | [] => argumentError "no method name given"
  | n :: _ => missingMethodError recv (← nameOf n) .undefined

def identical : Native := fun recv args _ => do newBool (recv == (← oneArg args))

def not : Native := fun recv _ _ => newBool (!recv.truthy)

def notEqual : Native := fun recv args _ => do newBool (!(← equals recv (← oneArg args)))

/-- Sees hidden methods, and methods of the scope when sent to self. -/
def sendMessage : Native := fun recv args block => do
  match args with
  | [] => argumentError "no method name given"
  | n :: rest =>
    let name ← nameOf n
    if recv == (← self) then perform (.sendBound recv name rest block)
    else send recv name rest block

def publicSend : Native := fun recv args block => do
  match args with
  | [] => argumentError "no method name given"
  | n :: rest => sendWith .onlyPublic recv (← nameOf n) rest block

def instanceEval : Native := fun recv _ block => do
  callBlockAs (← needBlock block) recv [recv]

def instanceExec : Native := fun recv args block => do
  callBlockAs (← needBlock block) recv args

def classOfObject : Native := fun recv _ _ => classOf recv

def eql : Native := fun recv args _ => do newBool (← keyEql recv (← oneArg args))

def caseEqual : Native := fun recv args _ => do newBool (← equals recv (← oneArg args))

def isA : Native := fun recv args _ => do
  let m ← oneArg args
  if ← view (·.isModuleLike m) then newBool (← view (·.isA recv m))
  else typeError "class or module required"

def instanceOf : Native := fun recv args _ => do
  newBool ((← classOf recv) == (← oneArg args))

def isNil : Native := fun recv _ _ => newBool recv.isNil

def respondTo : Native := fun recv args _ => do
  let (n, all) ← oneOrTwoArgs args
  newBool (← Eval.respondsTo recv (← nameOf n) ((all.map Value.truthy).getD false))

def toS : Native := fun recv _ _ => do
  newText (← view fun s => (s.scalarText? recv).getD (s.defaultText recv))

/-- The class with the instance variables, when there are any. -/
def inspectObject : Native := fun recv args block => do
  let ivars ← view fun s => (s.object recv).ivars.entries
  if ivars.isEmpty then toS recv args block
  else
    let parts ← ivars.mapM fun (n, _) => do
      let v ← view fun s => (s.ivar? recv n).getD .nil
      let shown ← inspect v
      pure s!"{n}={shown}"
    let kind ← className recv
    let all := ", ".intercalate parts
    newText s!"#<{kind} {all}>"

def mainToS : Native := fun _ _ _ => newText "main"

def objectId : Native := fun recv _ _ => newNat (8 * recv.index + 8)

def hashCode : Native := fun recv _ _ => do newInt (← view (·.hashCode recv))

def extend : Native := fun recv args _ => do
  checkAtLeast args 1
  args.reverse.forM (extendObject recv)
  pure recv

def ivarName (v : Value) : Op String := do
  let n ← nameOf v
  if !n.startsWith "@" || n.startsWith "@@" then
    nameError s!"'{n}' is not allowed as an instance variable name"
  else pure n

def ivarGet : Native := fun recv args _ => do
  let n ← ivarName (← oneArg args)
  view fun s => (s.ivar? recv n).getD .nil

def ivarSet : Native := fun recv args _ => do
  let (n, v) ← twoArgs args
  let n ← ivarName n
  update (.setIvar recv n v)
  pure v

def ivarNames : Native := fun recv _ _ => do
  newSymbols (← view fun s => (s.object recv).ivars.keys)

def ivarDefined : Native := fun recv args _ => do
  let n ← ivarName (← oneArg args)
  newBool (← view fun s => (s.ivar? recv n).isSome)

def tap : Native := fun recv _ block => do
  discard (callBlock (← needBlock block) [recv])
  pure recv

def yieldSelf : Native := fun recv _ block => do callBlock (← needBlock block) [recv]

def itself : Native := fun recv _ _ => pure recv

def isFrozen : Native := fun recv _ _ => do
  match ← payload recv with
  | .nil | .true | .false | .integer _ | .float _ | .symbol _ => newBool true
  | _ => newBool false

def nilResult : Native := fun _ _ _ => pure .nil

def notMatch : Native := fun recv args _ => do
  discard (oneArg args)
  let r ← send recv "=~" args none
  newBool (!r.truthy)

/-- The public methods of the object itself and of its extensions. -/
def singletonMethods : Native := fun recv _ _ => do
  let names ← view fun s =>
    let o := s.object recv
    let more := o.extended.flatMap (s.instanceMethodNames · true [.pub])
    (more.foldl Store.addNew (o.own.names .pub).toArray).toList
  newSymbols names

def methods : Native := fun recv _ _ => do
  newSymbols (← view (·.methodNames recv ⟨false, true⟩))

def defineSingletonMethod : Native := fun recv args block => do
  let (n, body) ← oneOrTwoArgs args
  let name ← nameOf n
  let body ← match body with
    | some p => pure p
    | none => needBlock block
  defineSingleton recv name ⟨name, .proc body, true⟩

/-- A shallow copy with the same instance variables; what can not be copied is itself. -/
def dup : Native := fun recv _ _ => do
  match ← view (·.copiedObject? recv) with
  | some _ => make (.copyObject recv)
  | none => if ← view (·.isModuleLike recv) then copyClass recv else pure recv

def entries : List Entry :=
  let basic := Entry.method .basicObject
  let on := Entry.method .object
  [.hiddenMethod .basicObject "initialize" construct,
   .hiddenMethod .basicObject "method_missing" methodMissing,
   basic "==" identical,
   basic "equal?" identical,
   basic "!" not,
   basic "!=" notEqual,
   basic "__send__" sendMessage,
   basic "__id__" objectId,
   basic "instance_eval" instanceEval,
   basic "instance_exec" instanceExec,
   on "class" classOfObject,
   on "eql?" eql,
   on "===" caseEqual,
   .methods .object ["is_a?", "kind_of?"] isA,
   on "instance_of?" instanceOf,
   on "nil?" isNil,
   on "respond_to?" respondTo,
   on "send" sendMessage,
   on "public_send" publicSend,
   on "to_s" toS,
   on "inspect" inspectObject,
   on "object_id" objectId,
   on "hash" hashCode,
   on "extend" extend,
   on "instance_variable_get" ivarGet,
   on "instance_variable_set" ivarSet,
   on "instance_variables" ivarNames,
   on "instance_variable_defined?" ivarDefined,
   on "tap" tap,
   on "then" yieldSelf,
   on "itself" itself,
   on "singleton_methods" singletonMethods,
   on "methods" methods,
   on "public_methods" methods,
   on "define_singleton_method" defineSingletonMethod,
   .methods .object ["dup", "clone"] dup,
   on "freeze" itself,
   on "frozen?" isFrozen,
   on "=~" nilResult,
   on "!~" notMatch,
   .singleton .main "to_s" mainToS,
   .singleton .main "inspect" mainToS]

end Garnet.Library.Objects
