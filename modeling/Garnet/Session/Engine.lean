import Garnet.Eval.Forms
import Garnet.Library.All

/-!
# The engine

Requests are performed by the evaluator of expressions, the calls of methods and procs, and the
library. Each request costs one unit of fuel, so that the whole is a total function.
-/

namespace Garnet

namespace Eval

/-- Runs the block `p`, which is no program text. -/
def runNative (p : Value) : NativeBlock → List Value → Eval Value
  | .visit cell v site, args => runVisit cell v site args
  | .forStep target body _ scope, args => forStep p target body scope args
  | .message _, [] => argumentError "no receiver given"
  | .message name, v :: rest => sendWith .onlyPublic v name rest none

def runMethod (m : MethodDef) (holder : Holder) (recv : Value) (args : List Value)
    (block : Option Value) : Call Value :=
  match m.body with
  | .builtin index => Library.run index recv args block
  | .reader ivar => view fun s => (s.ivar? recv ivar).getD .nil
  | .writer ivar => do
    let v ← oneArg args
    update (.setIvar recv ivar v)
    pure v
  | .answer text => newText text
  | .compiled params body scope => runCompiled m.name params body scope holder recv args block
  | .proc p => runProcMethod m.name p holder recv args block

/-- What a request does. -/
def handle : Request → Call Value
  | .eval e => evalExpr e
  | .store t v => do
    storeIn t v
    pure .nil
  | .send access recv name args block => answer access recv name args block
  | .sendBound recv name args block => answerBound recv name args block
  | .invoke m holder recv args block => runMethod m holder recv args block
  | .callProc p args block rebind => runProc runNative p args block rebind
  | .define holder name d => define holder name d
  | .enter p c lambda args block rebind => runClosure p c lambda args block rebind

end Eval

namespace Engine

/-- The refusal of a call that would go too deep. -/
def tooDeep : Run Value := fun s =>
  let (exc, s) := s.newException CoreClass.systemStackError.value "stack level too deep"
  .error (.signal (.raise exc)) s

/-- Runs `x` one call deeper, if the depth allows. -/
def deeper (x : Run Value) : Run Value := fun s =>
  if s.depth ≥ s.config.maxDepth then tooDeep s
  else
    match x { s with depth := s.depth + 1 } with
    | .ok v s => .ok v { s with depth := s.depth - 1 }
    | .error stop s => .error stop { s with depth := s.depth - 1 }

end Engine

/-- Performs a request within so many nested requests. -/
def Engine.run : Nat → Request → Run Value
  | 0, _ => fun s => .error .exhausted s
  | n + 1, r =>
    let x := (Eval.handle r).run ⟨n, Engine.run n⟩
    if r.isCall then deeper x else x

/-- The engine that performs requests with some fuel. -/
def Engine.ofFuel (fuel : Nat) : Engine := ⟨fuel, Engine.run fuel⟩

end Garnet
