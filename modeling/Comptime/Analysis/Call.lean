import Comptime.Analysis.Evaluation
import Comptime.Analysis.Overload
import Comptime.Analysis.Polymorphism

/-!
# Calls
-/

namespace Comptime.Lower

/-- Convert the arguments of a call to the types of the parameters. -/
def coerceArgs (params : List TypeId) (args : List Operand) (span : Span) :
    Lower (List Operand) := do
  if params.length ≠ args.length then
    Analysis.typeError span ("expected " ++ toString params.length ++ " argument(s), found " ++
      toString args.length)
  (args.zip params).mapM fun (arg, param) => coerce arg param

/-- Write a call. -/
def emitCall (callee : Callee) (params : List TypeId) (ret : TypeId) (args : List Operand)
    (span : Span) : Lower Operand := do
  let args ← coerceArgs params args span
  let ids ← args.mapM materialize
  return .instr (← emit (.call callee ids) ret span) ret span

/-- Call a known function. One that only lives at compile time is called at once. -/
def directCall (f : FnId) (args : List Operand) (span : Span) : Lower Operand := do
  let func ← Analysis.functionOf f
  match func.flavor with
  | .runtime => emitCall (.direct f) func.params func.ret args span
  | .comptimeOnly =>
    let args ← coerceArgs func.params args span
    let values ← args.mapM fun arg =>
      match arg.const? with
      | some v => pure v
      | none =>
        Analysis.typeError arg.span ("arguments of compile-time function `" ++ func.name ++
          "` must be known at compile time")
    return .constant (← Analysis.callNow f values) func.ret span

/-- Call a function that is computed when the program runs. -/
def indirectCall (callee : Operand) (args : List Operand) (span : Span) : Lower Operand := do
  let callee ← rvalue callee
  match (← Analysis.types).signature callee.ty with
  | some (params, ret) =>
    let target ← materialize callee
    emitCall (.indirect target) params ret args span
  | none => Analysis.typeError span ((← Analysis.quoted callee.ty) ++ " is not callable")

def call (w : Walk) (scope : ScopeId) (callee : NodeId) (args : List NodeId) (span : Span) :
    Lower Operand := do
  let callee ← w.expr scope callee
  let args ← args.mapM (w.value scope)
  match callee.kind with
  | .group members => directCall (← Analysis.selectOverload members args span) args span
  | .poly recipe => directCall (← Analysis.specialize w recipe args span) args span
  | .const (.fn f) => directCall f args span
  | .scope _ => Analysis.typeError span "a scope cannot be called"
  | _ => indirectCall callee args span

end Comptime.Lower
