import Comptime.Analysis.Conversion
import Comptime.Analysis.Walk
import Comptime.Machine.Step

/-!
# Evaluation at compile time

An expression that does not fold to a constant is written into a function without a name, and the
machine runs it. A run that needs a function whose body is not analysed yet waits for that body.
-/

namespace Comptime.Analysis

/-- What the machine executes during analysis. -/
def setting : Analysis Setting := do
  let c ← read
  let t ← get
  return ⟨c.config.limits, t.types, t.code, c.host⟩

/-- Take a value of a type from the machine. -/
def receive (ty : TypeId) (v : Value) : Analysis Value := do
  modify fun t => if v.fits t.types ty then t else { t with strays := (ty, v) :: t.strays }
  return v

/-- The value of a run that gives a value of type `ty`, or the reason to halt. -/
def outcome (ty : TypeId) : Outcome → Analysis Value
  | .returned v => receive ty v
  | .trapped trap =>
    match trap.kind with
    | .incompleteFunction _ => throw .silent
    | _ => throw (.trap trap)
  | .postponed f => do
    let t ← get
    match t.scheduler.find? (.body f) with
    | some task => throw (.postpone task)
    | none => internal ("function `" ++ (t.code.function f).name ++ "` has no body task")
  | .exhausted => internal "execution did not end"
  | .missing f => throw (.fatal (.crashed f))

/-- Call a function at compile time. -/
def callNow (f : FnId) (args : List Value) : Analysis Value := do
  outcome ((← code).function f).ret (Machine.fresh.run (← setting) f args).1

/-- Run the function that a draft computes, which returns `result` of type `ty`. -/
def runDraft (d : Draft) (result : InstrId) (ty : TypeId) (span : Span) : Analysis Value := do
  let func := (d.emit (.ret (some result)) .void span).1.func
  match { func with ret := ty, state := .analyzed }.layoutFrame (← types) with
  | (_, some e) => layoutHalt e span
  | (func, none) => outcome ty (Machine.fresh.runFn (← setting) func []).1

/-- The value and type of an expression, converted to the expected type if there is one. -/
def comptimeValue (w : Walk) (scope : ScopeId) (n : NodeId) (expected : Option TypeId) :
    Analysis (Value × TypeId) := do
  let span ← spanOf n
  -- the variables of the surroundings have no values yet
  let inner ← createScope .function scope
  let body : Lower Operand := do
    let op ← w.expr inner n
    match expected with
    | some ty => Lower.coerce op ty
    | none => Lower.rvalue op
  let (op, d) ← body.run (.temporary "<comptime>" span)
  match op.kind with
  | .const v => return (v, op.ty)
  | .instr _ | .place _ =>
    let (result, d) ← (Lower.materialize op).run d
    return (← runDraft d result op.ty span, op.ty)
  | .group _ | .poly _ | .scope _ => typeError span "expected a value"

end Comptime.Analysis
