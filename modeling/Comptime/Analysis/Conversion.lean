import Comptime.Analysis.Operand
import Comptime.Operator.Eval

/-!
# Conversions of operands

A number written in the program takes the type that is expected of it, if it fits. Any other value
is converted only where no value can be lost, unless the program asks for a cast.
-/

namespace Comptime

namespace TypeTable

/-- The integer that a word of a type stands for. -/
def exact (t : TypeTable) (ty : TypeId) (w : UInt64) : Int :=
  Word.toInt w (((t.intInfo ty).map Prod.snd).getD false)

/-- Width and signedness of an integer type that is no enum. -/
def plainInt (t : TypeTable) (ty : TypeId) : Option (Nat × Bool) :=
  if t.isInt ty then t.intInfo ty else none

end TypeTable

/-- Whether an integer lies in the range of a width. -/
def Word.inRange (n : Int) (bits : Nat) (signed : Bool) : Bool :=
  let (low, high) := Word.range bits signed
  low ≤ n && n ≤ high

namespace Lower

/-- Give a number the expected type. Nothing is the answer where the expected type is not one of
numbers or where a real meets an integer type. -/
def adapt (op : Operand) (target : TypeId) : Lower (Option Operand) := do
  let t ← Analysis.types
  let targetInt := t.plainInt target
  if (targetInt.isNone && !t.isReal target) || (targetInt.isSome && !t.isInt op.ty) then
    return none
  match op.kind, targetInt with
  | .const (.int w), some (bits, signed) =>
    let n := t.exact op.ty w
    if Word.inRange n bits signed then
      return some (.number (.ofRaw (Word.ofInt n) bits signed) target op.span)
    Analysis.typeError op.span
      ("literal `" ++ toString n ++ "` does not fit in " ++ (← Analysis.quoted target))
  | .const v, none =>
    match v, t.castOp op.ty target with
    | .int _, some cast | .f32 _, some cast | .f64 _, some cast =>
      return some (.number (← Analysis.orTrapAt op.span (cast.eval t target v)) target op.span)
    | _, _ => return none
  | .instr id, _ =>
    match t.castOp op.ty target with
    | some cast => return some (.instr (← emit (.cast cast id) target op.span) target op.span)
    | none => return none
  | _, _ => return none

def convert (op : Operand) (cast : CastOp) (target : TypeId) : Lower Operand := do
  match op.kind, ← Analysis.folding with
  | .const v, true =>
    let v ← Analysis.orTrapAt op.span (cast.eval (← Analysis.types) target v)
    return .constant v target op.span
  | _, _ =>
    let operand ← materialize op
    return .instr (← emit (.cast cast operand) target op.span) target op.span

/-- Convert a value where no value can be lost. -/
def widen (op : Operand) (target : TypeId) : Lower Operand := do
  let t ← Analysis.types
  if (t.conversionRank op.ty target).isNone then Analysis.mismatch op.span target op.ty
  match t.castOp op.ty target with
  | some cast => convert op cast target
  | none => Analysis.internal "implicit conversion without a machine cast"

/-- Convert a value without being asked to. -/
def coerceValue (op : Operand) (target : TypeId) : Lower Operand := do
  if op.ty = target then return op
  if op.literal then
    if let some adapted ← adapt op target then return adapted
  widen op target

/-- Convert an operand to the expected type. -/
def coerce (op : Operand) (target : TypeId) : Lower Operand := do
  let op ← rvalue op
  match op.kind with
  | .group members =>
    let c ← Analysis.code
    match members.find? fun f => (c.function f).ty = target with
    | some f => return .constant (.fn f) target op.span
    | none =>
      Analysis.typeError op.span
        ("no function of the group has type " ++ (← Analysis.quoted target))
  | .poly _ => Analysis.typeError op.span "polymorphic functions cannot be used as values"
  | .scope _ => Analysis.typeError op.span "expected a value, found a scope"
  | _ => coerceValue op target

/-- Convert an operand because the program asks for it. -/
def castTo (op : Operand) (target : TypeId) (span : Span) : Lower Operand := do
  let op ← rvalue op
  match (← Analysis.types).castOp op.ty target with
  | some cast => return { ← convert op cast target with span }
  | none =>
    Analysis.typeError span
      ("cannot cast " ++ (← Analysis.quoted op.ty) ++ " to " ++ (← Analysis.quoted target))

end Lower

end Comptime
