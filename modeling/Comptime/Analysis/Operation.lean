import Comptime.Analysis.Conversion
import Comptime.Analysis.Walk

/-!
# Operators in expressions

Both operands of an operator take one type. Where both are constants, the operator is computed at
once, unless folding is turned off.
-/

namespace Comptime

namespace TypeTable

/-- Whether an operator applies to two operands of a type. -/
def allowsBinary (t : TypeTable) (op : BinaryOp) (ty : TypeId) : Bool :=
  let ordered := t.isNumeric ty || t.isPtr ty || (t.intInfo ty).isSome
  match op with
  | .add | .sub | .mul | .div | .mod => t.isNumeric ty
  | .bitAnd | .bitOr | .xor => t.isInt ty || ty = .bool
  | .shl | .shr => t.isInt ty
  | .eq | .neq =>
    ordered ||
      match t.kind ty with
      | .bool | .null | .fn _ _ | .type => true
      | _ => false
  | .less | .lessEq | .greater | .greaterEq => ordered
  | .logicAnd | .logicOr => ty = .bool

/-- Whether an operator applies to an operand of a type. -/
def allowsUnary (t : TypeTable) (op : UnaryOp) (ty : TypeId) : Bool :=
  match op with
  | .neg | .pos => t.isNumeric ty
  | .not => ty = .bool
  | .bitNot => t.isInt ty

/-- The type that two operands take. An integer and a real, both written as numbers, meet in the
64-bit reals. -/
def meetingType (t : TypeTable) (lhs rhs : Operand) : Option TypeId :=
  match t.commonType lhs.ty rhs.ty with
  | some ty => some ty
  | none =>
    if lhs.literal && rhs.literal && (t.isReal lhs.ty || t.isReal rhs.ty) then some .f64 else none

end TypeTable

namespace Lower

/-- Give two operands one type. -/
def unifyOperands (op : BinaryOp) (lhs rhs : Operand) (span : Span) :
    Lower (Operand × Operand) := do
  match lhs.literal, rhs.literal with
  | true, false => return (← coerce lhs rhs.ty, rhs)
  | false, true => return (lhs, ← coerce rhs lhs.ty)
  | _, _ =>
    match (← Analysis.types).meetingType lhs rhs with
    | some ty =>
      let lhs ← coerce lhs ty
      return (lhs, ← coerce rhs ty)
    | none =>
      if lhs.literal && rhs.literal then
        -- the one that fits the type of the other takes it
        tryCatch (do return (lhs, ← coerce rhs lhs.ty)) fun _ => do return (← coerce lhs rhs.ty, rhs)
      else
        Analysis.typeError span ("invalid operands " ++ (← Analysis.quoted lhs.ty) ++ " and " ++
          (← Analysis.quoted rhs.ty) ++ " for `" ++ op.symbol ++ "`")

/-- Apply an operator to two operands that have been read. -/
def binary (op : BinaryOp) (lhs rhs : Operand) (span : Span) : Lower Operand := do
  let (lhs, rhs) ← unifyOperands op lhs rhs span
  let t ← Analysis.types
  unless t.allowsBinary op lhs.ty do
    Analysis.typeError span
      ("operator `" ++ op.symbol ++ "` cannot be applied to " ++ (← Analysis.quoted lhs.ty))
  let ty := if op.isComparison then TypeId.bool else lhs.ty
  let literal := lhs.literal && rhs.literal && !op.isComparison
  match lhs.const?, rhs.const?, ← Analysis.folding with
  | some a, some b, true =>
    let v ← Analysis.orTrapAt span (op.eval t lhs.ty a b)
    return { Operand.constant v ty span with literal }
  | _, _, _ =>
    let a ← materialize lhs
    let b ← materialize rhs
    return { Operand.instr (← emit (.binary op a b) ty span) ty span with literal }

/-- Apply an operator to an operand. -/
def unary (op : UnaryOp) (operand : Operand) (span : Span) : Lower Operand := do
  let operand ← rvalue operand
  let ty := operand.ty
  let literal := operand.literal
  let t ← Analysis.types
  unless t.allowsUnary op ty do
    Analysis.typeError span
      ("operator `" ++ op.symbol ++ "` cannot be applied to " ++ (← Analysis.quoted ty))
  match operand.const?, ← Analysis.folding with
  | some a, true =>
    let v ← Analysis.orTrapAt span (op.eval t ty a)
    return { Operand.constant v ty span with literal }
  | _, _ =>
    let a ← materialize operand
    return { Operand.instr (← emit (.unary op a) ty span) ty span with literal }

/-- A truth value. -/
def boolean (w : Walk) (scope : ScopeId) (n : NodeId) : Lower Operand := do
  coerce (← w.expr scope n) .bool

/-- Apply `&&` or `||` to operands of which the left is no constant: the right one is executed only
if the left one leaves the result open. -/
def branchLogic (w : Walk) (scope : ScopeId) (decided : Bool) (lhs : Operand) (rhs : NodeId)
    (span : Span) : Lower Operand := do
  let cond ← materialize lhs
  let lhsBlock := (← get).current
  let rhsBlock ← addBlock "logic.rhs"
  let stop ← addBlock "logic.end"
  if decided then branch cond stop rhsBlock span else branch cond rhsBlock stop span
  moveTo rhsBlock
  let rhs ← materialize (← boolean w scope rhs)
  let rhsEnd := (← get).current
  jump stop span
  moveTo stop
  let id ← emit (.phi [(lhsBlock, cond), (rhsEnd, rhs)]) .bool span
  return .instr id .bool span

/-- Apply `&&` or `||`. -/
def logic (w : Walk) (scope : ScopeId) (op : BinaryOp) (lhs rhs : NodeId) (span : Span) :
    Lower Operand := do
  let lhs ← boolean w scope lhs
  -- the value of the left operand that settles the result
  let decided := op == .logicOr
  match lhs.const?, ← Analysis.folding with
  | some (.bool b), true =>
    if b == decided then
      -- the right operand is checked only
      let _ ← aside (.scratch span) (boolean w scope rhs)
      return .constant (.bool decided) .bool span
    else
      return { ← boolean w scope rhs with span }
  | _, _ => branchLogic w scope decided lhs rhs span

end Lower

end Comptime
