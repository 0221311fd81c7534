import Comptime.Operator.Basic
import Comptime.Trap
import Comptime.Type.Conversion
import Comptime.Value.Basic

/-!
# Meaning of the operators

One definition of every operator serves both the folding of constants during analysis and the
machine, so a folded expression and its executed counterpart cannot differ.

Integer arithmetic wraps at the width of the operands, shift amounts are taken modulo the width,
and a division by zero traps. Arithmetic on reals rounds to the width of the operands and never
traps. Conversions from reals to integers go toward zero and stop at the ends of the range.
-/

namespace Comptime

namespace BinaryOp

private def invalid {α : Type} (what : String) : Except TrapKind α :=
  .error (.invalidOperation what)

/-- An operator on two canonical words of an integer type. -/
def onWords (op : BinaryOp) (bits : Nat) (signed : Bool) (a b : UInt64) :
    Except TrapKind UInt64 := do
  let shift := b % UInt64.ofNat bits
  let raw ←
    match op with
    | add => .ok (a + b)
    | sub => .ok (a - b)
    | mul => .ok (a * b)
    | div =>
      if b = 0 then .error .divideByZero
      else .ok (if signed then (a.toInt64 / b.toInt64).toUInt64 else a / b)
    | mod =>
      if b = 0 then .error .divideByZero
      else .ok (if signed then (a.toInt64 % b.toInt64).toUInt64 else a % b)
    | bitAnd => .ok (a &&& b)
    | bitOr => .ok (a ||| b)
    | xor => .ok (a ^^^ b)
    | shl => .ok (a <<< shift)
    | shr => .ok (if signed then (a.toInt64 >>> shift.toInt64).toUInt64 else a >>> shift)
    | logicAnd | logicOr => invalid "logical operator on integers"
    | _ => invalid "comparison routed to arithmetic"
  return Word.canonical raw bits signed

/-- An operator on two truth values. -/
def onBools (op : BinaryOp) (a b : Bool) : Except TrapKind Bool :=
  match op with
  | logicAnd | bitAnd => .ok (a && b)
  | logicOr | bitOr => .ok (a || b)
  | xor => .ok (a != b)
  | _ => invalid "arithmetic on bool"

/-- An operator on two patterns of a real format. -/
def onReals (op : BinaryOp) (f : Binary.Format) (a b : Nat) : Except TrapKind Nat :=
  match op with
  | add => .ok (f.add a b)
  | sub => .ok (f.sub a b)
  | mul => .ok (f.mul a b)
  | div => .ok (f.div a b)
  | mod => .ok (f.rem a b)
  | _ => invalid "bitwise operator on floats"

/-- A comparison of operands that stand in the given order. -/
def onOrdering (op : BinaryOp) (o : Ordering) : Except TrapKind Bool :=
  match op with
  | eq => .ok (o == .eq)
  | neq => .ok (o != .eq)
  | less => .ok (o == .lt)
  | lessEq => .ok (o != .gt)
  | greater => .ok (o == .gt)
  | greaterEq => .ok (o != .lt)
  | _ => invalid "arithmetic routed to comparison"

/-- A comparison of operands of which one is a function or a type. -/
def onReferences (op : BinaryOp) (same : Bool) : Except TrapKind Bool :=
  match op with
  | eq => .ok same
  | neq => .ok (!same)
  | _ => invalid "ordering of functions or types"

/-- Compare two values of type `ty`. Nothing but `!=` holds of unordered reals. -/
def compare (t : TypeTable) (op : BinaryOp) (ty : TypeId) (lhs rhs : Value) :
    Except TrapKind Bool :=
  match lhs, rhs with
  | .int a, .int b =>
    let signed := ((t.intInfo ty).map Prod.snd).getD false
    op.onOrdering (Ord.compare (Word.toInt a signed) (Word.toInt b signed))
  | .ptr a, .ptr b => op.onOrdering (Ord.compare a.toNat b.toNat)
  | .bool a, .bool b => op.onOrdering (Ord.compare a b)
  | .f32 a, .f32 b => ofPartial op (Binary.single.compare a.toNat b.toNat)
  | .f64 a, .f64 b => ofPartial op (Binary.double.compare a.toNat b.toNat)
  | .fn a, .fn b => op.onReferences (a == b)
  | .type a, .type b => op.onReferences (a == b)
  | .fn _, _ | .type _, _ | _, .fn _ | _, .type _ => op.onReferences false
  | _, _ => invalid "comparison of mismatched kinds"
where
  /-- Reals may be unordered. -/
  ofPartial (op : BinaryOp) : Option Ordering → Except TrapKind Bool
    | some o => op.onOrdering o
    | none => .ok (op == .neq)

/-- Apply an operator to two values of type `ty`. -/
def eval (t : TypeTable) (op : BinaryOp) (ty : TypeId) (lhs rhs : Value) :
    Except TrapKind Value :=
  if op.isComparison then (op.compare t ty lhs rhs).map .bool
  else
    match lhs, rhs with
    | .bool a, .bool b => (op.onBools a b).map .bool
    | .int a, .int b =>
      match t.intInfo ty with
      | some (bits, signed) => (op.onWords bits signed a b).map .int
      | none => invalid "integer operation on non-integer type"
    | .f32 a, .f32 b =>
      (op.onReals Binary.single a.toNat b.toNat).map fun w => .f32 (UInt32.ofNat w)
    | .f64 a, .f64 b =>
      (op.onReals Binary.double a.toNat b.toNat).map fun w => .f64 (UInt64.ofNat w)
    | _, _ => invalid "operands of mismatched kinds"

end BinaryOp

/-- Apply an operator to a value of type `ty`. -/
def UnaryOp.eval (t : TypeTable) (op : UnaryOp) (ty : TypeId) (v : Value) :
    Except TrapKind Value :=
  match op, v with
  | .pos, v => .ok v
  | .not, .bool b => .ok (.bool !b)
  | .neg, .f32 w => .ok (.f32 (UInt32.ofNat (Binary.single.negate w.toNat)))
  | .neg, .f64 w => .ok (.f64 (UInt64.ofNat (Binary.double.negate w.toNat)))
  | .neg, .int w => onWord (-w)
  | .bitNot, .int w => onWord (~~~w)
  | _, _ => .error (.invalidOperation "unary operator on unsupported operand")
where
  /-- The result at the width of the type. -/
  onWord (raw : UInt64) : Except TrapKind Value :=
    match t.intInfo ty with
    | some (bits, signed) => .ok (.ofRaw raw bits signed)
    | none => .error (.invalidOperation "integer operation on non-integer type")

namespace CastOp

private def refuse {α : Type} (what : String) : Except TrapKind α :=
  .error (.invalidOperation what)

/-- The integer of type `target` with the given low bits. -/
def toInteger (t : TypeTable) (target : TypeId) (raw : UInt64) : Except TrapKind Value :=
  match t.intInfo target with
  | some (bits, signed) => .ok (.ofRaw raw bits signed)
  | none => refuse "integer conversion to non-integer type"

/-- The integer as which a word is converted to a real, if the cast converts integers. -/
def integerOperand (op : CastOp) : Value → Option Int
  | .int w =>
    match op with
    | siToFp => some (Word.toInt w true)
    | uiToFp => some (Word.toInt w false)
    | _ => none
  | _ => none

/-- Convert to a real type, in one rounding. -/
def toReal (t : TypeTable) (op : CastOp) (target : TypeId) (v : Value) : Except TrapKind Value := do
  let (narrow, wide) ←
    match op.integerOperand v, v.asReal with
    | some n, _ => .ok (Binary.single.ofInt n, Binary.double.ofInt n)
    | none, some w => .ok (Binary.double.convert Binary.single w.toNat, w.toNat)
    | none, none => refuse "float conversion of non-float"
  match t.kind target with
  | .real 32 => return .f32 (UInt32.ofNat narrow)
  | .real _ => return .f64 (UInt64.ofNat wide)
  | _ => refuse "float conversion to non-float type"

/-- Apply a cast that gives a value of type `target`. -/
def eval (t : TypeTable) (op : CastOp) (target : TypeId) (v : Value) : Except TrapKind Value :=
  match op with
  | keep => .ok v
  | bitcast => if t.isPtr target then .ok (.ptr (v.asBits.getD 0)) else word
  | sext | zext | trunc | ptrToInt => word
  | intToPtr => .ok (.ptr (v.asBits.getD 0))
  | intToBool | ptrToBool => .ok (.bool (v.asBits.getD 0 != 0))
  | fpExt | fpTrunc | siToFp | uiToFp => op.toReal t target v
  | fpToSi | fpToUi =>
    match v.asReal, t.intInfo target with
    | none, _ => refuse "float conversion of non-float"
    | some _, none => refuse "integer conversion to non-integer type"
    | some w, some (bits, signed) =>
      let (low, high) := Word.range bits signed
      .ok (.ofRaw (Word.ofInt (Binary.double.truncate low high w.toNat)) bits signed)
where
  /-- The word of the operand at the width of the target. -/
  word : Except TrapKind Value :=
    match v.asBits with
    | some raw => toInteger t target raw
    | none => refuse "integer conversion of non-integer"

end CastOp

end Comptime
