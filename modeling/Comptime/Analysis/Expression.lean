import Comptime.Analysis.Access
import Comptime.Analysis.Call
import Comptime.Analysis.Nominal
import Comptime.Analysis.Operation

/-!
# Expressions
-/

namespace Comptime.Lower

/-- An integer as it is written: of the least signed type that holds it, from 32 bits on. -/
def intLiteral (value : UInt64) (span : Span) : Operand :=
  let ty :=
    if value.toNat < 0x80000000 then TypeId.s32
    else if value.toNat < 0x8000000000000000 then TypeId.s64
    else TypeId.u64
  .number (.int value) ty span

/-- The type that a node names, or the type of its value. -/
def typeOf (w : Walk) (scope : ScopeId) (n : NodeId) : Analysis TypeId := do
  let op ← aside (.scratch (← Analysis.spanOf n)) (w.expr scope n)
  match op.kind, op.ty with
  | .const (.type ty), .type => return ty
  | _, ty => return ty

/-- The layout of what a node names or computes. -/
def layoutOfNode (w : Walk) (scope : ScopeId) (n : NodeId) (span : Span) : Analysis Layout := do
  Analysis.layoutOf (← typeOf w scope n) span

/-- A size or an alignment. -/
def sizeLiteral (n : Nat) (span : Span) : Operand := .number (.int (UInt64.ofNat n)) .usize span

def addressOfPlace (op : Operand) (span : Span) : Lower Operand := do
  match op.kind with
  | .place ptr => return .instr ptr (← Analysis.ptrTo op.ty) span
  | _ => Analysis.typeError span "cannot take the address of a temporary value"

/-- The place that a pointer points to. -/
def dereference (op : Operand) (span : Span) : Lower Operand := do
  match (← Analysis.types).pointee op.ty with
  | some target => return .place (← materialize op) target span true
  | none =>
    Analysis.typeError span ("cannot dereference a value of type " ++ (← Analysis.quoted op.ty))

/-! ## Compound values -/

/-- The types of the values from which a compound is made, if there are more than one. -/
def compoundTypes (ty : TypeId) (count : Nat) (span : Span) :
    Lower (Option (Nat × List TypeId)) := do
  let t ← Analysis.types
  match t.kind ty with
  | .struct id =>
    match (t.structDef id).members with
    | some members => return some (members.length, members.map Member.ty)
    | none => Analysis.layoutHalt (.incomplete id) span
  | .array elem len => return some (len.toNat, List.replicate count elem)
  | .slice elem => return some (2, [.s64, ← Analysis.ptrTo elem])
  | _ => return none

/-- Put operands together to a value of a type. -/
def assemble (ops : List Operand) (ty : TypeId) (span : Span) : Lower Operand := do
  match ops.mapM Operand.const? with
  | some items => return .constant (.agg items) ty span
  | none =>
    let ids ← ops.mapM materialize
    return .instr (← emit (.compound ids) ty span) ty span

/-- A value made from its parts; without parts it is zero. -/
def compound (w : Walk) (scope : ScopeId) (ty : NodeId) (values : List NodeId) (span : Span) :
    Lower Operand := do
  let ty ← w.typeExpr scope ty
  if values.isEmpty then return .constant (← Analysis.zeroValue ty span) ty span
  match ← compoundTypes ty values.length span, values with
  | some (expected, targets), _ =>
    if expected ≠ values.length then
      Analysis.typeError span ((← Analysis.quoted ty) ++ " expects " ++ toString expected ++
        " initializer value(s), found " ++ toString values.length)
    let _ ← Analysis.valueLayout ty span
    let ops ← (values.zip targets).mapM fun (value, target) => do
      coerce (← w.expr scope value) target
    assemble ops ty span
  | none, [value] => return { ← coerce (← w.expr scope value) ty with span }
  | none, _ =>
    Analysis.typeError span ("type " ++ (← Analysis.quoted ty) ++ " has no compound initializer")

/-! ## All expressions -/

def expression (w : Walk) (scope : ScopeId) (n : NodeId) : Lower Operand := do
  let ⟨kind, span⟩ ← Analysis.node n
  match kind with
  | .intLit value => return intLiteral value span
  | .realLit bits => return .number (.f64 bits) .f64 span
  | .boolLit b => return .constant (.bool b) .bool span
  | .nullLit => return .constant (.ptr 0) .null span
  | .ident name => ident scope name span
  | .binary op lhs rhs =>
    if op.isLogic then logic w scope op lhs rhs span
    else
      let lhs ← w.value scope lhs
      let rhs ← w.value scope rhs
      binary op lhs rhs span
  | .unary op operand => unary op (← w.expr scope operand) span
  | .cast ty operand =>
    let target ← w.typeExpr scope ty
    castTo (← w.expr scope operand) target span
  | .call callee args => call w scope callee args span
  | .member base name => member w scope base name span
  | .index base i => index w scope base i span
  | .addrOf inner => addressOfPlace (← w.expr scope inner) span
  | .deref inner => dereference (← w.value scope inner) span
  | .compound ty values => compound w scope ty values span
  | .sizeOf inner => return sizeLiteral (← layoutOfNode w scope inner span).size span
  | .alignOf inner => return sizeLiteral (← layoutOfNode w scope inner span).align span
  | .fnLit _ =>
    match ← Analysis.bindFnLiteral w scope n "<anonymous>" with
    | .inl f => Analysis.fnOperand f span
    | .inr recipe => return .special (.poly recipe) span
  | .fnGroup members =>
    return .special (.group (← Analysis.fnGroup w scope n "<group>" members)) span
  | .comptime inner =>
    let (v, ty) ← Analysis.comptimeValue w scope inner none
    return .constant v ty span
  | .ptrType _ | .arrayType _ _ | .sliceType _ | .fnType _ | .structType _ | .enumType _ _
  | .polyType _ => return .constant (.type (← w.typeExpr scope n)) .type span
  | _ => Analysis.malformed n "expected an expression"

end Comptime.Lower
