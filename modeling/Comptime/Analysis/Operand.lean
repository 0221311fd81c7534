import Comptime.Analysis.Draft

/-!
# Operands

The analysed form of an expression: a constant, the result of an instruction, a place in memory, or
one of the things that are no values (overloaded and polymorphic functions, scopes).
-/

namespace Comptime

/-- The forms of operands. -/
inductive OperandKind where
  | const (value : Value)
  /-- The result of an instruction. -/
  | instr (id : InstrId)
  /-- A place in memory, by the instruction that computes its address. -/
  | place (ptr : InstrId)
  | group (members : List FnId)
  | poly (recipe : RecipeId)
  | scope (id : ScopeId)
deriving Repr

/-- The analysed form of an expression. -/
structure Operand where
  kind : OperandKind
  /-- The type of the value; of a place, the type of the value in it. -/
  ty : TypeId
  span : Span
  /-- The place may be assigned to. -/
  mutable : Bool
  /-- A number that may still take another type. -/
  literal : Bool
deriving Repr

namespace Operand

def constant (value : Value) (ty : TypeId) (span : Span) : Operand :=
  ⟨.const value, ty, span, false, false⟩

/-- A number that may still take another type. -/
def number (value : Value) (ty : TypeId) (span : Span) : Operand :=
  ⟨.const value, ty, span, false, true⟩

/-- The result of an instruction. -/
def instr (id : InstrId) (ty : TypeId) (span : Span) : Operand :=
  ⟨.instr id, ty, span, false, false⟩

/-- A place in memory. -/
def place (ptr : InstrId) (ty : TypeId) (span : Span) (mutable : Bool) : Operand :=
  ⟨.place ptr, ty, span, mutable, false⟩

/-- Something that is no value. -/
def special (kind : OperandKind) (span : Span) : Operand := ⟨kind, .void, span, false, false⟩

def const? (op : Operand) : Option Value :=
  match op.kind with
  | .const v => some v
  | _ => none

end Operand

namespace Lower

/-- Read a place; any other operand stays as it is. -/
def rvalue (op : Operand) : Lower Operand := do
  match op.kind with
  | .place ptr => return .instr (← emit (.load ptr) op.ty op.span) op.ty op.span
  | _ => return op

/-- The instruction that computes the value of an operand. -/
def materialize (op : Operand) : Lower InstrId := do
  let op ← rvalue op
  match op.kind with
  | .const v => emit (.const v) op.ty op.span
  | .instr id => return id
  | .place _ => Analysis.internal "place survived rvalue conversion"
  | .group _ | .poly _ | .scope _ => Analysis.typeError op.span "expected a value"

/-- The address of an operand and whether it may be assigned to. A value that is in no place is put
into a new variable. -/
def addressOf (op : Operand) : Lower (InstrId × Bool) := do
  match op.kind with
  | .place ptr => return (ptr, op.mutable)
  | _ =>
    let _ ← Analysis.layoutOf op.ty op.span
    let value ← materialize op
    let slot ← addSlot "tmp" op.ty op.span
    let ptr ← emit (.slotPtr slot) (← Analysis.ptrTo op.ty) op.span
    let _ ← emit (.store ptr value) .void op.span
    return (ptr, false)

end Lower

namespace Analysis

/-- A function as a value. -/
def fnOperand (f : FnId) (span : Span) : Analysis Operand :=
  return .constant (.fn f) (← functionOf f).ty span

end Analysis

end Comptime
