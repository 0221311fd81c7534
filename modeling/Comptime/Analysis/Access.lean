import Comptime.Analysis.Conversion
import Comptime.Analysis.Walk

/-!
# Names, members and elements
-/

namespace Comptime.Lower

/-! ## Names -/

/-- What a symbol stands for, as an operand. -/
def symbolOperand (found : Found) (span : Span) : Lower Operand := do
  let symbol := (← Analysis.scopes).symbol found.symbol
  match symbol.state with
  | .unresolved (some task) => throw (.postpone task)
  | .unresolved none =>
    Analysis.resolutionError span ("`" ++ symbol.name ++ "` is used before its declaration")
  | .failed => throw .silent
  | .resolved value =>
    match value with
    | .const ty v => return .constant v ty span
    | .type ty => return .constant (.type ty) .type span
    | .fn f => Analysis.fnOperand f span
    | .group members => return .special (.group members) span
    | .poly recipe => return .special (.poly recipe) span
    | .scope id => return .special (.scope id) span
    | .global g =>
      let global := (← Analysis.code).global g
      let ptr ← emit (.globalPtr g) (← Analysis.ptrTo global.ty) span
      return .place ptr global.ty span global.mutable
    | .slot s ty =>
      if found.crossedFn then
        Analysis.resolutionError span ("`" ++ symbol.name ++
          "` is a local of an enclosing function and cannot be used here")
      let ptr ← emit (.slotPtr s) (← Analysis.ptrTo ty) span
      return .place ptr ty span symbol.mutable

def ident (scope : ScopeId) (name : String) (span : Span) : Lower Operand := do
  match (← Analysis.scopes).lookup scope name with
  | some found => symbolOperand found span
  | none => Analysis.resolutionError span ("unknown symbol `" ++ name ++ "`")

/-! ## Members -/

/-- A member of a struct or slice, by its position. -/
def project (base : Operand) (index : Nat) (ty : TypeId) (span : Span) : Lower Operand := do
  match base.kind with
  | .const (.agg items) =>
    match items[index]? with
    | some item => return .constant item ty span
    | none => Analysis.internal "aggregate constant is missing a member"
  | _ =>
    let (ptr, mutable) ← addressOf base
    let id ← emit (.memberPtr ptr index) (← Analysis.ptrTo ty) span
    return .place id ty span mutable

def enumVariant (ty : TypeId) (name : String) (span : Span) : Analysis Operand := do
  let t ← Analysis.types
  match t.kind ty with
  | .enum id =>
    let d := t.enumDef id
    match d.variants with
    | some variants =>
      match variants.lookup name with
      | some value => return .constant (.int value) ty span
      | none =>
        Analysis.typeError span ("enum `" ++ d.name ++ "` has no variant `" ++ name ++ "`")
    | none => Analysis.internal ("enum `" ++ d.name ++ "` used before completion")
  | _ => Analysis.typeError span ("type " ++ (← Analysis.quoted ty) ++ " has no members")

/-- Follow a pointer to a type that satisfies `p`; any other operand stays as it is. -/
def follow (p : TypeKind → Bool) (base : Operand) (span : Span) : Lower Operand := do
  let t ← Analysis.types
  match t.pointee base.ty with
  | some inner =>
    if p (t.kind inner) then return .place (← materialize base) inner span true else return base
  | none => return base

/-- Whether a type has members that are reached through pointers. -/
def hasMembers : TypeKind → Bool
  | .struct _ | .slice _ | .array _ _ => true
  | _ => false

def isArray : TypeKind → Bool
  | .array _ _ => true
  | _ => false

def valueMember (base : Operand) (name : String) (span : Span) : Lower Operand := do
  let base ← follow hasMembers base span
  let t ← Analysis.types
  match t.kind base.ty with
  | .struct id =>
    match (t.structDef id).members with
    | some members =>
      match members.findIdx? (·.name == name), members.find? (·.name == name) with
      | some index, some m => project base index m.ty span
      | _, _ =>
        Analysis.typeError span
          ("struct " ++ (← Analysis.quoted base.ty) ++ " has no member `" ++ name ++ "`")
    | none => Analysis.layoutHalt (.incomplete id) span
  | .slice elem =>
    if name = "len" then project base 0 .s64 span
    else if name = "ptr" then project base 1 (← Analysis.ptrTo elem) span
    else Analysis.typeError span ("slices have no member `" ++ name ++ "`")
  | kind =>
    match kind, name with
    | .array _ len, "len" => return .constant (.int len) .s64 span
    | _, _ =>
      Analysis.typeError span
        ("type " ++ (← Analysis.quoted base.ty) ++ " has no member `" ++ name ++ "`")

/-- A member of a scope, an enum or a value. -/
def member (w : Walk) (scope : ScopeId) (base : NodeId) (name : String) (span : Span) :
    Lower Operand := do
  let base ← w.expr scope base
  match base.kind, base.ty with
  | .scope id, _ =>
    match (← Analysis.scopes).lookupHere id name with
    | some found => symbolOperand found span
    | none => Analysis.resolutionError span ("scope has no member `" ++ name ++ "`")
  | .const (.type ty), .type => enumVariant ty name span
  | _, _ => valueMember base name span

/-! ## Elements -/

/-- The type of the elements of an operand and what is known of their number. -/
def elements (base : Operand) (span : Span) : Lower (TypeId × Bound) := do
  match (← Analysis.types).kind base.ty with
  | .array elem len => return (elem, .array len)
  | .slice elem => return (elem, .slice)
  | .ptr elem => return (elem, .unchecked)
  | _ => Analysis.typeError span ("type " ++ (← Analysis.quoted base.ty) ++ " cannot be indexed")

/-- An element of a constant array at a constant index, if both are constants. -/
def foldIndex (base index : Operand) (elem : TypeId) (bound : Bound) (span : Span) :
    Lower (Option Operand) := do
  match base.kind, index.const?.bind Value.asSigned, bound, ← Analysis.folding with
  | .const (.agg items), some i, .array len, true =>
    if i < 0 || len ≤ i.toUInt64 then Analysis.trapAt (.outOfBounds i.toInt len.toNat) span
    return some (.constant (items.getD i.toInt.toNat .void) elem span)
  | _, _, _, _ => return none

/-- The address from which the elements of an operand are counted, and whether they may be assigned
to. -/
def elementBase (base : Operand) : Bound → Lower (InstrId × Bool)
  | .unchecked => return (← materialize base, true)
  | .slice => return ((← addressOf base).1, true)
  | .array _ => addressOf base

/-- An element of an array, a slice or behind a pointer. -/
def index (w : Walk) (scope : ScopeId) (base index : NodeId) (span : Span) : Lower Operand := do
  let base ← w.expr scope base
  let index ← w.value scope index
  unless (← Analysis.types).isInt index.ty do
    Analysis.typeError index.span
      ("index must be an integer, found " ++ (← Analysis.quoted index.ty))
  let base ← follow isArray base span
  let (elem, bound) ← elements base span
  if let some op ← foldIndex base index elem bound span then return op
  let (ptr, mutable) ← elementBase base bound
  let index ← materialize index
  let id ← emit (.elemPtr ptr index bound) (← Analysis.ptrTo elem) span
  return .place id elem span mutable

end Comptime.Lower
