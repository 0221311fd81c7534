import Comptime.Analysis.Evaluation

/-!
# Structs, enums and type expressions

A struct or enum is declared once for each function in whose body its node is met. A struct is bound
to its name before its members are analysed, so that it can point to itself.
-/

namespace Comptime.Analysis

/-- The length of an array type. -/
def arrayLength (w : Walk) (scope : ScopeId) (n : NodeId) : Analysis UInt64 := do
  let (v, ty) ← comptimeValue w scope n none
  match v, (← types).intInfo ty with
  | .int raw, some (_, signed) =>
    if signed && raw.toInt64 < 0 then refuse else return raw
  | _, _ => refuse
where
  refuse : Analysis UInt64 := do
    typeError (← spanOf n) "array length must be a non-negative integer constant"

/-! ## Declaring -/

/-- Note which type a node stands for. -/
def rememberNominal (key : Occurrence) (ty : TypeId) : Analysis TypeId := do
  modify fun t => { t with nominals := (key, ty) :: t.nominals }
  return ty

/-- Declare a struct, which the running task will complete. -/
def declareStruct (key : Occurrence) (name : String) (span : Span) : Analysis TypeId := do
  let task := (← read).task
  let ty ← modifyGet fun t =>
    let (types, id, ty) := t.types.declareStruct name span
    (ty, { t with types, structTasks := (id, task) :: t.structTasks })
  rememberNominal key ty

def declareEnum (w : Walk) (scope : ScopeId) (key : Occurrence) (base : Option NodeId)
    (name : String) (span : Span) : Analysis TypeId := do
  let base := (← w.typeExpr? scope base).getD .s32
  unless (← types).isInt base do
    typeError span ("enum base type must be an integer, found " ++ (← quoted base))
  let ty ← modifyGet fun t =>
    let (types, _, ty) := t.types.declareEnum name base span
    (ty, { t with types })
  rememberNominal key ty

/-! ## Completing -/

/-- The members of a struct, of which those before are known. -/
def structMembers (w : Walk) (scope : ScopeId) : List Member → List Field → Analysis (List Member)
  | known, [] => return known
  | known, m :: rest => do
    if known.any (·.name == m.name) then
      resolutionError m.span ("duplicate member `" ++ m.name ++ "`")
    let ty ← w.typeExpr scope m.ty
    structMembers w scope (known ++ [⟨m.name, ty⟩]) rest

/-- Halt if a type has no layout, whatever may still be completed. -/
def checkLayout (ty : TypeId) (span : Span) : Analysis Unit := do
  match (← types).layout ty with
  | .ok _ | .error (.incomplete _) => return
  | .error e => layoutHalt e span

/-- Enter the members of a struct. That it has a layout is checked as far as its parts are
complete. -/
def enterMembers (id : StructId) (ty : TypeId) (members : List Member) (span : Span) :
    Analysis Unit := do
  modify fun t => { t with types := t.types.completeStruct id members }
  checkLayout ty span

def completeStruct (w : Walk) (scope : ScopeId) (id : StructId) (ty : TypeId) (members : List Field)
    (span : Span) : Analysis Unit := do
  enterMembers id ty (← structMembers w scope [] members) span

/-- The value of a variant of an enum over `base`; one without a value is `next`. -/
def variantValue (w : Walk) (scope : ScopeId) (base : TypeId) (next : UInt64) (v : Variant) :
    Analysis UInt64 := do
  match v.value with
  | some n =>
    match (← comptimeValue w scope n (some base)).1 with
    | .int raw => return raw
    | _ => typeError v.span "enum variant value must be an integer"
  | none => return next

/-- The variants of an enum, of which those before are known; one without a value is `next`. -/
def enumVariants (w : Walk) (scope : ScopeId) (base : TypeId) :
    List (String × UInt64) → UInt64 → List Variant → Analysis (List (String × UInt64))
  | known, _, [] => return known
  | known, next, v :: rest => do
    if known.any (·.1 == v.name) then
      resolutionError v.span ("duplicate variant `" ++ v.name ++ "`")
    let value ← variantValue w scope base next v
    let (bits, signed) := ((← types).intInfo base).getD (64, true)
    enumVariants w scope base (known ++ [(v.name, value)]) (Word.canonical (value + 1) bits signed)
      rest

def completeEnum (w : Walk) (scope : ScopeId) (id : EnumId) (variants : List Variant) :
    Analysis Unit := do
  let variants ← enumVariants w scope ((← types).enumDef id).base [] 0 variants
  modify fun t => { t with types := t.types.completeEnum id variants }

/-! ## Structs and enums at nodes -/

/-- The struct or enum that a node stands for, which is declared if it has not been. -/
def declaredNominal (w : Walk) (scope : ScopeId) (n : NodeId) (name : String) :
    Analysis TypeId := do
  let ⟨kind, span⟩ ← node n
  let key : Occurrence := (n, (← read).owner)
  match (← get).nominals.lookup key, kind with
  | some ty, _ => return ty
  | none, .structType _ => declareStruct key name span
  | none, .enumType base _ => declareEnum w scope key base name span
  | none, _ => malformed n "expected a struct or enum type"

/-- Bind a struct to its name. -/
def bindStruct (symbol : Option SymbolId) (ty : TypeId) : Analysis Unit := do
  match symbol, (← types).kind ty with
  | some symbol, .struct _ => resolveSymbol symbol (.type ty)
  | _, _ => return

/-- Complete a struct or enum if it is not complete. -/
def completeNominal (w : Walk) (scope : ScopeId) (n : NodeId) (ty : TypeId) : Analysis Unit := do
  let ⟨kind, span⟩ ← node n
  let t ← types
  match t.kind ty, kind with
  | .struct id, .structType members =>
    if (t.structDef id).members.isNone then completeStruct w scope id ty members span
  | .enum id, .enumType _ variants =>
    if (t.enumDef id).variants.isNone then completeEnum w scope id variants
  | _, _ => return

/-- The struct or enum that a node stands for. A struct is bound to `symbol` at once, an enum by the
caller once its variants are known. -/
def nominalType (w : Walk) (scope : ScopeId) (n : NodeId) (name : String)
    (symbol : Option SymbolId) : Analysis TypeId := do
  let ty ← declaredNominal w scope n name
  bindStruct symbol ty
  completeNominal w scope n ty
  return ty

/-! ## Type expressions -/

/-- Parameters and result of a function type. -/
def fnType (w : Walk) (scope : ScopeId) (sig : Signature) : Analysis TypeId := do
  let params ← sig.params.mapM fun p => w.typeExpr scope p.ty
  let ret := (← w.typeExpr? scope sig.ret).getD .void
  intern (.fn params ret)

/-- The type bound to a type parameter. -/
def polyType (scope : ScopeId) (name : String) (span : Span) : Analysis TypeId := do
  let g ← scopes
  match (g.lookup scope name).bind fun found => (g.symbol found.symbol).value? with
  | some (.type ty) => return ty
  | _ => typeError span ("polymorphic type `?" ++ name ++ "` is not bound here")

/-- The type that a type expression stands for. -/
def typeExpression (w : Walk) (scope : ScopeId) (n : NodeId) : Analysis TypeId := do
  let ⟨kind, span⟩ ← node n
  match kind with
  | .ptrType inner => intern (.ptr (← w.typeExpr scope inner))
  | .sliceType inner => intern (.slice (← w.typeExpr scope inner))
  | .arrayType len elem =>
    let len ← arrayLength w scope len
    intern (.array (← w.typeExpr scope elem) len)
  | .fnType sig => fnType w scope sig
  | .structType _ | .enumType _ _ => nominalType w scope n "<anonymous>" none
  | .polyType name => polyType scope name span
  | _ =>
    match ← comptimeValue w scope n none with
    | (.type ty, .type) => return ty
    | (_, ty) => typeError span ("expected a type, found a value of type " ++ (← quoted ty))

end Comptime.Analysis
