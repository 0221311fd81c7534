import Comptime.Analysis.Body
import Comptime.Analysis.Expression

/-!
# Tasks of analysis
-/

namespace Comptime.Analysis

/-- The analysis of nodes to a depth. The parts are only computed where they are used. -/
def walk : Nat → Walk
  | 0 =>
    { expr := fun _ _ => tooDeep
      stmt := fun _ _ => tooDeep
      typeExpr := fun _ _ => tooDeep }
  | depth + 1 =>
    { expr := fun scope n => Lower.expression (walk depth) scope n
      stmt := fun scope n => Lower.statement (walk depth) scope n
      typeExpr := fun scope n => typeExpression (walk depth) scope n }
where
  /-- The program is nested beyond all bounds. -/
  tooDeep {m : Type → Type} [MonadExceptOf Halt m] {α : Type} : m α :=
    internal "analysis did not end"

/-! ## Globals -/

/-- The value and type of a global with a plain value. -/
def globalValue (w : Walk) (scope : ScopeId) (n : NodeId) (d : Decl) (span : Span) :
    Analysis (Value × TypeId) := do
  let declared ← w.typeExpr? scope d.ty
  match d.value, declared with
  | some init, _ => comptimeValue w scope init declared
  | none, some ty => return (← zeroValue ty span, ty)
  | none, none => malformed n "declaration without type or value"

/-- Add a global to the code. Constants get one too, for the sake of what reads the code. -/
def addGlobal (g : Global) : Analysis GlobalId :=
  modifyGet fun t =>
    (t.code.globals.nextId, { t with code := { t.code with globals := t.code.globals.push g } })

/-- What the name of a global with a plain value stands for. -/
def globalBinding (d : Decl) (v : Value) (ty : TypeId) (span : Span) : Analysis SymbolValue := do
  match v, d.mutable with
  | .type t, false => return .type t
  | .fn f, false => return .fn f
  | v, mutable =>
    checkStorage ty mutable span
    let g ← addGlobal ⟨d.name, ty, v, mutable, span⟩
    return if mutable then .global g else .const ty v

/-- A function that is declared with a type must have it. -/
def checkFnType (w : Walk) (scope : ScopeId) (d : Decl) (bound : SymbolValue) (span : Span) :
    Analysis Unit := do
  match d.ty, bound with
  | some ty, .fn f =>
    let declared ← w.typeExpr scope ty
    let actual := ((← code).function f).ty
    if declared ≠ actual then mismatch span declared actual
  | _, _ => return

/-- Analyse a global declaration. -/
def analyzeGlobal (w : Walk) (symbol : SymbolId) : Analysis Unit := do
  let s := (← scopes).symbol symbol
  let some n := s.node | internal "global task for a builtin symbol"
  let ⟨kind, span⟩ ← node n
  let .decl d := kind | malformed n "global task on a non-declaration"
  match ← directBinding w s.scope d symbol with
  | some bound =>
    checkFnType w s.scope d bound span
    resolveSymbol symbol bound
  | none =>
    let (v, ty) ← globalValue w s.scope n d span
    resolveSymbol symbol (← globalBinding d v ty span)

/-! ## Tasks -/

/-- The outermost scope of the program. -/
def globalScope : ScopeId := ⟨1⟩

/-- Carry out the running task. -/
def runTask (kind : TaskKind) : Analysis Unit := do
  let c ← read
  let w := walk (c.config.fuel + 8 * c.ast.size)
  match kind with
  | .global symbol => analyzeGlobal w symbol
  | .body f => analyzeBody w f
  | .eval n =>
    let (v, _) ← comptimeValue w globalScope n none
    modify fun t => { t with results := (c.task, v) :: t.results }

end Comptime.Analysis
