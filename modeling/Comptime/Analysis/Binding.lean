import Comptime.Analysis.Nominal
import Comptime.Analysis.Overload

/-!
# Names for functions and types

A declaration whose value is a function, a group or a new type binds the name to it directly.
-/

namespace Comptime

/-- Whether a value is bound to a name directly. -/
def NodeKind.bindsDirectly : NodeKind → Bool
  | .fnLit _ | .fnGroup _ | .structType _ | .enumType _ _ => true
  | _ => false

namespace Analysis

/-- What a node binds the name of its declaration to, or nothing if it is a plain value. -/
def boundTo (w : Walk) (scope : ScopeId) (name : String) (symbol : SymbolId) (init : NodeId) :
    Analysis (Option SymbolValue) := do
  match (← node init).kind with
  | .fnLit _ =>
    match ← bindFnLiteral w scope init name with
    | .inl f => return some (.fn f)
    | .inr recipe => return some (.poly recipe)
  | .fnGroup members => return some (.group (← fnGroup w scope init name members))
  | .structType _ | .enumType _ _ =>
    return some (.type (← nominalType w scope init name (some symbol)))
  | _ => return none

/-- What a declaration binds its name to, or nothing if it has a plain value. -/
def directBinding (w : Walk) (scope : ScopeId) (d : Decl) (symbol : SymbolId) :
    Analysis (Option SymbolValue) := do
  let some init := d.value | return none
  let bound ← boundTo w scope d.name symbol init
  if bound.isSome && d.mutable then
    typeError (← spanOf init) ("`" ++ d.name ++ "` must be immutable")
  return bound

end Analysis

end Comptime
