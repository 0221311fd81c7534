import Comptime.Analysis.Operand

/-!
# Walks

The parts of analysis call each other along the nodes of the program: expressions hold types, types
hold expressions, functions hold statements. Each part is written against a `Walk`, the analysis of
the nodes one step deeper, and `Analysis.walk` ties the parts together to any depth.
-/

namespace Comptime

/-- The analysis of nodes in a scope. -/
structure Walk where
  /-- An expression. -/
  expr : ScopeId → NodeId → Lower Operand
  /-- A statement. -/
  stmt : ScopeId → NodeId → Lower Unit
  /-- A type expression. -/
  typeExpr : ScopeId → NodeId → Analysis TypeId

namespace Walk

/-- An expression whose value is read if it is a place. -/
def value (w : Walk) (scope : ScopeId) (n : NodeId) : Lower Operand := do
  Lower.rvalue (← w.expr scope n)

def typeExpr? (w : Walk) (scope : ScopeId) : Option NodeId → Analysis (Option TypeId)
  | some n => return some (← w.typeExpr scope n)
  | none => return none

end Walk

end Comptime
