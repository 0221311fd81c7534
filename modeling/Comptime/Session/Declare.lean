import Comptime.Session.Basic

/-!
# Declaring the items of a program

An item is a declaration or a scope with a name. A declaration is entered as an unresolved symbol
whose task is queued. A name that is taken is reported, and the declaration left out.
-/

namespace Comptime

namespace Tables

/-- Enter an unresolved symbol; one whose name is taken is reported. -/
def declare (t : Tables) (scope : ScopeId) (name : String) (mutable : Bool) (node : NodeId)
    (span : Span) : Tables × Option SymbolId :=
  match t.scopes.insert
    ⟨name, .global, mutable, scope, some node, span, .unresolved none⟩ with
  | .ok (scopes, id) => ({ t with scopes }, some id)
  | .error previous =>
    ({ t with diagnostics := t.diagnostics.emit (t.scopes.redeclaration name span previous) }, none)

/-- Declare a global and queue its task. -/
def declareGlobal (t : Tables) (scope : ScopeId) (d : Decl) (node : NodeId) (span : Span) :
    Tables :=
  match t.declare scope d.name d.mutable node span with
  | (t, some symbol) =>
    let (scheduler, task) := t.scheduler.submit (.global symbol)
    { t with scheduler, scopes := t.scopes.setState symbol (.unresolved (some task)) }
  | (t, none) => t

/-- Declare a scope with a name. Its items are declared even if the name is taken. -/
def declareScope (t : Tables) (scope : ScopeId) (name : String) (node : NodeId) (span : Span) :
    Tables × ScopeId :=
  let (scopes, inner) := t.scopes.create .named (some scope)
  match { t with scopes }.declare scope name false node span with
  | (t, some symbol) => ({ t with scopes := t.scopes.resolve symbol (.scope inner) }, inner)
  | (t, none) => (t, inner)

/-- Declare items, in scopes nested at most `depth` deep. -/
def declareItems (ast : Ast) : Nat → ScopeId → List NodeId → EStateM Failure Tables Unit
  | 0, _, _ => throw (.internal "scopes are nested too deep")
  | depth + 1, scope, items =>
    items.forM fun n => do
      match ast.node n with
      | ⟨.decl d, span⟩ => modify fun t => t.declareGlobal scope d n span
      | ⟨.namedScope name items, span⟩ =>
        let inner ← modifyGet fun t =>
          let (t, inner) := t.declareScope scope name n span
          (inner, t)
        declareItems ast depth inner items
      | _ => throw (.malformed n "expected a declaration or a module at top level")

end Tables

namespace Session

/-- Declare items of the program in the global scope. -/
def declare (items : List NodeId) : Request Unit := fun s =>
  match (Tables.declareItems s.ast (s.ast.size + 1) Analysis.globalScope items).run s.tables with
  | .ok a tables => .ok a { s with tables }
  | .error e tables => .error e { s with tables }

end Session

end Comptime
