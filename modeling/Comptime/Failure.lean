import Comptime.Diagnostic
import Comptime.Id

/-!
# Failures

Why a request to a session or to a finished program has no answer.
-/

namespace Comptime

/-- Why a request has no answer. -/
inductive Failure where
  /-- A node of the program has no proper form. -/
  | malformed (node : NodeId) (message : String)
  /-- The program has errors; all diagnostics are given. -/
  | rejected (diagnostics : List Diagnostic)
  | trapped (trap : Trap)
  /-- The session gave up. -/
  | internal (message : String)
  /-- The host went down over a function that does not exist. -/
  | crashed (fn : FnId)
deriving Repr

namespace Failure

def message : Failure → String
  | malformed node message => "malformed AST node " ++ node.listing ++ ": " ++ message
  | rejected diagnostics =>
    "compilation failed with " ++ toString (Diagnostic.countErrors diagnostics) ++ " error(s)"
  | trapped trap => "compile-time execution trapped: " ++ trap.message
  | internal message => "internal compiler error: " ++ message
  | crashed fn => "no function " ++ fn.listing

/-- The diagnostics of a rejected program. -/
def diagnostics : Failure → List Diagnostic
  | rejected diagnostics => diagnostics
  | _ => []

end Failure

end Comptime
