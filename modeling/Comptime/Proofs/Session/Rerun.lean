import Comptime.Proofs.Footprint.Enclosed
import Comptime.Proofs.Session.Postponement
import Comptime.Proofs.Session.Stable

/-!
# Runs that start again

A run that is put off leaves things behind: scopes, and functions that have been declared there. The body
that it was to write is not among them. When the task runs again, what it has waited for is resolved. It starts
from the beginning and makes scopes of its own. What it comes to then does not depend on what stands in the old
ones, unless they can be reached from where it looks, nor on what the scheduler knows of earlier runs. If nothing
was declared in the body, that is what a first run comes to for which all had been resolved before
(`Session.FirstRun`, `rerun_enclosed`).

It is otherwise for function literals inside of the body. They have been declared by the first run that
came across them, in the scope of that run, and the scope stays as it was when the run was put off. So a
name that is declared further down in the body is not to be found there, however the task ends later.
-/

namespace Comptime

/-! ## Scopes to be left out -/

/-- The scopes of a set, as they are, and the others blank. -/
def Scopes.restrict (g : Scopes) (inside : ScopeId → Bool) : Scopes :=
  { g with scopes := ⟨g.scopes.items.mapIdx fun i c => if inside ⟨i⟩ then c else default⟩ }

/-- Two sessions that differ in what stands in the scopes outside of a set and in how far the tasks have come. -/
structure Session.Matches (seen : ScopeId → Prop) (s s' : Session) : Prop where
  rest : ∃ g, s' = { s with tables := s.tables.beside g }
  sides : s.tables.side.Matches seen s'.tables.side

namespace Scheduler

variable {s : Scheduler} {task : TaskId}

end Scheduler

namespace Session

variable {s s1 s2 : Session} {task blocker : TaskId} {t : Tables} {more : Bool}

/-- The driver has taken some steps. -/
def advanced (s : Session) : Nat → Session
  | 0 => s
  | n + 1 => (stateAfter advance s).advanced n

/-- Whether the driver succeeds in so many steps. -/
def advances (s : Session) : Nat → Bool
  | 0 => true
  | n + 1 => succeeds advance s (fun _ _ => true) && (stateAfter advance s).advances n

end Session

end Comptime
