import Comptime.Session.Basic

/-!
# Analysing a program

Tasks are run until all are done. An error does not end the analysis: the task fails together with
those that wait for it, and the others go on. When all that are left wait for each other, the circle
is reported and its tasks fail.
-/

namespace Comptime

namespace Tables

/-! ## Ends of runs -/

/-- Report something. -/
def emit (t : Tables) (d : Diagnostic) : Tables := { t with diagnostics := t.diagnostics.emit d }

/-- Note that what a task analyses has failed. -/
def markFailed (t : Tables) (task : TaskId) : Tables :=
  match t.scheduler.kind task with
  | .global symbol => { t with scopes := t.scopes.fail symbol }
  | .body f => { t with code := t.code.modifyFn f fun func => { func with state := .failed } }
  | .eval _ => t

/-- Fail a task and all that wait for it. -/
def fail (t : Tables) (task : TaskId) : Tables :=
  let (scheduler, dependents) := t.scheduler.fail task
  (task :: dependents).foldl markFailed { t with scheduler }

/-- Let a task wait for another one. It fails if that one has failed. -/
def postpone (t : Tables) (task blocker : TaskId) : Tables :=
  let t :=
    match t.scheduler.kind task with
    | .body f => { t with code := t.code.modifyFn f fun func => { func with state := .pending } }
    | _ => t
  if t.scheduler.state blocker = .failed then t.fail task
  else { t with scheduler := t.scheduler.park task blocker }

/-! ## Circles -/

/-- What a task is called in reports, and where it stands. -/
def label (t : Tables) (ast : Ast) (task : TaskId) : String × Span :=
  match t.scheduler.kind task with
  | .global symbol =>
    let s := t.scopes.symbol symbol
    ("`" ++ s.name ++ "`", s.span)
  | .body f =>
    let func := t.code.function f
    ("body of `" ++ func.name ++ "`", func.span)
  | .eval n => ("compile-time expression", ast.span n)

/-- The report of tasks that wait for each other. -/
def cycleReport (t : Tables) (ast : Ast) (cycle : List TaskId) : Diagnostic :=
  let labels := cycle.map (t.label ast)
  let message := "circular dependency between " ++ ", ".intercalate (labels.map Prod.fst)
  labels.foldl (fun d (name, span) => d.withNote (name ++ " is part of the cycle") (some span))
    ⟨.error, .dependency, message, labels.head?.map Prod.snd, []⟩

/-- Report tasks that wait for each other and fail them. -/
def breakCycle (t : Tables) (ast : Ast) (cycle : List TaskId) : Tables :=
  cycle.foldl fail (t.emit (t.cycleReport ast cycle))

end Tables

namespace Session

/-! ## Driving the tasks -/

/-- Carry out a task, from its beginning. -/
def runTask (task : TaskId) (s : Session) : EStateM.Result Halt Tables Unit :=
  (Analysis.runTask (s.tables.scheduler.kind task)).run ⟨s.config, s.host, s.ast, task, none⟩ |>.run
    s.tables

/-- Note how a run of a task ended. -/
def settle (task : TaskId) (result : EStateM.Result Halt Tables Unit) : Request Unit := fun s =>
  match result with
  | .ok _ t => .ok () { s with tables := { t with scheduler := t.scheduler.resolve task } }
  | .error halt t =>
    match halt with
    | .postpone blocker => .ok () { s with tables := t.postpone task blocker }
    | .error d => .ok () { s with tables := (t.emit d).fail task }
    | .trap trap =>
      let d := Diagnostic.error (.trap trap.kind) trap.kind.message trap.span
      let evalTraps :=
        match t.scheduler.kind task with
        | .eval _ => (task, trap) :: s.evalTraps
        | _ => s.evalTraps
      .ok () { s with tables := (t.emit d).fail task, evalTraps }
    | .silent => .ok () { s with tables := t.fail task }
    | .fatal e => .error e { s with tables := t }

/-- Run a task that has been started. -/
def process (task : TaskId) : Request Unit := do
  let s ← get
  let runs := s.tables.scheduler.runs task
  if s.config.maxTaskRuns < runs then
    throw (.internal (task.text ++ " did not settle after " ++ toString runs ++ " runs"))
  settle task (s.runTask task)

/-- Start the next ready task. -/
def startNext : Request (Option TaskId) :=
  modifyGet fun s =>
    let (scheduler, task) := s.tables.scheduler.next
    (task, { s with tables := { s.tables with scheduler } })

/-- Break a circle of tasks, when none is ready. Says whether there was something left to do. -/
def unblock : Request Bool := do
  let s ← get
  let scheduler := s.tables.scheduler
  if scheduler.isIdle then return false
  match scheduler.findCycle with
  | some cycle =>
    set { s with tables := s.tables.breakCycle s.ast cycle }
    return true
  | none =>
    throw (.internal (toString scheduler.pendingCount ++
      " task(s) wait without a dependency cycle"))

/-- Take one step: run a ready task, or break a circle if there is none. Says whether there may be
more to do. -/
def advance : Request Bool := do
  match ← startNext with
  | some task =>
    process task
    return true
  | none => unblock

/-- Take steps until there is nothing more to do. -/
def drive : Nat → Request Unit
  | 0 => throw (.internal "analysis did not end")
  | fuel + 1 => do
    if ← advance then drive fuel

/-- Run tasks until all are done. -/
def settleAll : Request Unit := do drive (← get).config.fuel

/-! ## Requests -/

/-- Analyse all that is declared. The program is rejected if an error was ever reported. -/
def analyze : Request Unit := do
  settleAll
  let s ← get
  if s.tables.diagnostics.hasErrors then throw (.rejected s.diagnostics)

/-- Evaluate an expression at compile time in the global scope. -/
def eval (n : NodeId) : Request Value := do
  let task ← modifyGet fun s =>
    let (scheduler, task) := s.tables.scheduler.submit (.eval n)
    (task, { s with tables := { s.tables with scheduler } })
  settleAll
  let s ← get
  match s.tables.results.lookup task, s.evalTraps.lookup task with
  | some v, _ => return v
  | none, some trap => throw (.trapped trap)
  | none, none => throw (.rejected s.diagnostics)

end Session

end Comptime
