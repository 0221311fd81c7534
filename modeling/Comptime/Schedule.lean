import Comptime.Id

/-!
# Scheduling

Analysis is cut into tasks. A task that needs the result of another one is parked until that one is
done, and then starts again from its beginning. Tasks that have become ready again run before those
that have not run yet, both in the order in which they became ready.

When no task is ready and some still wait, the waits form a circle. `Scheduler.findCycle` gives the
circle with the least task, sorted.
-/

namespace Comptime

/-- What a task analyses. -/
inductive TaskKind where
  /-- The value, type or signature of a global declaration. -/
  | global (symbol : SymbolId)
  /-- The body of a function. -/
  | body (fn : FnId)
  /-- An expression to be evaluated on request. -/
  | eval (node : NodeId)
deriving DecidableEq, Repr

/-- How far a task has come. -/
inductive TaskState where
  | queued
  | waiting (blocker : TaskId)
  | resolved
  | failed
deriving DecidableEq, Repr

/-- Whether a task in this state is done. -/
def TaskState.isTerminal : TaskState → Bool
  | resolved | failed => true
  | _ => false

/-- A task of the analysis. -/
structure Task where
  kind : TaskKind
  state : TaskState
  /-- How often the task has been started. -/
  runs : Nat
  /-- The tasks parked on this one, in the order in which they came. -/
  waiters : List TaskId
deriving Repr

instance : Inhabited Task := ⟨⟨.global ⟨0⟩, .failed, 0, []⟩⟩

/-- All tasks and the queues of those that are ready. -/
structure Scheduler where
  tasks : Pool .task Task
  /-- Ready for the first time. -/
  fresh : List TaskId
  /-- Ready again. -/
  resumed : List TaskId
deriving Inhabited

namespace Scheduler

def empty : Scheduler := ⟨.empty, [], []⟩

def task (s : Scheduler) (id : TaskId) : Task := s.tasks.getD id default

def kind (s : Scheduler) (id : TaskId) : TaskKind := (s.task id).kind

def state (s : Scheduler) (id : TaskId) : TaskState := (s.task id).state

def runs (s : Scheduler) (id : TaskId) : Nat := (s.task id).runs

/-- Put a task into a state. -/
def setState (s : Scheduler) (id : TaskId) (state : TaskState) : Scheduler :=
  { s with tasks := s.tasks.modify id fun t => { t with state } }

/-- The task of a kind, if it was submitted. -/
def find? (s : Scheduler) (kind : TaskKind) : Option TaskId := s.tasks.findId? (·.kind == kind)

/-- Queue a task, unless there is one of the same kind. -/
def submit (s : Scheduler) (kind : TaskKind) : Scheduler × TaskId :=
  match s.find? kind with
  | some id => (s, id)
  | none =>
    let id := s.tasks.nextId
    ({ s with tasks := s.tasks.push ⟨kind, .queued, 0, []⟩, fresh := s.fresh ++ [id] }, id)

/-- The first task of a queue that is ready, and what follows it. -/
def ready (s : Scheduler) : List TaskId → Option (TaskId × List TaskId)
  | [] => none
  | id :: rest => if s.state id = .queued then some (id, rest) else s.ready rest

/-- Count a run of a task. -/
def start (s : Scheduler) (id : TaskId) : Scheduler :=
  { s with tasks := s.tasks.modify id fun t => { t with runs := t.runs + 1 } }

/-- Take the next ready task off the queues. -/
def next (s : Scheduler) : Scheduler × Option TaskId :=
  match s.ready s.resumed with
  | some (id, rest) => ({ s with resumed := rest }.start id, some id)
  | none =>
    match s.ready s.fresh with
    | some (id, rest) => ({ s with resumed := [], fresh := rest }.start id, some id)
    | none => ({ s with resumed := [], fresh := [] }, none)

/-- Mark a task as failed and take its waiters off. -/
def drop (s : Scheduler) (id : TaskId) : Scheduler :=
  { s with tasks := s.tasks.modify id fun t => { t with state := .failed, waiters := [] } }

/-- Fail the tasks of a stack and all that wait for them. Gives those that failed now, in order. -/
def failAll : Nat → Scheduler → List TaskId → Scheduler × List TaskId
  | 0, s, _ => (s, [])
  | _ + 1, s, [] => (s, [])
  | fuel + 1, s, id :: stack =>
    if s.state id = .failed then failAll fuel s stack
    else
      let (s', failed) := failAll fuel (s.drop id) ((s.task id).waiters.reverse ++ stack)
      (s', id :: failed)

/-- Every task enters the stack at most once as a waiter of another, so this many steps suffice. -/
def failFuel (s : Scheduler) : Nat := s.tasks.toList.foldl (fun n t => n + t.waiters.length) 2

/-- Fail a task and all that wait for it, however indirectly. Gives the others that failed. -/
def fail (s : Scheduler) (id : TaskId) : Scheduler × List TaskId :=
  let (s, failed) := failAll s.failFuel s [id]
  (s, failed.filter (· != id))

/-- Park a running task until another one is done. If that one is done already, the task is ready
again or fails with it. -/
def park (s : Scheduler) (waiter blocker : TaskId) : Scheduler :=
  match s.state blocker with
  | .resolved => { s with resumed := s.resumed ++ [waiter] }
  | .failed => (s.fail waiter).1
  | _ =>
    let s := s.setState waiter (.waiting blocker)
    { s with tasks := s.tasks.modify blocker fun t => { t with waiters := t.waiters ++ [waiter] } }

/-- Make a parked task ready again, if it still waits for `blocker`. -/
def wake (blocker : TaskId) (s : Scheduler) (waiter : TaskId) : Scheduler :=
  if s.state waiter = .waiting blocker then
    { s.setState waiter .queued with resumed := s.resumed ++ [waiter] }
  else s

/-- Mark a task as done and wake all that wait for it. -/
def resolve (s : Scheduler) (id : TaskId) : Scheduler :=
  let waiters := (s.task id).waiters
  let s := { s with
    tasks := s.tasks.modify id fun t => { t with state := .resolved, waiters := [] } }
  waiters.foldl (wake id) s

/-! ## Circles -/

/-- The task that a task waits for. -/
def blocker? (s : Scheduler) (id : TaskId) : Option TaskId :=
  match s.state id with
  | .waiting b => some b
  | _ => none

/-- The tasks from `current` along the waits to `target`, if it is reached in `fuel` steps. -/
def walk (s : Scheduler) (target : TaskId) : Nat → TaskId → Option (List TaskId)
  | 0, _ => none
  | fuel + 1, current =>
    if current = target then some [target]
    else do
      let b ← s.blocker? current
      return current :: (← s.walk target fuel b)

/-- The circle of waits that a task is part of. -/
def circle? (s : Scheduler) (id : TaskId) : Option (List TaskId) := do
  let b ← s.blocker? id
  s.walk id s.tasks.size b

/-- The edges of the graph of waits: one from each parked task to the task that it waits for. -/
def edges (s : Scheduler) : List (TaskId × TaskId) :=
  s.tasks.ids.filterMap fun id => (s.blocker? id).map fun b => (id, b)

/-- The nodes of the graph of waits, in the order in which the edges name them. -/
def nodes (s : Scheduler) : List TaskId := (s.edges.flatMap fun e => [e.1, e.2]).eraseDups

/-- The strongly connected component of a task in the graph of waits: its circle, if it is the least task of
one, and the task alone, if it is on none. -/
def component? (s : Scheduler) (id : TaskId) : Option (List TaskId) :=
  match s.circle? id with
  | none => some [id]
  | some members => if members.all (id.index ≤ ·.index) then some members else none

/-- The strongly connected components of the graph of waits. -/
def components (s : Scheduler) : List (List TaskId) := s.nodes.filterMap s.component?

/-- A component with more than one task, or with a task that waits for itself. -/
def isCircular (s : Scheduler) (component : List TaskId) : Bool :=
  1 < component.length || component.head?.any fun id => (id, id) ∈ s.edges

def sortIds (members : List TaskId) : List TaskId := members.mergeSort fun a b => a.index ≤ b.index

/-- Among components of the graph of waits, the circular ones are each sorted, then put in order; the first
one is given. -/
def detectCycle (s : Scheduler) (components : List (List TaskId)) : Option (List TaskId) :=
  let cycles := (components.filter s.isCircular).map sortIds
  (cycles.mergeSort fun a b => !(b.map (·.index)).lex (a.map (·.index))).head?

/-- The circle of waits with the least task, sorted. -/
def findCycle (s : Scheduler) : Option (List TaskId) := s.detectCycle s.components

/-! ## Progress -/

/-- Every task is done. -/
def isIdle (s : Scheduler) : Bool := s.tasks.items.all fun t => t.state.isTerminal

/-- The number of tasks that are not done. -/
def pendingCount (s : Scheduler) : Nat := s.tasks.toList.countP fun t => !t.state.isTerminal

end Scheduler

end Comptime
