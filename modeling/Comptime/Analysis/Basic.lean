import Comptime.Ast
import Comptime.Failure
import Comptime.Machine.Basic
import Comptime.Schedule
import Comptime.Scope

/-!
# Analysis

Analysis turns the nodes of a program into code, one task at a time. Where it needs something that
is not known yet, it halts and names the task that will find it out. The session parks the halted
task and runs it again from its beginning once that task is done. All that an aborted run has made
is thrown away, but for what other tasks may refer to: declared functions, nominal types and
specializations are kept in the tables, under the node from which they come and the function in
whose body the node was met.
-/

namespace Comptime

/-- Choices and bounds of a session. -/
structure Config where
  /-- Compute operators on constants during analysis instead of on the machine. -/
  foldConstants : Bool
  limits : Limits
  /-- How often a task may be started. -/
  maxTaskRuns : Nat
  /-- The largest value, in bytes or scalars, that analysis builds. -/
  maxValueSize : Nat
  /-- Rounds of a session and, beyond the size of the program, depth of the analysis. -/
  fuel : Nat

/-- The usual choices. The fuel is beyond what any session can use. -/
def Config.default : Config := ⟨true, .default, 10000, 0x100000, 0x1000000000000000⟩

/-- Why a run of a task ended early. -/
inductive Halt where
  /-- The run is to be repeated when the task is done. -/
  | postpone (task : TaskId)
  | error (diagnostic : Diagnostic)
  | trap (trap : Trap)
  /-- Something needed has failed and was reported there. -/
  | silent
  /-- The session cannot go on. -/
  | fatal (failure : Failure)
deriving Repr

/-- A polymorphic function. -/
structure Recipe where
  name : String
  lit : NodeId
  scope : ScopeId
deriving Repr, Inhabited

/-- Where the body of a function comes from. -/
structure Source where
  lit : NodeId
  scope : ScopeId
  /-- The types bound by a specialization. -/
  bindings : List (String × TypeId)
deriving Repr

/-- A node and the function in whose body it is met. -/
abbrev Occurrence := NodeId × Option FnId

/-- All that a session has found out. -/
structure Tables where
  types : TypeTable
  scopes : Scopes
  code : Code
  scheduler : Scheduler
  diagnostics : Diagnostics
  recipes : Pool .recipe Recipe
  /-- The origins of the functions of the code. -/
  sources : Pool .function Source
  fnLiterals : List (Occurrence × FnId)
  polyLiterals : List (Occurrence × RecipeId)
  nominals : List (Occurrence × TypeId)
  specializations : List ((RecipeId × List TypeId) × FnId)
  /-- The tasks that complete the structs. -/
  structTasks : List (StructId × TaskId)
  /-- The values of expressions evaluated on request. -/
  results : List (TaskId × Value)
  /-- The values that code executed at compile time gave and that are no values of their type. Nothing depends
  on them. -/
  strays : List (TypeId × Value)

/-- What stays the same during a run of a task. -/
structure Context where
  config : Config
  host : Host
  ast : Ast
  /-- The running task. -/
  task : TaskId
  /-- The function whose body is analysed. -/
  owner : Option FnId

/-- Steps of analysis. The tables keep what was found out before a halt. -/
abbrev Analysis := ReaderT Context (EStateM Halt Tables)

namespace Analysis

/-! ## Halting -/

section

variable {m : Type → Type} [MonadExceptOf Halt m] {α : Type}

/-- Halt with an error about types. -/
def typeError (span : Span) (message : String) : m α :=
  throw (.error (Diagnostic.error .type message span))

/-- Halt with an error about names. -/
def resolutionError (span : Span) (message : String) : m α :=
  throw (.error (Diagnostic.error .resolution message span))

/-- Halt because a node has no proper form. -/
def malformed (node : NodeId) (message : String) : m α :=
  throw (.fatal (.malformed node message))

/-- Halt because the analysis itself went wrong. -/
def internal (message : String) : m α := throw (.fatal (.internal message))

/-- Halt because an evaluation trapped. -/
def trapAt (kind : TrapKind) (span : Span) : m α := throw (.trap ⟨kind, span⟩)

/-- The value of a folded operation, or its trap at a place. -/
def orTrapAt [Monad m] (span : Span) : Except TrapKind α → m α
  | .ok a => pure a
  | .error kind => trapAt kind span

end

/-! ## Reading and extending the tables -/

def types : Analysis TypeTable := return (← get).types

def code : Analysis Code := return (← get).code

/-- A function of the code. Looking up one that does not exist brings down the host. -/
def functionOf (f : FnId) : Analysis Function := do
  match (← code).fns.get? f with
  | some func => return func
  | none => throw (.fatal (.crashed f))

def scopes : Analysis Scopes := return (← get).scopes

def node (n : NodeId) : Analysis Node := return (← read).ast.node n

def spanOf (n : NodeId) : Analysis Span := return (← read).ast.span n

/-- Whether operators on constants are computed during analysis. -/
def folding : Analysis Bool := return (← read).config.foldConstants

/-- The name of a type between backticks. -/
def quoted (ty : TypeId) : Analysis String := return "`" ++ (← types).name ty ++ "`"

/-- Halt because a value has not the expected type. -/
def mismatch {α : Type} (span : Span) (expected found : TypeId) : Analysis α := do
  typeError span ("expected " ++ (← quoted expected) ++ ", found " ++ (← quoted found))

/-- The type of a descriptor. -/
def intern (k : TypeKind) : Analysis TypeId :=
  modifyGet fun t =>
    let (types, ty) := t.types.intern k
    (ty, { t with types })

/-- The type of pointers to a type. -/
def ptrTo (ty : TypeId) : Analysis TypeId := intern (.ptr ty)

/-- A new scope inside another one. -/
def createScope (kind : ScopeKind) (parent : ScopeId) : Analysis ScopeId :=
  modifyGet fun t =>
    let (scopes, id) := t.scopes.create kind (some parent)
    (id, { t with scopes })

/-- Enter a symbol; the answer is the earlier symbol of the same name where there is one. -/
def insertSymbol (s : Symbol) : Analysis (Except SymbolId SymbolId) :=
  modifyGet fun t =>
    match t.scopes.insert s with
    | .ok (scopes, id) => (.ok id, { t with scopes })
    | .error previous => (.error previous, t)

/-- Note what a symbol stands for. -/
def resolveSymbol (id : SymbolId) (v : SymbolValue) : Analysis Unit :=
  modify fun t => { t with scopes := t.scopes.resolve id v }

end Analysis

/-- The report of a name that is declared twice. -/
def Scopes.redeclaration (g : Scopes) (name : String) (span : Span) (previous : SymbolId) :
    Diagnostic :=
  (Diagnostic.error .resolution ("symbol `" ++ name ++ "` is already declared in this scope")
    span).withNote "previously declared here" (some (g.symbol previous).span)

namespace Analysis

/-- Enter a symbol, or halt if its name is taken. -/
def declareSymbol (s : Symbol) : Analysis SymbolId := do
  match ← insertSymbol s with
  | .ok id => return id
  | .error previous => throw (.error ((← scopes).redeclaration s.name s.span previous))

/-! ## Layouts -/

/-- Halt for want of a layout: wait for a struct that is not complete, report anything else. -/
def layoutHalt {α : Type} (e : LayoutError) (span : Span) : Analysis α := do
  let t ← get
  match e with
  | .incomplete id =>
    match t.structTasks.lookup id with
    | some task => throw (.postpone task)
    | none => internal ("struct `" ++ (t.types.structDef id).name ++ "` has no declaring task")
  | .recursive id =>
    typeError span ("struct `" ++ (t.types.structDef id).name ++ "` contains itself by value")
  | .tooLarge ty => typeError span ("type " ++ (← quoted ty) ++ " is too large")
  | .missing ty => typeError span ("type " ++ (← quoted ty) ++ " does not exist")

/-- The result of a computation on layouts. -/
def orLayoutHalt {α : Type} (span : Span) : Except LayoutError α → Analysis α
  | .ok a => pure a
  | .error e => layoutHalt e span

def layoutOf (ty : TypeId) (span : Span) : Analysis Layout := do
  orLayoutHalt span ((← types).layout ty)

/-- The layout of a type whose values analysis builds, which must not be too large. -/
def valueLayout (ty : TypeId) (span : Span) : Analysis Layout := do
  let layout ← layoutOf ty span
  let limit := (← read).config.maxValueSize
  if limit < layout.size || limit < (← types).cells ty then
    typeError span ("type " ++ (← quoted ty) ++ " is too large for a compile-time value (limit " ++
      toString limit ++ " bytes)")
  return layout

def zeroValue (ty : TypeId) (span : Span) : Analysis Value := do
  let _ ← valueLayout ty span
  orLayoutHalt span ((← types).zero ty)

/-- Halt if variables of a type are not possible. -/
def checkStorage (ty : TypeId) (mutable : Bool) (span : Span) : Analysis Unit := do
  if ty = .void || ty = .null then
    typeError span ("cannot declare a variable of type " ++ (← quoted ty))
  if mutable && ty = .type then
    typeError span "types cannot be stored in mutable variables"
  let _ ← valueLayout ty span

end Analysis

end Comptime
