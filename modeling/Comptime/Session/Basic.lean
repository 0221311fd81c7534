import Comptime.Analysis.Task

/-!
# Sessions

A session holds a program and all that has been found out about it. Items of the program are
declared first and analysed later, so they may refer to each other in any order.
-/

namespace Comptime

namespace Scopes

/-- Give names to types. -/
def nameTypes (g : Scopes) (scope : ScopeId) (names : List (String × TypeId)) : Scopes :=
  names.foldl (fun g (name, ty) =>
    match g.insert ⟨name, .global, false, scope, none, .dummy, .resolved (.type ty)⟩ with
    | .ok (g, _) => g
    | .error _ => g) g

/-- The scopes around every program: the predefined types, and the global scope inside. -/
def initial : Scopes :=
  let (g, outer) := empty.create .builtin none
  ((g.nameTypes outer TypeTable.builtinNames).create .global (some outer)).1

/-- The value at a path of names between points. The first name is looked up from `scope` outward,
each further one in the scope before it. -/
def valueAt (g : Scopes) (scope : ScopeId) : List String → Option SymbolValue
  | [] => none
  | name :: rest => do
    let found ← g.lookup scope name
    follow (← (g.symbol found.symbol).value?) rest
where
  /-- Go from a value along the names that are left. -/
  follow (v : SymbolValue) : List String → Option SymbolValue
    | [] => some v
    | name :: rest => do
      let .scope inner := v | none
      let found ← g.lookupHere inner name
      follow (← (g.symbol found.symbol).value?) rest

end Scopes

/-- Nothing is known but the predefined types. -/
def Tables.initial : Tables where
  types := .initial
  scopes := .initial
  code := .empty
  scheduler := .empty
  diagnostics := .empty
  recipes := .empty
  sources := .empty
  fnLiterals := []
  polyLiterals := []
  nominals := []
  specializations := []
  structTasks := []
  results := []
  strays := []

/-- A program and all that has been found out about it. -/
structure Session where
  config : Config
  host : Host
  ast : Ast
  tables : Tables
  /-- The traps that ended evaluations on request. -/
  evalTraps : List (TaskId × Trap)

/-- Requests to a session. What was found out before a failure is kept. -/
abbrev Request := EStateM Failure Session

namespace Session

/-- A session over a program of which nothing is declared yet. -/
def create (config : Config) (host : Host) (ast : Ast) : Session :=
  ⟨config, host, ast, .initial, []⟩

def types (s : Session) : TypeTable := s.tables.types

def code (s : Session) : Code := s.tables.code

def diagnostics (s : Session) : List Diagnostic := s.tables.diagnostics.sorted

/-- Add nodes to the program. -/
def pushNodes (s : Session) (nodes : List Node) : Session :=
  { s with ast := nodes.foldl Pool.push s.ast }

/-- What the machine executes for this session. -/
def setting (s : Session) : Setting :=
  ⟨s.config.limits, s.tables.types, s.tables.code, s.host⟩

/-- What a path of global names stands for, if that is known. -/
def symbolValue (s : Session) (path : String) : Option SymbolValue :=
  s.tables.scopes.valueAt Analysis.globalScope (path.splitOn ".")

/-- The value of a constant, function or type, or the initial value of a variable. -/
def constValue (s : Session) (path : String) : Option Value :=
  match s.symbolValue path with
  | some (.const _ v) => some v
  | some (.global g) => some (s.tables.code.global g).value
  | some (.fn f) => some (.fn f)
  | some (.type ty) => some (.type ty)
  | _ => none

end Session

end Comptime
