import Comptime.Report
import Comptime.Session.Analyze

/-!
# Programs that have been analysed
-/

namespace Comptime

/-- An analysed program without errors. -/
structure Program where
  code : Code
  types : TypeTable
  host : Host
  limits : Limits
  /-- What the analysis reported. -/
  warnings : List Diagnostic

/-- Analyse a program and give it away. -/
def Session.finish : Request Program := do
  analyze
  let s ← get
  return ⟨s.tables.code, s.tables.types, s.host, s.config.limits, s.diagnostics⟩

namespace Program

/-- What the machine executes for this program. -/
def setting (p : Program) : Setting := ⟨p.limits, p.types, p.code, p.host⟩

/-- The functions that exist when the program runs. -/
def functions (p : Program) : List (FnId × Function) :=
  p.code.fns.entries.filter fun (_, f) => f.flavor == .runtime && f.state == .analyzed

/-- The first function of a name. -/
def function? (p : Program) (name : String) : Option FnId := p.code.find? name

/-- Execute a function on a machine of its own. -/
def execute (p : Program) (name : String) (args : List Value) : Except Failure Value :=
  match p.function? name with
  | none => .error (.internal ("no function named `" ++ name ++ "`"))
  | some f =>
    match (Machine.fresh.evaluate p.setting f args).1 with
    | .returned v => .ok v
    | .trapped trap => .error (.trapped trap)
    | .postponed _ | .exhausted => .error (.internal "execution did not end")
    | .missing g => .error (.crashed g)

/-- Run a test case on a machine of its own. -/
def runTest (p : Program) (id : FnId) (func : Function) : Except Failure TestCase :=
  match (Machine.fresh.evaluate p.setting id []).1 with
  | .returned _ => .ok ⟨func.name, none, 0⟩
  | .trapped trap => .ok ⟨func.name, some trap, 0⟩
  | .postponed _ | .exhausted =>
    .ok ⟨func.name, some ⟨.invalidOperation "execution did not end", func.span⟩, 0⟩
  | .missing g => .error (.crashed g)

/-- Run all test cases in the order of their declaration. -/
def runTests (p : Program) : Except Failure TestReport := do
  let cases ← (p.code.fns.entries.filter fun (_, f) => f.test).mapM fun (id, f) => p.runTest id f
  return ⟨cases⟩

/-- What a program consists of, in one line. -/
def summary (p : Program) : String :=
  "Program \x7b functions: " ++ toString p.code.fns.size ++ ", globals: " ++
    toString p.code.globals.size ++ ", warnings: " ++ toString p.warnings.length ++ " \x7d"

end Program

end Comptime
