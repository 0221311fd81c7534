import Comptime.Binary.Arithmetic
import Comptime.Binary.Decimal
import Comptime.Trap

/-!
# Test reports

The outcome of the test cases of a program, with the share that passed.
-/

namespace Comptime

/-- The outcome of one test case. -/
structure TestCase where
  name : String
  /-- The trap that ended a failed case. -/
  trap : Option Trap
  /-- How long the case ran. -/
  nanoseconds : Nat

namespace TestCase

def passed (c : TestCase) : Bool := c.trap.isNone

/-- The run time in milliseconds as a 64-bit real: seconds and fraction are added, then scaled. -/
def milliseconds (c : TestCase) : Nat :=
  let real := Binary.double.ofInt
  let fraction := Binary.double.div (real (c.nanoseconds % 1000000000 : Nat)) (real (1000000000))
  let seconds := Binary.double.add (real (c.nanoseconds / 1000000000 : Nat)) fraction
  Binary.double.mul seconds (real 1000)

end TestCase

/-- The outcomes of all test cases, in the order in which they ran. -/
structure TestReport where
  cases : List TestCase

namespace TestReport

def failed (r : TestReport) : List TestCase := r.cases.filter (!·.passed)

def failedCount (r : TestReport) : Nat := r.failed.length

def isSuccess (r : TestReport) : Bool := r.failedCount == 0

/-- The percentage of passed cases as a 64-bit real; all of none have passed. -/
def passRate (r : TestReport) : Nat :=
  let real := fun (n : Nat) => Binary.double.ofInt n
  if r.cases.isEmpty then real 100
  else
    let passed := r.cases.length - r.failedCount
    Binary.double.div (Binary.double.mul (real passed) (real 100)) (real r.cases.length)

private def caseLine (c : TestCase) : String :=
  "[ " ++ (if c.passed then "PASS" else "FAIL") ++ " ] " ++ c.name ++ " (" ++
    Binary.double.fixed 3 c.milliseconds ++ " ms)\n"

private def failureLine (c : TestCase) : String :=
  match c.trap with
  | some trap => "  " ++ c.name ++ ": " ++ trap.message ++ "\n"
  | none => ""

def text (r : TestReport) : String :=
  let count := toString r.cases.length
  "testing " ++ count ++ " case(s)\n" ++ String.join (r.cases.map caseLine) ++
    (if r.isSuccess then "" else "failed:\n" ++ String.join (r.failed.map failureLine)) ++
    "executed " ++ count ++ ", passed " ++ Binary.double.fixed 0 r.passRate ++ "%"

end TestReport

end Comptime
