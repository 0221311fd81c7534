import Comptime.Span
import Comptime.Word

/-!
# Traps

A trap is a fault of code that is executed at compile time, with the place where it happened.
-/

namespace Comptime

/-- What went wrong. -/
inductive TrapKind where
  | divideByZero
  | nullDereference
  | outOfBounds (index : Int) (len : Nat)
  | invalidAddress (addr : UInt64)
  | assertionFailed (message : String)
  | unreachable
  | stackOverflow
  | outOfMemory
  /-- A function of the host failed or answered a value of another type. -/
  | native (message : String)
  /-- The body of the named function could not be analysed. -/
  | incompleteFunction (name : String)
  /-- The code is not well formed. -/
  | invalidOperation (message : String)
deriving DecidableEq, Repr

def TrapKind.message : TrapKind → String
  | divideByZero => "division by zero"
  | nullDereference => "null pointer dereference"
  | outOfBounds index len =>
    "index " ++ toString index ++ " out of bounds for length " ++ toString len
  | invalidAddress addr => "invalid memory access at 0x" ++ Word.hex addr
  | assertionFailed message => "assertion failed: " ++ message
  | unreachable => "reached unreachable code"
  | stackOverflow => "stack overflow"
  | outOfMemory => "out of memory"
  | native message => "native call failed: " ++ message
  | incompleteFunction name => "function `" ++ name ++ "` cannot be executed"
  | invalidOperation message => "invalid operation: " ++ message

/-- A fault and the span of the instruction that raised it. -/
structure Trap where
  kind : TrapKind
  span : Span
deriving DecidableEq, Repr

/-- The message with the place. -/
def Trap.message (t : Trap) : String := t.kind.message ++ " at " ++ t.span.text

end Comptime
