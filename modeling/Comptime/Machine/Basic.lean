import Comptime.Code.Basic
import Comptime.Host
import Comptime.Machine.Memory

/-!
# The machine

The machine executes analysed functions. Each call has a frame with a register for every
instruction and with the local variables on the stack; globals are copied into the data segment
when they are first used, so what code writes to them stays inside one machine.

A run stops with a value, with a trap, or because it met a function whose body is not analysed yet.
-/

namespace Comptime

/-- Bounds on what a machine may use. -/
structure Limits where
  /-- The size of the stack in bytes. -/
  stackSize : Nat
  /-- The greatest depth of calls. -/
  maxFrames : Nat
  /-- The size of the data segment in bytes. -/
  maxDataSize : Nat
  /-- The greatest number of instructions in one run. -/
  maxSteps : Nat
deriving Repr

/-- The usual bounds. The number of steps is beyond what any run can reach. -/
def Limits.default : Limits := ⟨0x100000, 1024, 0x1000000, 0x1000000000000000⟩

/-- What a machine has done last. -/
inductive MachineState where
  | ready | running | returned | trapped | stackOverflow
deriving DecidableEq, Repr

def MachineState.name : MachineState → String
  | ready => "Ready"
  | running => "Running"
  | returned => "Returned"
  | trapped => "Trapped"
  | stackOverflow => "StackOverflow"

/-- Why a run has no value. -/
inductive Stop where
  | trap (trap : Trap)
  /-- The body of a function is not analysed yet. -/
  | postponed (fn : FnId)
  /-- The run used up its steps. -/
  | exhausted
  /-- The function to call does not exist, and looking it up brings down the host. -/
  | missing (fn : FnId)
deriving Repr

/-- How a run ended. -/
inductive Outcome where
  | returned (value : Value)
  | trapped (trap : Trap)
  | postponed (fn : FnId)
  | exhausted
  | missing (fn : FnId)
deriving Repr

/-- The end of a run that stops. -/
def Stop.outcome : Stop → Outcome
  | trap t => .trapped t
  | postponed f => .postponed f
  | exhausted => .exhausted
  | missing f => .missing f

/-- One call in progress. -/
structure Frame where
  func : Function
  block : BlockId
  /-- How many instructions of the block are done. -/
  pos : Nat
  /-- The block from which the current one was entered. -/
  prev : Option BlockId
  regs : Array Value
  /-- The address of the local variables. -/
  base : Nat
  /-- The end of the stack in use before the call. -/
  savedTop : Nat
  /-- The register of the caller that takes the result. -/
  result : Option InstrId
deriving Inhabited

/-- A machine between two instructions. -/
structure Machine where
  memory : Memory
  /-- The end of the stack in use. -/
  top : Nat
  /-- The addresses of the globals in use. -/
  globals : List (GlobalId × UInt64)
  /-- The calls in progress, the innermost first. -/
  frames : List Frame
  state : MachineState

/-- A machine that has not run. -/
def Machine.fresh : Machine := ⟨.empty, 0, [], [], .ready⟩

instance : Inhabited Machine := ⟨.fresh⟩

/-- What a machine executes and may use. -/
structure Setting where
  limits : Limits
  types : TypeTable
  code : Code
  host : Host

/-- Steps of a machine; the machine stays as it is when one of them stops. -/
abbrev Exec := EStateM Stop Machine

end Comptime
