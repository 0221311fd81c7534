import Comptime.Text.Quoted
import Comptime.Value.Basic

/-!
# Host functions

External functions of a program are carried out by its host. A host answers a call by name and
argument values with a value or with a message why it cannot.
-/

namespace Comptime

/-- What an external function does. -/
abbrev HostFn := List Value → Except String Value

/-- Who carries out external functions. -/
structure Host where
  call : String → List Value → Except String Value

/-- The host of programs that link no external code. -/
def Host.none : Host where
  call name _ := .error ("external function `" ++ name ++ "` is not available at compile time")

/-- Host functions by name. -/
structure Registry where
  fns : List (String × HostFn)

namespace Registry

def empty : Registry := ⟨[]⟩

/-- Add a function; it replaces one of the same name. -/
def register (r : Registry) (name : String) (f : HostFn) : Registry :=
  ⟨(name, f) :: r.fns.filter (·.1 != name)⟩

def contains (r : Registry) (name : String) : Bool := (r.fns.lookup name).isSome

/-- The names in alphabetical order. -/
def names (r : Registry) : List String := (r.fns.map Prod.fst).mergeSort fun a b => decide (a ≤ b)

/-- The host that knows the functions of the registry and no others. -/
def host (r : Registry) : Host where
  call name args :=
    match r.fns.lookup name with
    | some f => f args
    | Option.none => .error ("unknown external function `" ++ name ++ "`")

/-- The listing form, with the names between quotes. -/
def listing (r : Registry) : String :=
  "NativeRegistry \x7b fns: [" ++ ", ".intercalate (r.names.map Text.quote) ++ "] \x7d"

end Registry

/-! ## Ready-made host functions -/

namespace HostFn

/-- The sum of all integer arguments, as a signed 32-bit integer. -/
def sum : HostFn := fun args =>
  .ok (.ofRaw ((args.filterMap Value.asBits).foldl (· + ·) 0) 32 true)

/-- The number of arguments. -/
def count : HostFn := fun args => .ok (.int (UInt64.ofNat args.length))

/-- The argument at a position. -/
def echo (i : Nat) : HostFn := fun args =>
  match args[i]? with
  | some v => .ok v
  | Option.none => .error ("missing argument " ++ toString i)

/-- Always the same value. -/
def constant (v : Value) : HostFn := fun _ => .ok v

/-- Always the same failure. -/
def fail (message : String) : HostFn := fun _ => .error message

end HostFn

end Comptime
