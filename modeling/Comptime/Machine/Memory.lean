import Comptime.Trap
import Comptime.Value.Memory

/-!
# Machine memory

Memory is two segments of bytes, the stack and the data. Their addresses lie far apart, and the
addresses below the stack count as null. An access must lie inside one segment as a whole.

The main laws: an access succeeds exactly when its range lies inside a segment; a store that fails
changes nothing and one that succeeds changes the bytes of its range only; and what was stored is
loaded back.
-/

namespace Comptime

namespace Memory

/-- The address of the first byte of the stack. -/
def stackBase : Nat := 0x1000

/-- The address of the first byte of the data segment. -/
def dataBase : Nat := 0x10000000000

/-- Frames start at multiples of this. -/
def frameAlign : Nat := 16

end Memory

/-- The bytes of a machine. -/
structure Memory where
  stack : Array UInt8
  data : Array UInt8
deriving Inhabited

namespace Memory

/-- A place inside one of the segments. -/
inductive Place where
  | stack (offset : Nat)
  | data (offset : Nat)
deriving DecidableEq, Repr

def empty : Memory := ⟨#[], #[]⟩

/-- The place of `len` bytes at an address. -/
def place (m : Memory) (addr : UInt64) (len : Nat) : Except TrapKind Place :=
  let a := addr.toNat
  if a < stackBase then .error .nullDereference
  else if dataBase ≤ a then
    if a - dataBase + len ≤ m.data.size then .ok (.data (a - dataBase))
    else .error (.invalidAddress addr)
  else if a - stackBase + len ≤ m.stack.size then .ok (.stack (a - stackBase))
  else .error (.invalidAddress addr)

/-- Read a value of a shape. -/
def load (m : Memory) (addr : UInt64) (s : Shape) : Except TrapKind Value :=
  match m.place addr s.size with
  | .ok (.stack offset) => .ok (s.read m.stack offset s.size)
  | .ok (.data offset) => .ok (s.read m.data offset s.size)
  | .error e => .error e

/-- Write a value of a shape at a place. -/
def put (m : Memory) (s : Shape) (v : Value) : Place → Memory
  | .stack offset =>
    match m with
    | ⟨stack, data⟩ => ⟨Shape.overlay stack offset (s.image v), data⟩
  | .data offset =>
    match m with
    | ⟨stack, data⟩ => ⟨stack, Shape.overlay data offset (s.image v)⟩

/-- Write a value of a shape at an address. -/
def store (m : Memory) (addr : UInt64) (s : Shape) (v : Value) : Except TrapKind Memory :=
  (m.place addr s.size).map (m.put s v)

/-- Set the bytes of an array from `start` to `stop` to zero; those behind its end are appended. -/
def clear (bytes : Array UInt8) (start stop : Nat) : Array UInt8 :=
  (List.range' start (stop - start)).foldl
    (fun b i => if i < b.size then b.setIfInBounds i 0 else b.push 0) bytes

/-- Extend an array by zeros to a size. -/
def extend (bytes : Array UInt8) (size : Nat) : Array UInt8 :=
  bytes ++ Array.replicate (size - bytes.size) 0

/-- Open a frame of zeros on the stack. -/
def openFrame (m : Memory) (start stop : Nat) : Memory :=
  match m with
  | ⟨stack, data⟩ => ⟨clear (extend stack start) start stop, data⟩

/-- Extend the data segment by zeros. -/
def extendData (m : Memory) (size : Nat) : Memory :=
  match m with
  | ⟨stack, data⟩ => ⟨stack, extend data size⟩

end Memory

end Comptime
