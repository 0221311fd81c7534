import Comptime.Operator.Basic
import Comptime.Type.Conversion
import Comptime.Type.Layout
import Comptime.Value.Basic

/-!
# Code

A function is a graph of blocks. A block is a sequence of instructions, the last of which says where
to go on. Every instruction has a register of its own, named by its id, and uses the registers of
instructions that were emitted before it; local variables live in slots of the frame.
-/

namespace Comptime

/-- How far the body of a function has come. -/
inductive FnState where
  | pending | analyzing | analyzed | failed
deriving DecidableEq, Repr

/-- The word of listings. -/
def FnState.name : FnState → String
  | pending => "Pending"
  | analyzing => "Analyzing"
  | analyzed => "Analyzed"
  | failed => "Failed"

/-- Where a function may be executed. -/
inductive Flavor where
  | runtime
  /-- Only ever executed at compile time. -/
  | comptimeOnly
deriving DecidableEq, Repr

/-- The word of listings. -/
def Flavor.name : Flavor → String
  | runtime => "Runtime"
  | comptimeOnly => "ComptimeOnly"

inductive Callee where
  | direct (fn : FnId)
  /-- A function value computed before. -/
  | indirect (value : InstrId)
deriving DecidableEq, Repr

/-- What is known of the length behind an element access. -/
inductive Bound where
  | array (len : UInt64)
  /-- The base points to a slice, whose length is read when the access is executed. -/
  | slice
  /-- The base is a bare pointer; nothing is checked. -/
  | unchecked
deriving DecidableEq, Repr

/-- The forms of instructions. Operands are the instructions that compute them. -/
inductive InstrKind where
  | const (value : Value)
  /-- The address of a local variable. -/
  | slotPtr (slot : SlotId)
  | globalPtr (global : GlobalId)
  | load (ptr : InstrId)
  | store (ptr value : InstrId)
  | elemPtr (base index : InstrId) (bound : Bound)
  /-- The address of a member of the struct or slice that `base` points to. -/
  | memberPtr (base : InstrId) (index : Nat)
  | binary (op : BinaryOp) (lhs rhs : InstrId)
  | unary (op : UnaryOp) (operand : InstrId)
  | cast (op : CastOp) (operand : InstrId)
  | compound (values : List InstrId)
  | call (callee : Callee) (args : List InstrId)
  | jump (target : BlockId)
  | branch (cond : InstrId) (yes no : BlockId)
  /-- Go to the block of the first case that equals the value. -/
  | switch (value : InstrId) (cases : List (UInt64 × BlockId)) (otherwise : BlockId)
  /-- The value that belongs to the block from which this one was entered. -/
  | phi (incoming : List (BlockId × InstrId))
  | ret (value : Option InstrId)
  | unreachable
  | assert (cond : InstrId) (message : String)
deriving Repr

/-- Whether the instruction ends a block. -/
def InstrKind.isTerminator : InstrKind → Bool
  | jump _ | branch _ _ _ | switch _ _ _ | ret _ | unreachable => true
  | _ => false

/-- An instruction, with the type of its result and its block. -/
structure Instr where
  kind : InstrKind
  /-- The type of the register; `void` where nothing is computed. -/
  ty : TypeId
  span : Span
  block : BlockId
deriving Repr

instance : Inhabited Instr := ⟨⟨.unreachable, .void, .dummy, ⟨0⟩⟩⟩

/-- A sequence of instructions of which the last one leads elsewhere. -/
structure Block where
  name : String
  instrs : Array InstrId
deriving Repr, Inhabited

/-- A local variable. -/
structure Slot where
  name : String
  ty : TypeId
  /-- The place in the frame. -/
  offset : Nat
  span : Span
deriving Repr

instance : Inhabited Slot := ⟨⟨"", .void, 0, .dummy⟩⟩

/-- A function of the code. -/
structure Function where
  name : String
  /-- The function type. -/
  ty : TypeId
  params : List TypeId
  ret : TypeId
  /-- The slots that receive the arguments. -/
  paramSlots : List SlotId
  slots : Pool .slot Slot
  blocks : Pool .block Block
  instrs : Pool .instr Instr
  state : FnState
  flavor : Flavor
  /-- The name under which the host carries out an external function. -/
  native : Option String
  /-- The argument types of a specialization of a polymorphic function. -/
  specialization : Option String
  /-- Whether it is a test case. -/
  test : Bool
  frameSize : Nat
  span : Span

namespace Function

/-- A function without a body. -/
def declare (name : String) (ty : TypeId) (params : List TypeId) (ret : TypeId) (span : Span) :
    Function :=
  { name, ty, params, ret, span, paramSlots := [], slots := .empty, blocks := .empty,
    instrs := .empty, state := .pending, flavor := .runtime, native := none,
    specialization := none, test := false, frameSize := 0 }

instance : Inhabited Function := ⟨declare "" .void [] .void .dummy⟩

/-- The block where execution starts. -/
def entry : BlockId := ⟨0⟩

def instr (f : Function) (i : InstrId) : Instr := f.instrs.getD i default

/-- The type of a register. -/
def typeOf (f : Function) (i : InstrId) : TypeId := (f.instr i).ty

def block (f : Function) (b : BlockId) : Block := f.blocks.getD b default

def slot (f : Function) (s : SlotId) : Slot := f.slots.getD s default

/-- The instruction that ends a block, if it is ended. -/
def terminator? (f : Function) (b : BlockId) : Option InstrKind := do
  let last ← (f.block b).instrs.back?
  let instr ← f.instrs.get? last
  if instr.kind.isTerminator then some instr.kind else none

/-- Append an instruction to the block that it names. -/
def append (f : Function) (i : Instr) : Function :=
  let id := f.instrs.nextId
  { f with
    instrs := f.instrs.push i
    blocks := f.blocks.modify i.block fun b => { b with instrs := b.instrs.push id } }

/-- Take over the body of another function. -/
def install (f body : Function) : Function :=
  { f with
    paramSlots := body.paramSlots
    slots := body.slots
    blocks := body.blocks
    instrs := body.instrs
    frameSize := body.frameSize }

/-! ## Frames -/

/-- Place slots behind the first `offset` bytes. The slots before the first that has no place are
placed in any case; the result is the end of the last slot and the greatest alignment. -/
def placeSlots (t : TypeTable) (offset align : Nat) :
    List Slot → List Slot × Except LayoutError (Nat × Nat)
  | [] => ([], .ok (offset, align))
  | s :: rest =>
    match t.layout s.ty with
    | .error e => (s :: rest, .error e)
    | .ok l =>
      let start := alignUp offset l.align
      if TypeTable.addressSpace ≤ start then (s :: rest, .error (.tooLarge s.ty))
      else if TypeTable.addressSpace ≤ start + l.size then
        ({ s with offset := start } :: rest, .error (.tooLarge s.ty))
      else
        let (placed, result) := placeSlots t (start + l.size) (max align l.align) rest
        ({ s with offset := start } :: placed, result)

/-- Give every slot its place in the frame. Where that fails, the frame size stays as it was. -/
def layoutFrame (t : TypeTable) (f : Function) : Function × Option LayoutError :=
  match placeSlots t 0 1 f.slots.toList with
  | (slots, .error e) => ({ f with slots := ⟨slots.toArray⟩ }, some e)
  | (slots, .ok (stop, align)) =>
    let f := { f with slots := ⟨slots.toArray⟩ }
    if TypeTable.addressSpace ≤ alignUp stop align then (f, some (.tooLarge f.ty))
    else ({ f with frameSize := alignUp stop align }, none)

end Function

/-- A global variable or constant with its initial value. -/
structure Global where
  name : String
  ty : TypeId
  value : Value
  mutable : Bool
  span : Span
deriving Repr

instance : Inhabited Global := ⟨⟨"", .void, .void, false, .dummy⟩⟩

/-- All functions and globals of a session. -/
structure Code where
  fns : Pool .function Function
  globals : Pool .global Global
deriving Inhabited

namespace Code

def empty : Code := ⟨.empty, .empty⟩

def function (c : Code) (f : FnId) : Function := c.fns.getD f default

def global (c : Code) (g : GlobalId) : Global := c.globals.getD g default

/-- The first function of a name. -/
def find? (c : Code) (name : String) : Option FnId := c.fns.findId? (·.name == name)

/-- Change a function in place. -/
def modifyFn (c : Code) (f : FnId) (change : Function → Function) : Code :=
  { c with fns := c.fns.modify f change }

end Code

end Comptime
