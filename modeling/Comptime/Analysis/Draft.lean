import Comptime.Analysis.Basic

/-!
# Functions under construction

A draft is a function whose body is being written. Instructions go to the end of the current block;
what would follow the end of a block goes to a block of its own that nothing leads to. Along with
each block the draft keeps whether it can be reached from the start.
-/

namespace Comptime

/-- Where a loop goes on and where it ends. -/
structure LoopTargets where
  next : BlockId
  stop : BlockId
  /-- The number of blocks with deferred statements around the loop. -/
  depth : Nat

/-- A deferred statement and the scope in which it stands. -/
abbrev Deferred := NodeId × ScopeId

/-- A function under construction. -/
structure Draft where
  func : Function
  current : BlockId
  /-- The reachable blocks. -/
  reachable : List BlockId
  /-- The loops around the current place, the innermost first. -/
  loops : List LoopTargets
  /-- The deferred statements of the blocks around, the innermost block and the latest statement
  first. -/
  defers : List (List Deferred)
  /-- A deferred statement is being written. -/
  inDefer : Bool

namespace Draft

/-- A new, empty block that nothing leads to yet. -/
def addBlock (d : Draft) (name : String) : Draft × BlockId :=
  let id := d.func.blocks.nextId
  ({ d with func := { d.func with blocks := d.func.blocks.push ⟨name, #[]⟩ } }, id)

/-- A function with an empty first block. -/
def start (func : Function) : Draft :=
  let entry := func.blocks.nextId
  { func := { func with blocks := func.blocks.push ⟨"entry", #[]⟩ }
    current := entry, reachable := [entry], loops := [], defers := [], inDefer := false }

/-- A draft that is evaluated at compile time or not at all. -/
def temporary (name : String) (span : Span) : Draft :=
  start { Function.declare name .void [] .void span with flavor := .comptimeOnly }

/-- A draft of which nothing is kept; it serves to find out types. -/
def scratch (span : Span) : Draft := temporary "<scratch>" span

/-- The current block has come to its end. -/
def isTerminated (d : Draft) : Bool := (d.func.terminator? d.current).isSome

/-- The current block can be reached. -/
def isReachable (d : Draft) : Bool := d.reachable.contains d.current

/-- Move to a new block if the current one has come to its end. -/
def ready (d : Draft) : Draft :=
  if d.isTerminated then
    let (d, dead) := d.addBlock "dead"
    { d with current := dead }
  else d

/-- Write an instruction. -/
def emit (d : Draft) (kind : InstrKind) (ty : TypeId) (span : Span) : Draft × InstrId :=
  let d := d.ready
  let id := d.func.instrs.nextId
  ({ d with func := d.func.append ⟨kind, ty, span, d.current⟩ }, id)

/-- Note that the current place leads to a block. -/
def mark (d : Draft) (target : BlockId) : Draft :=
  if d.isReachable && !d.isTerminated then { d with reachable := target :: d.reachable } else d

/-- Write an instruction that leads to other blocks. -/
def emitExit (d : Draft) (kind : InstrKind) (targets : List BlockId) (span : Span) : Draft :=
  ((targets.foldl mark d).emit kind .void span).1

/-- Go to a block, unless the current one has come to its end. -/
def jump (d : Draft) (target : BlockId) (span : Span) : Draft :=
  if d.isTerminated then d else d.emitExit (.jump target) [target] span

/-- A new variable; its place in the frame is found later. -/
def addSlot (d : Draft) (name : String) (ty : TypeId) (span : Span) : Draft × SlotId :=
  let id := d.func.slots.nextId
  ({ d with func := { d.func with slots := d.func.slots.push ⟨name, ty, 0, span⟩ } }, id)

/-- The deferred statements of all blocks inside the outermost `depth`, in order of execution. -/
def pending (d : Draft) (depth : Nat) : List Deferred :=
  (d.defers.take (d.defers.length - depth)).flatten

end Draft

/-- Steps of analysis that write code. -/
abbrev Lower := StateT Draft Analysis

namespace Lower

/-- Write an instruction. -/
def emit (kind : InstrKind) (ty : TypeId) (span : Span) : Lower InstrId :=
  modifyGet fun d =>
    let (d, id) := d.emit kind ty span
    (id, d)

/-- A new, empty block. -/
def addBlock (name : String) : Lower BlockId :=
  modifyGet fun d =>
    let (d, id) := d.addBlock name
    (id, d)

/-- A new variable. -/
def addSlot (name : String) (ty : TypeId) (span : Span) : Lower SlotId :=
  modifyGet fun d =>
    let (d, id) := d.addSlot name ty span
    (id, d)

/-- Go on writing at the end of a block. -/
def moveTo (b : BlockId) : Lower Unit := modify fun d => { d with current := b }

/-- Go to a block, unless the current one has come to its end. -/
def jump (target : BlockId) (span : Span) : Lower Unit := modify fun d => d.jump target span

/-- Go to one of two blocks. -/
def branch (cond : InstrId) (yes no : BlockId) (span : Span) : Lower Unit :=
  modify fun d => d.emitExit (.branch cond yes no) [yes, no] span

/-- Go to the block of a value, or to `otherwise`. -/
def switch (value : InstrId) (cases : List (UInt64 × BlockId)) (otherwise : BlockId) (span : Span) :
    Lower Unit :=
  modify fun d =>
    d.emitExit (.switch value cases otherwise) (cases.map Prod.snd ++ [otherwise]) span

/-- Write into another draft, of which nothing is kept. -/
def aside {α : Type} (d : Draft) (x : Lower α) : Analysis α := x.run' d

end Lower

end Comptime
