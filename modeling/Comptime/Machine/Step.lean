import Comptime.Machine.Basic
import Comptime.Operator.Eval

/-!
# Execution

`Machine.step` executes one instruction of the innermost call. `Machine.run` executes a function of
the code and `Machine.runFn` one that need not be part of it.
-/

namespace Comptime.Machine

/-- Stop with a trap. -/
def trap {α : Type} (kind : TrapKind) (span : Span) : Exec α := throw (.trap ⟨kind, span⟩)

/-- Stop because the code is not well formed. -/
def invalid {α : Type} (message : String) (span : Span) : Exec α :=
  trap (.invalidOperation message) span

/-- The value of a computation, or its trap at a place. -/
def orTrap {α : Type} (span : Span) : Except TrapKind α → Exec α
  | .ok a => pure a
  | .error kind => trap kind span

/-- The value of a computation on layouts, or the trap of a type without one. -/
def orNoLayout {α : Type} (span : Span) : Except LayoutError α → Exec α
  | .ok a => pure a
  | .error e => invalid ("no memory layout: " ++ e.listing) span

/-! ## Registers and control -/

/-- The innermost call. -/
def frame : Exec Frame := return (← get).frames.headD default

/-- Change the innermost call. -/
@[inline] def modifyFrame (f : Frame → Frame) : Exec Unit :=
  modify fun m =>
    match m with
    | ⟨memory, top, globals, frame :: rest, state⟩ => ⟨memory, top, globals, f frame :: rest, state⟩
    | m => m

/-- The value of a register. -/
def reg (i : InstrId) : Exec Value := return (← frame).regs.getD i.index .void

/-- Set a register. -/
def setReg (i : InstrId) (v : Value) : Exec Unit :=
  modifyFrame fun f => { f with regs := f.regs.setIfInBounds i.index v }

/-- Go on with the instruction after the current one. -/
def advance : Exec Unit := modifyFrame fun f => { f with pos := f.pos + 1 }

/-- Go on at the start of a block. -/
def jump (target : BlockId) : Exec Unit :=
  modifyFrame fun f => { f with prev := some f.block, block := target, pos := 0 }

/-- The address in a register. -/
def address (i : InstrId) (span : Span) : Exec UInt64 := do
  match ← reg i with
  | .ptr addr => return addr
  | other => invalid ("expected pointer, found " ++ other.text) span

/-- The index in a register. -/
def indexValue (i : InstrId) (span : Span) : Exec Int64 := do
  match (← reg i).asSigned with
  | some n => return n
  | none => invalid "non-integer index" span

/-! ## Memory -/

/-- Read a value of a type. -/
def load (env : Setting) (addr : UInt64) (ty : TypeId) (span : Span) : Exec Value := do
  let shape ← orNoLayout span (env.types.shape ty)
  orTrap span ((← get).memory.load addr shape)

/-- Write a value of a type. -/
def store (env : Setting) (addr : UInt64) (ty : TypeId) (v : Value) (span : Span) : Exec Unit := do
  let shape ← orNoLayout span (env.types.shape ty)
  let place ← orTrap span ((← get).memory.place addr shape.size)
  modify fun m =>
    match m with
    | ⟨memory, top, globals, frames, state⟩ =>
      ⟨memory.put shape v place, top, globals, frames, state⟩

/-- Change the memory as a whole. -/
@[inline] def modifyMemory (f : Memory → Memory) : Exec Unit :=
  modify fun m =>
    match m with
    | ⟨memory, top, globals, frames, state⟩ => ⟨f memory, top, globals, frames, state⟩

/-- The address of a global, which gets its place when it is first used. The addresses of data do not run out before
the limit is met: no host has the memory for a segment of that size. -/
def globalAddress (env : Setting) (g : GlobalId) (span : Span) : Exec UInt64 := do
  match (← get).globals.lookup g with
  | some addr => return addr
  | none =>
    let global := env.code.global g
    let layout ← orNoLayout span (env.types.layout global.ty)
    let offset := alignUp (← get).memory.data.size layout.align
    let stop := offset + layout.size
    unless Memory.dataBase + stop < TypeTable.addressSpace && stop ≤ env.limits.maxDataSize do
      trap .outOfMemory span
    modifyMemory (·.extendData stop)
    let addr := UInt64.ofNat (Memory.dataBase + offset)
    store env addr global.ty global.value span
    modify fun m => { m with globals := (g, addr) :: m.globals }
    return addr

/-! ## Calls -/

/-- A function that can be executed now. -/
def callable (env : Setting) (f : FnId) (span : Span) : Exec Function :=
  match env.code.fns.get? f with
  | none => throw (.missing f)
  | some func =>
    if func.native.isSome then return func
    else
      match func.state with
      | .analyzed => return func
      | .pending | .analyzing => throw (.postponed f)
      | .failed => trap (.incompleteFunction func.name) span

/-- Let the host carry out an external function. -/
def callHost (env : Setting) (func : Function) (name : String) (args : List Value) (span : Span) :
    Exec Value := do
  let v ← orTrap span ((env.host.call name args).mapError .native)
  if v.fits env.types func.ret then return v
  else
    trap (.native ("`" ++ name ++ "` returned " ++ v.text ++ ", expected a value of type `" ++
      env.types.name func.ret ++ "`")) span

/-- Start a call: open its frame and put the arguments into their slots. -/
def pushFrame (env : Setting) (func : Function) (args : List Value) (result : Option InstrId)
    (span : Span) : Exec Unit := do
  let savedTop := (← get).top
  if env.limits.maxFrames ≤ (← get).frames.length then trap .stackOverflow span
  let start := alignUp savedTop Memory.frameAlign
  let stop := start + func.frameSize
  unless stop < TypeTable.addressSpace && stop ≤ env.limits.stackSize do
    trap .stackOverflow span
  modifyMemory (·.openFrame start stop)
  let base := Memory.stackBase + start
  (func.paramSlots.zip args).forM fun (slot, arg) =>
    let slot := func.slot slot
    store env (UInt64.ofNat (base + slot.offset)) slot.ty arg span
  let frame : Frame :=
    { func, block := Function.entry, pos := 0, prev := none, base, savedTop, result,
      regs := Array.replicate func.instrs.size .void }
  modify fun m => { m with frames := frame :: m.frames, top := stop }

/-- Return a value to the caller, or from the run if there is none. -/
def leave (v : Value) : Exec (Option Value) :=
  modifyGet fun m =>
    match m with
    | ⟨memory, _, globals, frame :: caller :: rest, state⟩ =>
      match frame.result with
      | some i =>
        let caller := { caller with regs := caller.regs.setIfInBounds i.index v }
        (none, ⟨memory, frame.savedTop, globals, caller :: rest, state⟩)
      | none => (some v, ⟨memory, frame.savedTop, globals, caller :: rest, state⟩)
    | ⟨memory, top, globals, frames, state⟩ =>
      (some v, ⟨memory, (frames.head?.map Frame.savedTop).getD top, globals, [], state⟩)

/-! ## Instructions -/

/-- An address behind another one, which must not be null. -/
def behind (start offset : UInt64) (span : Span) : Exec UInt64 := do
  if start = 0 then trap .nullDereference span
  return start + offset

/-- Where the elements behind a pointer start, and how many there are if that is known. -/
def elements (env : Setting) (base : InstrId) (bound : Bound) (span : Span) :
    Exec (UInt64 × Option UInt64) := do
  match bound with
  | .array len => return (← address base span, some len)
  | .slice =>
    let slice ← address base span
    let len ← load env slice .u64 span
    let ptr ← load env (slice + 8) .u64 span
    return (ptr.asBits.getD 0, some (len.asBits.getD 0))
  | .unchecked => return (← address base span, none)

def elemAddress (env : Setting) (ty : TypeId) (base index : InstrId) (bound : Bound) (span : Span) :
    Exec UInt64 := do
  let some elem := env.types.pointee ty | invalid "element pointer of non-pointer" span
  let stride ← orNoLayout span (env.types.elemStride elem)
  let i ← indexValue index span
  let (start, len) ← elements env base bound span
  if let some len := len then
    if i < 0 || len ≤ i.toUInt64 then trap (.outOfBounds i.toInt len.toNat) span
  behind start (i.toUInt64 * UInt64.ofNat stride) span

/-- The offset of a member of the struct or slice behind a pointer. -/
def memberOffset (env : Setting) (ty : TypeId) (index : Nat) (span : Span) : Exec Nat :=
  match (env.types.pointee ty).map env.types.kind with
  | some (.struct id) => do
    let offsets ← orNoLayout span (env.types.memberOffsets id)
    return offsets.getD index 0
  | some (.slice _) => return index * 8
  | _ => invalid "member of non-aggregate" span

/-- The address of a member of a struct or slice. -/
def memberAddress (env : Setting) (func : Function) (base : InstrId) (index : Nat) (span : Span) :
    Exec UInt64 := do
  let offset ← memberOffset env (func.typeOf base) index span
  behind (← address base span) (UInt64.ofNat offset) span

/-- Execute a call. -/
def call (env : Setting) (id : InstrId) (callee : Callee) (args : List InstrId) (span : Span) :
    Exec Unit := do
  let target ←
    match callee with
    | .direct f => pure f
    | .indirect v =>
      match ← reg v with
      | .fn f => pure f
      | .ptr 0 => trap .nullDereference span
      | other => invalid ("call of non-function " ++ other.text) span
  let func ← callable env target span
  let args ← args.mapM reg
  match func.native with
  | some name => setReg id (← callHost env func name args span)
  | none => pushFrame env func args (some id) span

/-- Execute one instruction; a value is the result of the whole run. -/
def execute (env : Setting) (func : Function) (id : InstrId) : Exec (Option Value) := do
  let instr := func.instr id
  let span := instr.span
  match instr.kind with
  | .const v => setReg id v; return none
  | .slotPtr s =>
    setReg id (.ptr (UInt64.ofNat ((← frame).base + (func.slot s).offset)))
    return none
  | .globalPtr g => setReg id (.ptr (← globalAddress env g span)); return none
  | .load p =>
    let addr ← address p span
    setReg id (← load env addr instr.ty span)
    return none
  | .store p v =>
    let addr ← address p span
    store env addr (func.typeOf v) (← reg v) span
    return none
  | .elemPtr base index bound =>
    setReg id (.ptr (← elemAddress env instr.ty base index bound span))
    return none
  | .memberPtr base index =>
    setReg id (.ptr (← memberAddress env func base index span))
    return none
  | .binary op a b =>
    setReg id (← orTrap span (op.eval env.types (func.typeOf a) (← reg a) (← reg b)))
    return none
  | .unary op a =>
    setReg id (← orTrap span (op.eval env.types (func.typeOf a) (← reg a)))
    return none
  | .cast op a =>
    setReg id (← orTrap span (op.eval env.types instr.ty (← reg a)))
    return none
  | .compound vs => setReg id (.agg (← vs.mapM reg)); return none
  | .call callee args => call env id callee args span; return none
  | .jump target => jump target; return none
  | .branch c yes no =>
    match ← reg c with
    | .bool true => jump yes; return none
    | .bool false => jump no; return none
    | other => invalid ("branch on " ++ other.text) span
  | .switch v cases otherwise =>
    let v ← reg v
    match v.asBits with
    | some bits => jump ((cases.lookup bits).getD otherwise); return none
    | none => invalid ("switch on " ++ v.text) span
  | .phi incoming =>
    match (← frame).prev.bind fun b => incoming.lookup b with
    | some v => setReg id (← reg v); return none
    | none => invalid "phi without matching predecessor" span
  | .ret v =>
    match v with
    | some v => leave (← reg v)
    | none => leave .void
  | .unreachable => trap .unreachable span
  | .assert c message =>
    match ← reg c with
    | .bool true => return none
    | _ => trap (.assertionFailed message) span

/-- Execute the next instruction of the innermost call. -/
def step (env : Setting) : Exec (Option Value) := do
  let f ← frame
  let func := f.func
  match (func.block f.block).instrs[f.pos]? with
  | some id =>
    advance
    execute env func id
  | none => invalid "block without terminator" func.span

/-- Execute instructions until the outermost call returns. -/
def loop (env : Setting) : Nat → Exec Value
  | 0 => throw .exhausted
  | fuel + 1 => do
    match ← step env with
    | some v => return v
    | none => loop env fuel

/-! ## Runs -/

/-- The arguments of a run must have the types of the parameters. -/
def checkArgs (env : Setting) (func : Function) (args : List Value) : Exec Unit := do
  if args.length ≠ func.params.length then
    invalid ("`" ++ func.name ++ "` takes " ++ toString func.params.length ++ " argument(s), " ++
      toString args.length ++ " given") func.span
  (args.zip func.params).zipIdx.forM fun ((arg, ty), i) =>
    unless arg.fits env.types ty do
      invalid ("argument " ++ toString (i + 1) ++ " of `" ++ func.name ++ "` is " ++ arg.text ++
        ", expected a value of type `" ++ env.types.name ty ++ "`") func.span

/-- Call a function from outside and execute it to its end. -/
def enter (env : Setting) (func : Function) (args : List Value) : Exec Value := do
  checkArgs env func args
  match func.native with
  | some name => callHost env func name args func.span
  | none =>
    pushFrame env func args none func.span
    loop env env.limits.maxSteps

/-- The state in which a run leaves the machine. -/
def stateOf : Outcome → MachineState
  | .returned _ => .returned
  | .trapped trap => if trap.kind = .stackOverflow then .stackOverflow else .trapped
  | .postponed _ => .ready
  | .exhausted | .missing _ => .running

/-- End a run. -/
def finish (m : Machine) (o : Outcome) : Outcome × Machine :=
  (o, { m with frames := [], top := 0, state := stateOf o })

/-- Carry out a computation as a run of its own. -/
def conclude (m : Machine) (x : Exec Value) : Outcome × Machine :=
  match x.run m with
  | .ok v m => finish m (.returned v)
  | .error stop m => finish m stop.outcome

/-- Run a function that need not be part of the code. -/
def runFn (env : Setting) (func : Function) (args : List Value) (m : Machine) :
    Outcome × Machine :=
  conclude { m with state := .running, frames := [], top := 0 } (enter env func args)

/-- Run a function of the code. -/
def run (env : Setting) (f : FnId) (args : List Value) (m : Machine) : Outcome × Machine :=
  match (callable env f (env.code.function f).span).run m with
  | .ok func m => runFn env func args m
  | .error stop m => finish m stop.outcome

/-- Run a function of the code to its end. A function that is not analysed counts as a trap. -/
def evaluate (env : Setting) (f : FnId) (args : List Value) (m : Machine) : Outcome × Machine :=
  match run env f args m with
  | (.postponed g, m) =>
    let func := env.code.function g
    (.trapped ⟨.incompleteFunction func.name, func.span⟩, m)
  | result => result

end Comptime.Machine
