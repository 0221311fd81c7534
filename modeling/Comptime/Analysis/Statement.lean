import Comptime.Analysis.Binding
import Comptime.Analysis.Operation

/-!
# Statements

A deferred statement is written again at every exit of its block: at its end, and before every jump
out of it. There the latest statement comes first, and the innermost block.
-/

namespace Comptime.Lower

/-! ## Blocks and deferred statements -/

/-- Write deferred statements. -/
def runDeferred (w : Walk) (stmts : List Deferred) : Lower Unit := do
  let outer := (← get).inDefer
  modify fun d => { d with inDefer := true }
  stmts.forM fun (n, scope) => w.stmt scope n
  modify fun d => { d with inDefer := outer }

/-- The deferred statements of the innermost block, which is left. -/
def closeBlock : Lower (List Deferred) :=
  modifyGet fun d => (d.defers.headD [], { d with defers := d.defers.tail })

def block (w : Walk) (scope : ScopeId) (stmts : List NodeId) : Lower Unit := do
  let inner ← Analysis.createScope .lexical scope
  modify fun d => { d with defers := [] :: d.defers }
  stmts.forM (w.stmt inner)
  let deferred ← closeBlock
  -- a jump out of the block has written them already
  unless (← get).isTerminated do runDeferred w deferred

/-- Defer a statement to the exits of the block. -/
def defer (scope : ScopeId) (inner : NodeId) (span : Span) : Lower Unit := do
  if (← get).inDefer then
    Analysis.typeError span "`defer` is not allowed in a deferred statement"
  if let .decl _ := (← Analysis.node inner).kind then
    Analysis.typeError span "declarations cannot be deferred"
  match (← get).defers with
  | [] => Analysis.typeError span "`defer` outside of a block"
  | stmts :: outer => modify fun d => { d with defers := ((inner, scope) :: stmts) :: outer }

/-! ## Control -/

def condition (w : Walk) (scope : ScopeId) (n : NodeId) : Lower InstrId := do
  materialize (← boolean w scope n)

/-- Choose between two statements. -/
def choose (w : Walk) (scope : ScopeId) (cond yes : NodeId) (no : Option NodeId) (span : Span) :
    Lower Unit := do
  let cond ← condition w scope cond
  let yesBlock ← addBlock "if.then"
  match no with
  | some no =>
    let noBlock ← addBlock "if.else"
    let stop ← addBlock "if.end"
    branch cond yesBlock noBlock span
    arm yesBlock yes stop
    arm noBlock no stop
    moveTo stop
  | none =>
    let stop ← addBlock "if.end"
    branch cond yesBlock stop span
    arm yesBlock yes stop
    moveTo stop
where
  /-- Write a statement into a block that goes on at `stop`. -/
  arm (b : BlockId) (n : NodeId) (stop : BlockId) : Lower Unit := do
    moveTo b
    w.stmt scope n
    jump stop span

/-- Go into the body of a loop if its condition holds, and to `stop` if not. -/
def enterLoop (w : Walk) (scope : ScopeId) (cond : Option NodeId) (body stop : BlockId)
    (span : Span) : Lower Unit := do
  match cond with
  | some cond => branch (← condition w scope cond) body stop span
  | none => jump body span

/-- Repeat a statement. -/
def repeatLoop (w : Walk) (scope : ScopeId) (cond : Option NodeId) (body : NodeId) (span : Span) :
    Lower Unit := do
  let condBlock ← addBlock "loop.cond"
  let bodyBlock ← addBlock "loop.body"
  let stop ← addBlock "loop.end"
  jump condBlock span
  moveTo condBlock
  enterLoop w scope cond bodyBlock stop span
  modify fun d => { d with loops := ⟨condBlock, stop, d.defers.length⟩ :: d.loops }
  moveTo bodyBlock
  w.stmt scope body
  modify fun d => { d with loops := d.loops.tail }
  jump condBlock span
  moveTo stop

/-- Leave the innermost loop or go on with its next round. -/
def exitLoop (w : Walk) (word : String) (target : LoopTargets → BlockId) (span : Span) :
    Lower Unit := do
  let d ← get
  if d.inDefer then
    Analysis.typeError span ("`" ++ word ++ "` is not allowed in a deferred statement")
  match d.loops with
  | [] => Analysis.typeError span ("`" ++ word ++ "` outside of a loop")
  | targets :: _ =>
    runDeferred w (d.pending targets.depth)
    jump (target targets) span

/-- Return from the function. The value is computed before the deferred statements. -/
def giveBack (w : Walk) (scope : ScopeId) (value : Option NodeId) (span : Span) : Lower Unit := do
  let func := (← get).func
  if (← get).inDefer then
    Analysis.typeError span "`return` is not allowed in a deferred statement"
  match value with
  | some value =>
    if func.ret = .void then
      Analysis.typeError span ("function `" ++ func.name ++ "` cannot return a value")
    let id ← materialize (← coerce (← w.expr scope value) func.ret)
    runDeferred w ((← get).pending 0)
    let _ ← emit (.ret (some id)) .void span
  | none =>
    if func.ret ≠ .void then
      Analysis.typeError span ("function `" ++ func.name ++ "` must return a value of type " ++
        (← Analysis.quoted func.ret))
    runDeferred w ((← get).pending 0)
    let _ ← emit (.ret none) .void span

/-! ## Switches -/

/-- The jumps of a switch, as far as its cases have been read. -/
structure SwitchTable where
  cases : List (UInt64 × BlockId)
  otherwise : Option BlockId
  arms : List (BlockId × NodeId)

def addCaseValue (w : Walk) (scope : ScopeId) (ty : TypeId) (b : BlockId)
    (cases : List (UInt64 × BlockId)) (n : NodeId) : Lower (List (UInt64 × BlockId)) := do
  let (v, _) ← Analysis.comptimeValue w scope n (some ty)
  match v.asBits with
  | some bits =>
    if (cases.lookup bits).isSome then
      Analysis.typeError (← Analysis.spanOf n) ("duplicate switch case `" ++ v.text ++ "`")
    return cases ++ [(bits, b)]
  | none => Analysis.typeError (← Analysis.spanOf n) "switch case must be an integer constant"

def addCase (w : Walk) (scope : ScopeId) (ty : TypeId) (table : SwitchTable) (c : Case) :
    Lower SwitchTable := do
  if c.values.isEmpty then
    let b ← addBlock "switch.default"
    if table.otherwise.isSome then
      Analysis.typeError c.span "switch has more than one default case"
    return { table with otherwise := some b, arms := table.arms ++ [(b, c.body)] }
  let b ← addBlock "switch.case"
  let cases ← c.values.foldlM (addCaseValue w scope ty b) table.cases
  return { table with cases, arms := table.arms ++ [(b, c.body)] }

/-- Choose a statement by an integer or an enum. -/
def switchStmt (w : Walk) (scope : ScopeId) (value : NodeId) (cases : List Case) (span : Span) :
    Lower Unit := do
  let op ← w.value scope value
  if ((← Analysis.types).intInfo op.ty).isNone then
    Analysis.typeError op.span
      ("cannot switch on a value of type " ++ (← Analysis.quoted op.ty))
  let value ← materialize op
  let stop ← addBlock "switch.end"
  let table ← cases.foldlM (addCase w scope op.ty) ⟨[], none, []⟩
  switch value table.cases (table.otherwise.getD stop) span
  table.arms.forM fun (b, body) => do
    moveTo b
    w.stmt scope body
    jump stop span
  moveTo stop

/-! ## Variables -/

/-- The value that an assignment stores: the one that is given, or the result of an operator on the
value that is there and the one that is given. -/
def assignedValue (op : Option BinaryOp) (place value : Operand) (span : Span) : Lower Operand := do
  match op with
  | some op =>
    let current ← rvalue place
    binary op current (← rvalue value) span
  | none => return value

/-- Assign to a place, plainly or after an operator. -/
def assign (w : Walk) (scope : ScopeId) (op : Option BinaryOp) (target value : NodeId)
    (span : Span) : Lower Unit := do
  let place ← w.expr scope target
  let .place ptr := place.kind
    | Analysis.typeError span "left side of an assignment must be a variable"
  unless place.mutable do
    Analysis.typeError span "cannot assign to an immutable value"
  let value ← assignedValue op place (← w.expr scope value) span
  let value ← materialize (← coerce value place.ty)
  let _ ← emit (.store ptr value) .void span

/-- The first value of a variable. -/
def initialValue (w : Walk) (scope : ScopeId) (n : NodeId) (d : Decl) (span : Span) :
    Lower Operand := do
  let declared ← w.typeExpr? scope d.ty
  match d.value, declared with
  | some value, some ty => coerce (← w.expr scope value) ty
  | some value, none => w.value scope value
  | none, some ty => return .constant (← Analysis.zeroValue ty span) ty span
  | none, none => Analysis.malformed n "declaration without type or value"

/-- What an immutable name stands for, if it needs no variable. -/
def constantBinding (op : Operand) : Option SymbolValue :=
  match op.kind with
  | .const (.type ty) => some (.type ty)
  | .const (.fn f) => some (.fn f)
  | .const v => some (.const op.ty v)
  | .group members => some (.group members)
  | .poly recipe => some (.poly recipe)
  | .scope id => some (.scope id)
  | .instr _ | .place _ => none

def isValue (op : Operand) : Bool :=
  match op.kind with
  | .const _ | .instr _ | .place _ => true
  | .group _ | .poly _ | .scope _ => false

/-- Put a value into a new variable. -/
def newVariable (name : String) (op : Operand) (mutable : Bool) (span : Span) :
    Lower SymbolValue := do
  Analysis.checkStorage op.ty mutable span
  let stored ← materialize op
  let slot ← addSlot name op.ty span
  let ptr ← emit (.slotPtr slot) (← Analysis.ptrTo op.ty) span
  let _ ← emit (.store ptr stored) .void span
  return .slot slot op.ty

/-- What the name of a local declaration stands for. -/
def localBinding (d : Decl) (op : Operand) (span : Span) : Lower SymbolValue := do
  if d.mutable then
    unless isValue op do Analysis.typeError span ("`" ++ d.name ++ "` cannot be mutable")
    newVariable d.name op true span
  else
    match constantBinding op with
    | some bound => return bound
    | none => newVariable d.name op false span

/-- A declaration inside a function. -/
def localDecl (w : Walk) (scope : ScopeId) (n : NodeId) (d : Decl) (span : Span) : Lower Unit := do
  let symbol : SymbolState → Symbol := fun state =>
    ⟨d.name, .slot, d.mutable, scope, none, span, state⟩
  let ast := (← read).ast
  if d.value.any fun value => (ast.kind value).bindsDirectly then
    -- entered first, so that a type can refer to itself
    let id ← Analysis.declareSymbol (symbol (.unresolved none))
    if let some bound ← Analysis.directBinding w scope d id then
      Analysis.resolveSymbol id bound
  else
    let op ← initialValue w scope n d span
    let bound ← localBinding d op span
    let _ ← Analysis.declareSymbol (symbol (.resolved bound))

/-! ## All statements -/

/-- An assertion that is checked during analysis. -/
def staticAssert (w : Walk) (scope : ScopeId) (cond : NodeId) (message : String) (span : Span) :
    Analysis Unit := do
  match (← Analysis.comptimeValue w scope cond (some .bool)).1 with
  | .bool false => Analysis.trapAt (.assertionFailed message) span
  | _ => return

/-- A statement. An expression as a statement is executed and its value dropped. -/
def statement (w : Walk) (scope : ScopeId) (n : NodeId) : Lower Unit := do
  let ⟨kind, span⟩ ← Analysis.node n
  match kind with
  | .decl d => localDecl w scope n d span
  | .block stmts => block w scope stmts
  | .branch cond yes no => choose w scope cond yes no span
  | .loop cond body => repeatLoop w scope cond body span
  | .leaveLoop => exitLoop w "break" LoopTargets.stop span
  | .nextRound => exitLoop w "continue" LoopTargets.next span
  | .ret value => giveBack w scope value span
  | .switch value cases => switchStmt w scope value cases span
  | .defer inner => defer scope inner span
  | .assign op target value => assign w scope op target value span
  | .unreachable =>
    let _ ← emit .unreachable .void span
  | .assert cond message =>
    let cond ← condition w scope cond
    let _ ← emit (.assert cond message) .void span
  | .staticAssert cond message => staticAssert w scope cond message span
  | .namedScope _ _ => Analysis.malformed n "scopes can only be declared at top level"
  | _ =>
    let _ ← w.value scope n

end Comptime.Lower
