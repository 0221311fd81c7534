import Comptime.Analysis.Statement

/-!
# Bodies of functions
-/

namespace Comptime

namespace Lower

/-- Enter the parameters as variables. -/
def parameters (scope : ScopeId) (params : List (Field × TypeId)) : Lower Unit :=
  params.forM fun (p, ty) => do
    let slot ← addSlot p.name ty p.span
    modify fun d => { d with func := { d.func with paramSlots := d.func.paramSlots ++ [slot] } }
    let _ ← Analysis.declareSymbol
      ⟨p.name, .argument, false, scope, none, p.span, .resolved (.slot slot ty)⟩

/-- End the last block of a body. -/
def closeBody (span : Span) : Lower Unit := do
  let d ← get
  unless d.isTerminated do
    if !d.isReachable then
      let _ ← emit .unreachable .void span
    else if d.func.ret = .void then
      let _ ← emit (.ret none) .void span
    else
      Analysis.typeError span ("function `" ++ d.func.name ++ "` must return a value of type " ++
        (← Analysis.quoted d.func.ret))

/-- Write the body of a function. -/
def body (w : Walk) (source : Source) (lit : FnLiteral) (n : NodeId) : Lower Unit := do
  let func := (← get).func
  let scope ← Analysis.fnScope source.scope source.bindings
  parameters scope (lit.sig.params.zip func.params)
  match (← Analysis.node n).kind with
  | .block stmts => block w scope stmts
  | _ => w.stmt scope n
  closeBody func.span

end Lower

namespace Analysis

/-- The draft of a body that is being analysed, with the places of its variables. -/
def writeBody (w : Walk) (f : FnId) (source : Source) (lit : FnLiteral) (n : NodeId) :
    Analysis Draft := do
  let func := (← code).function f
  let header := { Function.declare func.name func.ty func.params func.ret func.span with
    flavor := func.flavor }
  let (_, d) ← (Lower.body w source lit n).run (.start header)
  match d.func.layoutFrame (← types) with
  | (_, some e) => layoutHalt e func.span
  | (func, none) => return { d with func }

/-- The draft of the body of a function. -/
def draftBody (w : Walk) (f : FnId) : Analysis Draft := do
  let some source := (← get).sources.get? f | internal (f.text ++ " has no source")
  let lit ← fnLiteral source.lit
  let some n := lit.body | malformed source.lit "function body task without a body"
  modify fun t =>
    { t with code := t.code.modifyFn f fun func => { func with state := .analyzing } }
  writeBody w f source lit n

/-- Analyse the body of a function. -/
def analyzeBody (w : Walk) (f : FnId) : Analysis Unit := do
  let d ← withReader (fun c => { c with owner := some f }) (draftBody w f)
  modify fun t =>
    { t with code := t.code.modifyFn f fun func =>
        { func.install d.func with state := .analyzed } }

end Analysis

end Comptime
