import Comptime.Analysis.Walk

/-!
# Declarations of functions

A function is declared once for each function in whose body its literal is met, and a polymorphic
one once for each list of types that its parameters bind. Its body is left to a task of its own.
-/

namespace Comptime.Analysis

/-- The function literal at a node. -/
def fnLiteral (n : NodeId) : Analysis FnLiteral := do
  match (← node n).kind with
  | .fnLit lit => return lit
  | _ => malformed n "expected a function literal"

/-- A scope for a function, with the types that a specialization binds. -/
def fnScope (parent : ScopeId) (bindings : List (String × TypeId)) : Analysis ScopeId := do
  let scope ← createScope .function parent
  bindings.forM fun (name, ty) => do
    let _ ← insertSymbol ⟨name, .slot, false, scope, none, .dummy, .resolved (.type ty)⟩
  return scope

def paramTypes (w : Walk) (scope : ScopeId) (params : List Field) : Analysis (List TypeId) :=
  params.mapM fun p => do
    let ty ← w.typeExpr scope p.ty
    if ty = .void then typeError p.span "parameters cannot have type `void`"
    return ty

/-- Add a function to the code and, unless the host carries it out, submit the task of its body. -/
def addFunction (func : Function) (source : Source) : Analysis FnId :=
  modifyGet fun t =>
    let id := t.code.fns.nextId
    let scheduler :=
      if func.native.isSome then t.scheduler else (t.scheduler.submit (.body id)).1
    (id, { t with
      code := { t.code with fns := t.code.fns.push func }
      sources := t.sources.push source
      scheduler })

/-- The function of a literal, without a body. -/
def fnHead (w : Walk) (scope : ScopeId) (n : NodeId) (name : String)
    (bindings : List (String × TypeId)) : Analysis Function := do
  let lit ← fnLiteral n
  let span ← spanOf n
  let sigScope ← fnScope scope bindings
  let params ← paramTypes w sigScope lit.sig.params
  let ret := (← w.typeExpr? sigScope lit.sig.ret).getD .void
  let ty ← intern (.fn params ret)
  if lit.test && (!params.isEmpty || ret != .void || lit.body.isNone) then
    typeError span ("test case `" ++ name ++ "` must be a `fn()` with a body")
  let func :=
    { Function.declare name ty params ret span with
      flavor := if lit.comptime then .comptimeOnly else .runtime
      test := lit.test }
  match lit.external, lit.body with
  | some linkage, none => return { func with native := some linkage, state := .analyzed }
  | none, some _ => return func
  | _, _ => malformed n "function needs either a body or an external name"

/-- Declare the function of a literal. -/
def declareFn (w : Walk) (scope : ScopeId) (n : NodeId) (name : String)
    (bindings : List (String × TypeId)) : Analysis FnId := do
  addFunction (← fnHead w scope n name bindings) ⟨n, scope, bindings⟩

/-- The recipe of a polymorphic literal. -/
def bindRecipe (scope : ScopeId) (n : NodeId) (name : String) : Analysis RecipeId := do
  let key : Occurrence := (n, (← read).owner)
  modifyGet fun t =>
    match t.polyLiterals.lookup key with
    | some recipe => (recipe, t)
    | none =>
      let recipe := t.recipes.nextId
      (recipe, { t with
        recipes := t.recipes.push ⟨name, n, scope⟩
        polyLiterals := (key, recipe) :: t.polyLiterals })

/-- The function or the recipe of a literal. -/
def bindFnLiteral (w : Walk) (scope : ScopeId) (n : NodeId) (name : String) :
    Analysis (FnId ⊕ RecipeId) := do
  let lit ← fnLiteral n
  let ast := (← read).ast
  if lit.sig.params.any fun p => ast.isPoly p.ty then
    if lit.external.isSome then
      typeError (← spanOf n) "external functions cannot be polymorphic"
    return .inr (← bindRecipe scope n name)
  let key : Occurrence := (n, (← read).owner)
  match (← get).fnLiterals.lookup key with
  | some f => return .inl f
  | none =>
    let f ← declareFn w scope n name []
    modify fun t => { t with fnLiterals := (key, f) :: t.fnLiterals }
    return .inl f

end Comptime.Analysis
