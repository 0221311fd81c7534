import Comptime.Analysis.FunctionDeclaration

/-!
# Polymorphic functions

A call of a polymorphic function matches the types of the arguments with the type expressions of the
parameters. Calls that bind the same types share one specialization.
-/

namespace Comptime

/-- The types bound to the type parameters, in the order in which they were met. -/
abbrev Bindings := List (String × TypeId)

/-- Why a type expression does not match a type. -/
inductive Clash where
  /-- The types differ in form. -/
  | form (actual : TypeId)
  /-- A type parameter stands for two types. -/
  | conflict (name : String) (bound actual : TypeId)

def Clash.message (t : TypeTable) : Clash → String
  | form actual =>
    "cannot infer polymorphic types from an argument of type `" ++ t.name actual ++ "`"
  | conflict name bound actual =>
    "conflicting types for `?" ++ name ++ "`: `" ++ t.name bound ++ "` and `" ++ t.name actual ++
      "`"

/-- Bind a type parameter to a type. -/
def Bindings.bind (b : Bindings) (name : String) (actual : TypeId) : Except Clash Bindings :=
  if actual = .null || actual = .void then .error (.form actual)
  else
    match b.lookup name with
    | some bound => if bound = actual then .ok b else .error (.conflict name bound actual)
    | none => .ok (b ++ [(name, actual)])

/-- Match a type expression with a type, at most `fuel` nodes deep. Where the expression mentions no
type parameter, any type will do. -/
def Bindings.matchType (a : Ast) (t : TypeTable) :
    Nat → NodeId → TypeId → Bindings → Except Clash Bindings
  | 0, _, actual, _ => .error (.form actual)
  | fuel + 1, pattern, actual, b =>
    if !a.isPoly pattern then .ok b
    else
      match a.kind pattern, t.kind actual with
      | .polyType name, _ => b.bind name actual
      | .ptrType inner, .ptr target => matchType a t fuel inner target b
      | .sliceType inner, .slice elem => matchType a t fuel inner elem b
      | .arrayType _ inner, .array elem _ => matchType a t fuel inner elem b
      | .fnType sig, .fn params ret =>
        if sig.params.length = params.length then do
          let b ← (sig.params.zip params).foldlM
            (fun b (p, ty) => matchType a t fuel p.ty ty b) b
          match sig.ret with
          | some pattern => matchType a t fuel pattern ret b
          | none => .ok b
        else .error (.form actual)
      | _, _ => .error (.form actual)

namespace Analysis

/-- The types that the arguments of a call bind. -/
def inferBindings (params : List Field) (args : List Operand) : Analysis Bindings := do
  let a := (← read).ast
  let t ← types
  (params.zip args).foldlM (fun b (param, arg) =>
    match arg.kind with
    | .group _ | .poly _ | .scope _ =>
      if a.isPoly param.ty then
        typeError arg.span "cannot infer a polymorphic type from this argument"
      else return b
    | _ =>
      match Bindings.matchType a t (a.size + 1) param.ty arg.ty b with
      | .ok b => return b
      | .error clash => typeError arg.span (clash.message t)) []

/-- The function that a call of a polymorphic function calls. -/
def specialize (w : Walk) (recipe : RecipeId) (args : List Operand) (span : Span) :
    Analysis FnId := do
  let r := (← get).recipes.getD recipe default
  let lit ← fnLiteral r.lit
  if lit.sig.params.length ≠ args.length then
    typeError span ("`" ++ r.name ++ "` expects " ++ toString lit.sig.params.length ++
      " argument(s), found " ++ toString args.length)
  let bindings ← inferBindings lit.sig.params args
  let key := (recipe, bindings.map Prod.snd)
  match (← get).specializations.lookup key with
  | some f => return f
  | none =>
    let t ← types
    let text := ", ".intercalate (bindings.map fun (name, ty) => "?" ++ name ++ " = " ++ t.name ty)
    let f ← declareFn w r.scope r.lit r.name bindings
    modify fun t => { t with
      code := t.code.modifyFn f fun func => { func with specialization := some text }
      specializations := (key, f) :: t.specializations }
    return f

end Analysis

end Comptime
