import Comptime.Analysis.Conversion
import Comptime.Analysis.FunctionDeclaration

/-!
# Overloads

A call of a group chooses the member whose parameters take the arguments at the least total cost.
The choice does not depend on the order of the members: where two cost the same, the call is
ambiguous.
-/

namespace Comptime

/-! ## Ranking -/

/-- How well an argument fits a parameter, if it does. -/
def Tables.argRank (t : Tables) (arg : Operand) (param : TypeId) : Option Rank :=
  match arg.kind with
  | .group members =>
    if members.any fun f => (t.code.function f).ty = param then some .identity else none
  | .poly _ | .scope _ => none
  | .const v =>
    if arg.ty = param then some .identity
    else
      match v, arg.literal with
      | .int w, true =>
        if t.types.isReal param then some .widening
        else
          match t.types.plainInt param with
          | some (bits, signed) =>
            if Word.inRange (t.types.exact arg.ty w) bits signed then some .widening else none
          | none => none
      | _, _ => ranked
  | _ => if arg.ty = param then some .identity else ranked
where
  /-- The rank of a value that is not an integer written as a number. -/
  ranked : Option Rank :=
    if arg.literal && t.types.isReal arg.ty && t.types.isReal param then some .widening
    else t.types.conversionRank arg.ty param

/-- The total cost of passing arguments to parameters, if that is possible. -/
def Tables.argsCost (t : Tables) : List Operand → List TypeId → Option Nat
  | [], [] => some 0
  | arg :: args, param :: params => do
    let rank ← t.argRank arg param
    return rank.cost + (← t.argsCost args params)
  | _, _ => none

/-- The members of least cost among those that were looked at, and what they cost. -/
structure Leaders where
  cost : Option Nat
  members : List FnId

/-- One more member that takes the arguments. A lesser cost than that of the others clears the list. -/
def Leaders.add (best : Leaders) (f : FnId) (cost : Nat) : Leaders :=
  let best := if best.cost.all (cost < ·) then ⟨some cost, []⟩ else best
  if best.cost = some cost then { best with members := best.members ++ [f] } else best

/-- Look at one more member. One that does not take the arguments is passed over. -/
def Tables.consider (t : Tables) (args : List Operand) (best : Leaders) (f : FnId) : Leaders :=
  match t.argsCost args (t.code.function f).params with
  | some cost => best.add f cost
  | none => best

/-- The members of least cost. -/
def Tables.cheapest (t : Tables) (members : List FnId) (args : List Operand) : List FnId :=
  (members.foldl (t.consider args) ⟨none, []⟩).members

namespace Analysis

/-- The member of a group that a call calls. -/
def selectOverload (members : List FnId) (args : List Operand) (span : Span) : Analysis FnId := do
  let t ← get
  let argTypes := ", ".intercalate (args.map fun a => t.types.name a.ty)
  match t.cheapest members args with
  | [f] => return f
  | [] => refuse t ("no overload matches argument types (" ++ argTypes ++ ")") members
  | tied => refuse t ("ambiguous call with argument types (" ++ argTypes ++ ")") tied
where
  /-- Halt with a note on each candidate. -/
  refuse (t : Tables) (message : String) (candidates : List FnId) : Analysis FnId :=
    throw (.error (candidates.foldl (fun d f =>
      let func := t.code.function f
      d.withNote ("candidate: " ++ t.types.name func.ty) (some func.span))
      (Diagnostic.error .resolution message span)))

/-! ## Groups -/

/-- Add functions to a group. A function is taken once; two of one type are refused. -/
def addToGroup (name : String) (span : Span) : List FnId → List FnId → Analysis (List FnId)
  | members, [] => return members
  | members, f :: rest => do
    let ty := (← functionOf f).ty
    let t ← get
    match members.find? fun g => (t.code.function g).ty = ty with
    | some other =>
      if other = f then addToGroup name span members rest
      else
        let d := Diagnostic.error .type
          ("overloads of `" ++ name ++ "` share the signature " ++ (← quoted ty)) span
        throw (.error (d.withNote "other overload declared here"
          (some (t.code.function other).span)))
    | none => addToGroup name span (members ++ [f]) rest

/-- The functions that a member of a group stands for. -/
def groupMember (w : Walk) (scope : ScopeId) (name : String) (n : NodeId) :
    Analysis (List FnId) := do
  let ⟨kind, span⟩ ← node n
  match kind with
  | .fnLit _ =>
    match ← bindFnLiteral w scope n name with
    | .inl f => return [f]
    | .inr _ => typeError span "polymorphic functions cannot be overloaded"
  | _ =>
    match (← Lower.aside (.scratch span) (w.expr scope n)).kind with
    | .const (.fn f) => return [f]
    | .group members => return members
    | _ => typeError span "function group members must be functions"

/-- The functions of a group. -/
def fnGroup (w : Walk) (scope : ScopeId) (n : NodeId) (name : String) (members : List NodeId) :
    Analysis (List FnId) := do
  let fns ← members.foldlM (fun fns member => do
    addToGroup name (← spanOf member) fns (← groupMember w scope name member)) []
  if fns.isEmpty then typeError (← spanOf n) "function group is empty"
  return fns

end Analysis

end Comptime
