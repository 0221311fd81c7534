import Comptime.Id
import Comptime.Operator.Basic
import Comptime.Span

/-!
# Programs

A program is a graph of nodes that refer to each other by their ids. A node may be referred to from
several places; what analysis finds out about it depends on the place.
-/

namespace Comptime

/-- A declaration of a name, global or local. -/
structure Decl where
  name : String
  ty : Option NodeId
  value : Option NodeId
  mutable : Bool
deriving Repr

/-- A parameter of a function or a member of a struct. -/
structure Field where
  name : String
  ty : NodeId
  span : Span
deriving Repr

/-- Parameters and result of a function; no result means `void`. -/
structure Signature where
  params : List Field
  ret : Option NodeId
deriving Repr

/-- A function literal. -/
structure FnLiteral where
  sig : Signature
  /-- External functions have none. -/
  body : Option NodeId
  /-- The name of an external function. -/
  external : Option String
  /-- Calls are carried out at compile time. -/
  comptime : Bool
  /-- The function is a test case. -/
  test : Bool
deriving Repr

/-- A variant of an enum; without a value it follows the variant before. -/
structure Variant where
  name : String
  value : Option NodeId
  span : Span
deriving Repr

/-- A case of a switch; one without values is the default. -/
structure Case where
  values : List NodeId
  body : NodeId
  span : Span
deriving Repr

/-- The forms of nodes: declarations, types, expressions and statements. -/
inductive NodeKind where
  | decl (decl : Decl)
  /-- A scope with a name. -/
  | namedScope (name : String) (items : List NodeId)
  | ptrType (inner : NodeId)
  | arrayType (len elem : NodeId)
  | sliceType (inner : NodeId)
  | fnType (sig : Signature)
  | structType (members : List Field)
  | enumType (base : Option NodeId) (variants : List Variant)
  /-- A type parameter of a polymorphic function. -/
  | polyType (name : String)
  | ident (name : String)
  | intLit (value : UInt64)
  | realLit (bits : UInt64)
  | boolLit (value : Bool)
  | nullLit
  | binary (op : BinaryOp) (lhs rhs : NodeId)
  | unary (op : UnaryOp) (operand : NodeId)
  | cast (ty expr : NodeId)
  | call (callee : NodeId) (args : List NodeId)
  | member (base : NodeId) (name : String)
  | index (base index : NodeId)
  | addrOf (inner : NodeId)
  | deref (inner : NodeId)
  | compound (ty : NodeId) (values : List NodeId)
  | sizeOf (inner : NodeId)
  | alignOf (inner : NodeId)
  | fnLit (literal : FnLiteral)
  /-- Functions of which a call chooses one. -/
  | fnGroup (members : List NodeId)
  /-- An expression that is evaluated at compile time. -/
  | comptime (inner : NodeId)
  | block (stmts : List NodeId)
  | branch (cond yes : NodeId) (no : Option NodeId)
  | loop (cond : Option NodeId) (body : NodeId)
  | switch (value : NodeId) (cases : List Case)
  /-- A statement that is carried out when the block is left. -/
  | defer (inner : NodeId)
  | leaveLoop
  | nextRound
  | ret (value : Option NodeId)
  | assign (op : Option BinaryOp) (target value : NodeId)
  | unreachable
  | assert (cond : NodeId) (message : String)
  | staticAssert (cond : NodeId) (message : String)
deriving Repr

/-- A node and where it stands in the text. -/
structure Node where
  kind : NodeKind
  span : Span
deriving Repr

instance : Inhabited Node := ⟨⟨.unreachable, .dummy⟩⟩

/-- The nodes of a program. -/
abbrev Ast := Pool .node Node

namespace Ast

def node (a : Ast) (n : NodeId) : Node := a.getD n default

def kind (a : Ast) (n : NodeId) : NodeKind := (a.node n).kind

def span (a : Ast) (n : NodeId) : Span := (a.node n).span

/-- Whether a type expression mentions a type parameter, looking at most `fuel` nodes deep. -/
def isPolyAt (a : Ast) : Nat → NodeId → Bool
  | 0, _ => false
  | fuel + 1, n =>
    match a.kind n with
    | .polyType _ => true
    | .ptrType inner | .sliceType inner => a.isPolyAt fuel inner
    | .arrayType _ elem => a.isPolyAt fuel elem
    | .fnType sig => sig.params.any (fun p => a.isPolyAt fuel p.ty) || sig.ret.any (a.isPolyAt fuel)
    | _ => false

/-- Whether a type expression mentions a type parameter. -/
def isPoly (a : Ast) (n : NodeId) : Bool := a.isPolyAt (a.size + 1) n

end Ast

end Comptime
