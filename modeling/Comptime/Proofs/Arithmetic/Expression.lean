import Comptime.Proofs.Height

/-!
# Numeric expressions

Trees of literals, names, the operators with one operand and those with two that give a number for
numbers. A program is a graph of nodes, so a tree is not a part of it: `Ast.Spells` says that a node
stands for a tree.

A tree is at most as high as the program has nodes (`Spells.height_le`).
-/

namespace Comptime

def BinaryOp.isArithmetic (op : BinaryOp) : Bool := !op.isComparison && !op.isLogic

namespace BinaryOp

@[simp] theorem isArithmetic_add : isArithmetic .add = true := rfl

@[simp] theorem isArithmetic_sub : isArithmetic .sub = true := rfl

@[simp] theorem isArithmetic_mul : isArithmetic .mul = true := rfl

@[simp] theorem isArithmetic_div : isArithmetic .div = true := rfl

end BinaryOp

/-- A numeric expression. Its integer literals fit into a signed word. -/
inductive Arith where
  | lit (value : UInt64) (span : Span) (small : value.toNat < 0x8000000000000000)
  | real (bits : UInt64) (span : Span)
  | name (name : String) (span : Span)
  | unary (op : UnaryOp) (operand : Arith) (span : Span)
  | binary (op : BinaryOp) (lhs rhs : Arith) (span : Span) (arithmetic : op.isArithmetic = true)

namespace Arith

/-- The number of nodes on the longest way to a leaf. -/
def height : Arith → Nat
  | lit .. | real .. | name .. => 1
  | unary _ e _ => e.height + 1
  | binary _ l r _ _ => max l.height r.height + 1

/-- The number of nodes. -/
def size : Arith → Nat
  | lit .. | real .. | name .. => 1
  | unary _ e _ => e.size + 1
  | binary _ l r _ _ => l.size + r.size + 1

/-- The names in an expression, from left to right. -/
def names : Arith → List String
  | lit .. | real .. => []
  | name x _ => [x]
  | unary _ e _ => e.names
  | binary _ l r _ _ => l.names ++ r.names

/-- Neither a name nor a real nor `!` occurs. -/
def isInteger : Arith → Bool
  | lit .. => true
  | real .. | name .. => false
  | unary op e _ => op != .not && e.isInteger
  | binary _ l r _ _ => l.isInteger && r.isInteger

end Arith

namespace Ast

variable {ast : Ast} {n : NodeId} {e : Arith}

/-- The node stands for an expression. -/
inductive Spells (ast : Ast) : NodeId → Arith → Prop
  | lit {n : NodeId} {value : UInt64} {span : Span} {small : value.toNat < 0x8000000000000000}
    (node : ast.node n = ⟨.intLit value, span⟩) : Spells ast n (.lit value span small)
  | real {n : NodeId} {bits : UInt64} {span : Span} (node : ast.node n = ⟨.realLit bits, span⟩) :
    Spells ast n (.real bits span)
  | name {n : NodeId} {x : String} {span : Span} (node : ast.node n = ⟨.ident x, span⟩) :
    Spells ast n (.name x span)
  | unary {n m : NodeId} {op : UnaryOp} {e : Arith} {span : Span}
    (node : ast.node n = ⟨.unary op m, span⟩) (operand : Spells ast m e) :
    Spells ast n (.unary op e span)
  | binary {n i j : NodeId} {op : BinaryOp} {l r : Arith} {span : Span}
    {arithmetic : op.isArithmetic = true} (node : ast.node n = ⟨.binary op i j, span⟩)
    (lhs : Spells ast i l) (rhs : Spells ast j r) : Spells ast n (.binary op l r span arithmetic)

theorem Spells.towers (h : ast.Spells n e) : ast.Towers n e.height := by
  induction h with
  | lit node | real node | name node => exact .ofLeaf (by rw [node]; nofun) (by rw [node]; rfl)
  | unary node _ ih => exact .unary node ih
  | binary node _ _ ihl ihr => exact .binary node ihl ihr

theorem Spells.height_le (h : ast.Spells n e) : e.height ≤ ast.size := h.towers.height_le

end Ast

end Comptime
