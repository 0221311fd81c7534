/-!
# Operators

The operators of expressions, with the symbols of the language and their names in code listings.
-/

namespace Comptime

/-- Operators with two operands. -/
inductive BinaryOp where
  | add | sub | mul | div | mod
  | eq | neq | greater | less | greaterEq | lessEq
  | logicAnd | logicOr
  | bitAnd | bitOr | xor | shl | shr
deriving DecidableEq, Repr

namespace BinaryOp

/-- Every operator. -/
def all : List BinaryOp :=
  [add, sub, mul, div, mod, eq, neq, greater, less, greaterEq, lessEq, logicAnd, logicOr, bitAnd,
    bitOr, xor, shl, shr]

/-- The symbol of an operator in programs. -/
def symbol : BinaryOp → String
  | add => "+"
  | sub => "-"
  | mul => "*"
  | div => "/"
  | mod => "%"
  | eq => "=="
  | neq => "!="
  | greater => ">"
  | less => "<"
  | greaterEq => ">="
  | lessEq => "<="
  | logicAnd => "&&"
  | logicOr => "||"
  | bitAnd => "&"
  | bitOr => "|"
  | xor => "^"
  | shl => "<<"
  | shr => ">>"

/-- The name of an operator in listings. -/
def name : BinaryOp → String
  | add => "Add"
  | sub => "Sub"
  | mul => "Mul"
  | div => "Div"
  | mod => "Mod"
  | eq => "Eq"
  | neq => "Neq"
  | greater => "Greater"
  | less => "Less"
  | greaterEq => "GreaterEq"
  | lessEq => "LessEq"
  | logicAnd => "LogicAnd"
  | logicOr => "LogicOr"
  | bitAnd => "BitAnd"
  | bitOr => "BitOr"
  | xor => "Xor"
  | shl => "Shl"
  | shr => "Shr"

/-- The operator of a symbol. -/
def ofSymbol? (s : String) : Option BinaryOp := all.find? (·.symbol == s)

/-- Whether the result is a truth value whatever the operands are. -/
def isComparison : BinaryOp → Bool
  | eq | neq | greater | less | greaterEq | lessEq => true
  | _ => false

/-- The operators that may skip their right operand. -/
def isLogic : BinaryOp → Bool
  | logicAnd | logicOr => true
  | _ => false

end BinaryOp

/-- Operators with one operand. -/
inductive UnaryOp where
  | neg | pos | not | bitNot
deriving DecidableEq, Repr

namespace UnaryOp

/-- Every operator. -/
def all : List UnaryOp := [neg, pos, not, bitNot]

/-- The symbol of an operator in programs. -/
def symbol : UnaryOp → String
  | neg => "-"
  | pos => "+"
  | not => "!"
  | bitNot => "~"

/-- The name of an operator in listings. -/
def name : UnaryOp → String
  | neg => "Neg"
  | pos => "Pos"
  | not => "Not"
  | bitNot => "BitNot"

/-- The operator of a symbol. -/
def ofSymbol? (s : String) : Option UnaryOp := all.find? (·.symbol == s)

end UnaryOp

end Comptime
