import Comptime.Code.Basic
import Comptime.Text.Quoted

/-!
# Code listings

The text of a function: a line for its head, a line for each block, a line for each instruction
with its register, type and operands.
-/

namespace Comptime

/-- A list between brackets. -/
def bracketed (items : List String) : String := "[" ++ ", ".intercalate items ++ "]"

/-- A word with named parts between braces. -/
def braced (word : String) (parts : List (String × String)) : String :=
  word ++ " \x7b " ++ ", ".intercalate (parts.map fun (name, text) => name ++ ": " ++ text)
    ++ " \x7d"

/-- A word with parts between parentheses. -/
def applied (word : String) (text : String) : String := word ++ "(" ++ text ++ ")"

/-- The bound of an element pointer in listings. -/
def Bound.listing : Bound → String
  | array len => applied "Array" (toString len.toNat)
  | slice => "Slice"
  | unchecked => "Unchecked"

def Callee.listing : Callee → String
  | direct f => applied "Direct" f.listing
  | indirect v => applied "Indirect" v.listing

def InstrKind.listing : InstrKind → String
  | const v => applied "Const" v.listing
  | slotPtr s => applied "VarPtr" s.listing
  | globalPtr g => applied "GlobalPtr" g.listing
  | load p => applied "Load" p.listing
  | store p v => braced "Store" [("ptr", p.listing), ("value", v.listing)]
  | elemPtr b i bound =>
    braced "ElemPtr" [("base", b.listing), ("index", i.listing), ("bound", bound.listing)]
  | memberPtr b i => braced "MemberPtr" [("base", b.listing), ("index", toString i)]
  | binary op a b => braced "Binop" [("op", op.name), ("lhs", a.listing), ("rhs", b.listing)]
  | unary op a => braced "Unop" [("op", op.name), ("operand", a.listing)]
  | cast op a => braced "Cast" [("op", op.name), ("operand", a.listing)]
  | compound vs => applied "Compound" (bracketed (vs.map Id.listing))
  | call callee args =>
    braced "Call" [("callee", callee.listing), ("args", bracketed (args.map Id.listing))]
  | jump b => applied "Br" b.listing
  | branch c yes no =>
    braced "CondBr"
      [("cond", c.listing), ("then_block", yes.listing), ("else_block", no.listing)]
  | switch v cases otherwise =>
    let arms := cases.map fun (bits, b) => "(" ++ toString bits.toNat ++ ", " ++ b.listing ++ ")"
    braced "Switch"
      [("value", v.listing), ("cases", bracketed arms), ("default", otherwise.listing)]
  | phi incoming =>
    applied "Phi"
      (bracketed (incoming.map fun (b, v) => "(" ++ b.listing ++ ", " ++ v.listing ++ ")"))
  | ret v =>
    applied "Ret" (match v with
      | some v => applied "Some" v.listing
      | none => "None")
  | unreachable => "Unreachable"
  | assert c message => braced "Assert" [("cond", c.listing), ("message", Text.quote message)]

def Function.listing (f : Function) : String :=
  let head := "fn " ++ f.name ++ " (" ++ f.state.name ++ ", " ++ f.flavor.name ++ ") frame="
    ++ toString f.frameSize ++ "\n"
  f.blocks.entries.foldl (fun text (id, b) =>
    b.instrs.foldl (fun text i =>
      let instr := f.instr i
      text ++ "  " ++ i.text ++ ": " ++ instr.ty.text ++ " = " ++ instr.kind.listing ++ "\n")
      (text ++ id.text ++ " " ++ b.name ++ ":\n")) head

end Comptime
