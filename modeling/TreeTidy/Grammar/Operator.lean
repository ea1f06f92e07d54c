import TreeTidy.Grammar.Coded
/-!
Operators: their tokens, how tightly they bind, and the operators that stand for their complement
and for themselves with the operands exchanged.
-/
namespace TreeTidy

inductive UnaryOp
  | not | neg | plus | bitNot | preInc | preDec | postInc | postDec
  deriving DecidableEq, Repr, Inhabited

namespace UnaryOp

def token : UnaryOp → String
  | not => "!"
  | neg => "-"
  | plus => "+"
  | bitNot => "~"
  | preInc | postInc => "++"
  | preDec | postDec => "--"

def isPostfix : UnaryOp → Bool
  | postInc | postDec => true
  | _ => false

/-- Whether the operator writes to its operand. -/
def writesOperand : UnaryOp → Bool
  | preInc | preDec | postInc | postDec => true
  | _ => false

instance : Coded UnaryOp where
  all := [not, neg, plus, bitNot, preInc, preDec, postInc, postDec]
  code
    | not => "not"
    | neg => "neg"
    | plus => "plus"
    | bitNot => "bit_not"
    | preInc => "pre_inc"
    | preDec => "pre_dec"
    | postInc => "post_inc"
    | postDec => "post_dec"

end UnaryOp

inductive BinaryOp
  | or | and | bitOr | bitXor | bitAnd | eq | ne | lt | gt | le | ge | shl | shr | ushr
  | add | sub | mul | div | rem
  deriving DecidableEq, Repr, Inhabited

namespace BinaryOp

def token : BinaryOp → String
  | or => "||"
  | and => "&&"
  | bitOr => "|"
  | bitXor => "^"
  | bitAnd => "&"
  | eq => "=="
  | ne => "!="
  | lt => "<"
  | gt => ">"
  | le => "<="
  | ge => ">="
  | shl => "<<"
  | shr => ">>"
  | ushr => ">>>"
  | add => "+"
  | sub => "-"
  | mul => "*"
  | div => "/"
  | rem => "%"

def isEquality : BinaryOp → Bool
  | eq | ne => true
  | _ => false

def isRelational : BinaryOp → Bool
  | lt | gt | le | ge => true
  | _ => false

def isLogical : BinaryOp → Bool
  | or | and => true
  | _ => false

/-- Binding strength, from 1 for `||` to 10 for `*`. -/
def precedence : BinaryOp → Nat
  | or => 1
  | and => 2
  | bitOr => 3
  | bitXor => 4
  | bitAnd => 5
  | eq | ne => 6
  | lt | gt | le | ge => 7
  | shl | shr | ushr => 8
  | add | sub => 9
  | mul | div | rem => 10

/-- The comparison that holds exactly when this one does not. -/
def negated? : BinaryOp → Option BinaryOp
  | eq => some ne
  | ne => some eq
  | lt => some ge
  | ge => some lt
  | gt => some le
  | le => some gt
  | _ => none

/-- The comparison to use once the operands have changed sides. -/
def flipped? : BinaryOp → Option BinaryOp
  | eq => some eq
  | ne => some ne
  | lt => some gt
  | gt => some lt
  | le => some ge
  | ge => some le
  | _ => none

instance : Coded BinaryOp where
  all := [or, and, bitOr, bitXor, bitAnd, eq, ne, lt, gt, le, ge, shl, shr, ushr, add, sub, mul,
    div, rem]
  code
    | or => "or"
    | and => "and"
    | bitOr => "bit_or"
    | bitXor => "bit_xor"
    | bitAnd => "bit_and"
    | eq => "eq"
    | ne => "ne"
    | lt => "lt"
    | gt => "gt"
    | le => "le"
    | ge => "ge"
    | shl => "shl"
    | shr => "shr"
    | ushr => "u_shr"
    | add => "add"
    | sub => "sub"
    | mul => "mul"
    | div => "div"
    | rem => "rem"

end BinaryOp

inductive AssignOp
  | assign | add | sub | mul | div | rem | and | or | xor | shl | shr | ushr
  deriving DecidableEq, Repr, Inhabited

namespace AssignOp

def token : AssignOp → String
  | assign => "="
  | add => "+="
  | sub => "-="
  | mul => "*="
  | div => "/="
  | rem => "%="
  | and => "&="
  | or => "|="
  | xor => "^="
  | shl => "<<="
  | shr => ">>="
  | ushr => ">>>="

instance : Coded AssignOp where
  all := [assign, add, sub, mul, div, rem, and, or, xor, shl, shr, ushr]
  code
    | assign => "assign"
    | add => "add"
    | sub => "sub"
    | mul => "mul"
    | div => "div"
    | rem => "rem"
    | and => "and"
    | or => "or"
    | xor => "xor"
    | shl => "shl"
    | shr => "shr"
    | ushr => "u_shr"

end AssignOp

end TreeTidy
