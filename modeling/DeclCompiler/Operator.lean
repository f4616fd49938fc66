/-!
The operators of the source language and their symbols.
-/

namespace DeclCompiler

inductive UnaryOp
  | neg | plus | not | bitNot | typeOf
deriving DecidableEq

inductive BinaryOp
  | add | sub | mul | div | rem | pow
  | eq | ne | strictEq | strictNe
  | lt | le | gt | ge
  | bitAnd | bitOr | bitXor | shl | shr | unsignedShr
  | and | or | coalesce
  | memberOf | instanceOf
deriving DecidableEq

inductive AssignOp
  | plain
  | add | sub | mul | div | rem | pow
  | bitAnd | bitOr | bitXor | shl | shr | unsignedShr
  | and | or | coalesce
deriving DecidableEq

inductive Operator
  | unary (op : UnaryOp)
  | binary (op : BinaryOp)
  | assign (op : AssignOp)
deriving DecidableEq

namespace UnaryOp

def all : List UnaryOp := [.neg, .plus, .not, .bitNot, .typeOf]

def symbol : UnaryOp → String
  | .neg => "-"
  | .plus => "+"
  | .not => "!"
  | .bitNot => "~"
  | .typeOf => "typeof"

def ofSymbol? (s : String) : Option UnaryOp := all.find? (·.symbol == s)

end UnaryOp

namespace BinaryOp

def all : List BinaryOp :=
  [.add, .sub, .mul, .div, .rem, .pow, .eq, .ne, .strictEq, .strictNe, .lt, .le, .gt, .ge, .bitAnd, .bitOr,
    .bitXor, .shl, .shr, .unsignedShr, .and, .or, .coalesce, .memberOf, .instanceOf]

def symbol : BinaryOp → String
  | .add => "+"
  | .sub => "-"
  | .mul => "*"
  | .div => "/"
  | .rem => "%"
  | .pow => "**"
  | .eq => "=="
  | .ne => "!="
  | .strictEq => "==="
  | .strictNe => "!=="
  | .lt => "<"
  | .le => "<="
  | .gt => ">"
  | .ge => ">="
  | .bitAnd => "&"
  | .bitOr => "|"
  | .bitXor => "^"
  | .shl => "<<"
  | .shr => ">>"
  | .unsignedShr => ">>>"
  | .and => "&&"
  | .or => "||"
  | .coalesce => "??"
  | .memberOf => "in"
  | .instanceOf => "instanceof"

def ofSymbol? (s : String) : Option BinaryOp := all.find? (·.symbol == s)

end BinaryOp

namespace AssignOp

def all : List AssignOp :=
  [.plain, .add, .sub, .mul, .div, .rem, .pow, .bitAnd, .bitOr, .bitXor, .shl, .shr, .unsignedShr, .and, .or,
    .coalesce]

/-- The operator that a compound assignment applies before it stores. -/
def binary? : AssignOp → Option BinaryOp
  | .plain => none
  | .add => some .add
  | .sub => some .sub
  | .mul => some .mul
  | .div => some .div
  | .rem => some .rem
  | .pow => some .pow
  | .bitAnd => some .bitAnd
  | .bitOr => some .bitOr
  | .bitXor => some .bitXor
  | .shl => some .shl
  | .shr => some .shr
  | .unsignedShr => some .unsignedShr
  | .and => some .and
  | .or => some .or
  | .coalesce => some .coalesce

def symbol (op : AssignOp) : String :=
  match op.binary? with
  | none => "="
  | some binary => binary.symbol ++ "="

def ofSymbol? (s : String) : Option AssignOp := all.find? (·.symbol == s)

end AssignOp

namespace Operator

def symbol : Operator → String
  | .unary op => op.symbol
  | .binary op => op.symbol
  | .assign op => op.symbol

/-- How many operands an operator takes besides the value it is applied to. -/
def operandCount : Operator → Nat
  | .unary _ => 0
  | .binary _ | .assign _ => 1

end Operator

end DeclCompiler
