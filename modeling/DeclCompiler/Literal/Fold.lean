import DeclCompiler.Literal.Basic
import DeclCompiler.Number.Word
import DeclCompiler.Operator
import DeclCompiler.Text.Units

/-!
Operators applied to constants.

Addition concatenates when a side is a string. All other arithmetic converts to numbers, bitwise
operators work on 32-bit words, and two strings are compared by their UTF-16 code units.
-/

namespace DeclCompiler.Literal

def looseEq : Literal → Literal → Bool
  | .number x, .number y => x == y
  | .string s, .string t => s == t
  | .bool b, .bool c => b == c
  | a, b => a.toNumber == b.toNumber

/-- The order of two numbers, which one that is not a number does not have. -/
def compareNumbers? (x y : Float) : Option Ordering :=
  if x < y then some .lt else if x == y then some .eq else if x > y then some .gt else none

def compare? : Literal → Literal → Option Ordering
  | .string s, .string t => some (Text.compareUnits s t)
  | a, b => compareNumbers? a.toNumber b.toNumber

/-- Exponentiation, where an exponent that is not a number, and an infinite power of one or minus
one, give no number. -/
def power (base exponent : Float) : Float :=
  if exponent.isNaN || (base.abs == 1 && exponent.isInf) then Binary64.nan else base.pow exponent

def foldUnary (op : UnaryOp) (a : Literal) : Literal :=
  match op with
  | .neg => .number (-a.toNumber)
  | .plus => .number a.toNumber
  | .not => .bool (!a.isTruthy)
  | .bitNot => .number (Word.signed (~~~Word.ofFloat a.toNumber))
  | .typeOf => .string a.typeName

/-- A bitwise operation on the words of two constants. -/
def foldWords (f : BitVec 32 → BitVec 32 → BitVec 32) (a b : Literal) : Literal :=
  .number (Word.signed (f (Word.ofFloat a.toNumber) (Word.ofFloat b.toNumber)))

/-- The constant that an operator yields on two constants. Only the membership tests have none. -/
def foldBinary? (op : BinaryOp) (a b : Literal) : Option Literal :=
  let x := a.toNumber
  let y := b.toNumber
  match op with
  | .add => some (if a.isString || b.isString then .string (a.content ++ b.content) else .number (x + y))
  | .sub => some (.number (x - y))
  | .mul => some (.number (x * y))
  | .div => some (.number (x / y))
  | .rem => some (.number (Binary64.remainder x y))
  | .pow => some (.number (power x y))
  | .eq => some (.bool (looseEq a b))
  | .ne => some (.bool (!looseEq a b))
  | .strictEq => some (.bool (strictEq a b))
  | .strictNe => some (.bool (!strictEq a b))
  | .lt => some (.bool (compare? a b == some .lt))
  | .le => some (.bool (compare? a b == some .lt || compare? a b == some .eq))
  | .gt => some (.bool (compare? a b == some .gt))
  | .ge => some (.bool (compare? a b == some .gt || compare? a b == some .eq))
  | .bitAnd => some (foldWords (· &&& ·) a b)
  | .bitOr => some (foldWords (· ||| ·) a b)
  | .bitXor => some (foldWords (· ^^^ ·) a b)
  | .shl => some (.number (Word.signed (Word.ofFloat x <<< Word.shiftCount y)))
  | .shr => some (.number (Word.signed ((Word.ofFloat x).sshiftRight (Word.shiftCount y))))
  | .unsignedShr => some (.number (Word.unsigned (Word.ofFloat x >>> Word.shiftCount y)))
  | .and => some (if a.isTruthy then b else a)
  | .or => some (if a.isTruthy then a else b)
  | .coalesce => some a
  | .memberOf | .instanceOf => none

end DeclCompiler.Literal
