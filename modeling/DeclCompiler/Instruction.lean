import DeclCompiler.Value.Basic
import DeclCompiler.Span

/-!
Instructions of the emitted program.
-/

namespace DeclCompiler

inductive MachineOp
  | add | sub | mul | div | mod | pow
  | equal | notEqual | strictEqual
  | lessThan | lessThanEq | greaterThan | greaterThanEq
  | logicalAnd | and | or | xor | shl | shr | not
deriving DecidableEq

namespace MachineOp

def all : List MachineOp :=
  [.add, .sub, .mul, .div, .mod, .pow, .equal, .notEqual, .strictEqual, .lessThan, .lessThanEq, .greaterThan,
    .greaterThanEq, .logicalAnd, .and, .or, .xor, .shl, .shr, .not]

def text : MachineOp → String
  | .add => "add"
  | .sub => "sub"
  | .mul => "mul"
  | .div => "div"
  | .mod => "mod"
  | .pow => "pow"
  | .equal => "equal"
  | .notEqual => "notEqual"
  | .strictEqual => "strictEqual"
  | .lessThan => "lessThan"
  | .lessThanEq => "lessThanEq"
  | .greaterThan => "greaterThan"
  | .greaterThanEq => "greaterThanEq"
  | .logicalAnd => "land"
  | .and => "and"
  | .or => "or"
  | .xor => "xor"
  | .shl => "shl"
  | .shr => "shr"
  | .not => "not"

def ofText? (s : String) : Option MachineOp := all.find? (·.text == s)

/-- The machine operation of a source operator. The machine has no negated strict equality, unsigned
shift, coalescing or membership test, and one operation serves both kinds of disjunction. -/
def ofBinary? : BinaryOp → Option MachineOp
  | .add => some .add
  | .sub => some .sub
  | .mul => some .mul
  | .div => some .div
  | .rem => some .mod
  | .pow => some .pow
  | .eq => some .equal
  | .ne => some .notEqual
  | .strictEq => some .strictEqual
  | .lt => some .lessThan
  | .le => some .lessThanEq
  | .gt => some .greaterThan
  | .ge => some .greaterThanEq
  | .bitAnd => some .and
  | .bitOr => some .or
  | .bitXor => some .xor
  | .shl => some .shl
  | .shr => some .shr
  | .and => some .logicalAnd
  | .or => some .or
  | .strictNe | .unsignedShr | .coalesce | .memberOf | .instanceOf => none

end MachineOp

inductive Opcode
  | set
  | op (m : MachineOp)
  | getLink
deriving DecidableEq

def Opcode.text : Opcode → String
  | .set => "set"
  | .op m => "op " ++ m.text
  | .getLink => "getlink"

/-- An instruction lists its output, if it has one, among its operands too. -/
structure Instruction (κ : Type) where
  opcode : Opcode
  output : Option (Value κ)
  operands : List (Value κ)
  source : Option Span := none
  alwaysRuns : Bool := true

namespace Instruction

variable {κ : Type}

def set (target value : Value κ) : Instruction κ :=
  { opcode := .set, output := some target, operands := [target, value] }

def op (m : MachineOp) (output : Value κ) (arguments : List (Value κ)) : Instruction κ :=
  { opcode := .op m, output := some output, operands := output :: arguments }

def getLink (output index : Value κ) : Instruction κ :=
  { opcode := .getLink, output := some output, operands := [output, index] }

def text (i : Instruction κ) : String :=
  i.operands.foldl (fun acc v => acc ++ " " ++ v.text) i.opcode.text

/-- Attributes an instruction to a place, unless it has one already. -/
def withSource (span : Span) (i : Instruction κ) : Instruction κ :=
  { i with source := i.source.or (some span) }

def withAlwaysRuns (b : Bool) (i : Instruction κ) : Instruction κ := { i with alwaysRuns := b }

end Instruction

end DeclCompiler
