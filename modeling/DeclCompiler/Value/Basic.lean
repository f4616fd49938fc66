import DeclCompiler.Literal.Basic
import DeclCompiler.Object

/-!
Compile-time values. Every value has an identity, by which two values with equal content are told
apart; what a value is does not change. What does change about it, its owner and whether a variable
may be assigned, is part of the state of the compilation.
-/

namespace DeclCompiler

/-- Constants, variables of the program, objects, functions, and the absence of a value. The type
`κ` is that of the host's code. -/
inductive Value (κ : Type)
  | void (id : Nat)
  | literal (id : Nat) (l : Literal)
  | store (id : Nat) (name : String) (temporary : Bool)
  | object (id : Nat) (o : Object κ (Value κ))
  | function (id : Nat) (f : MacroFn κ)

inductive Mutability
  | writable
  | constantBinding
  | immutable
deriving DecidableEq

namespace Value

variable {κ : Type}

def id : Value κ → Nat
  | .void id => id
  | .literal id _ => id
  | .store id _ _ => id
  | .object id _ => id
  | .function id _ => id

/-- Whether two values are one and the same. -/
def same (v w : Value κ) : Bool := v.id == w.id

def text : Value κ → String
  | .void _ => "void"
  | .literal _ l => l.text
  | .store _ name _ => name
  | .object _ _ => "[object]"
  | .function _ f => "[macro " ++ f.name ++ "]"

/-- Macro values exist only while compiling and have no place in the program. -/
def isMacro : Value κ → Bool
  | .object _ _ | .function _ _ => true
  | _ => false

def literal? : Value κ → Option Literal
  | .literal _ l => some l
  | _ => none

end Value

/-- The member that a constant used as a key denotes. -/
def Literal.key (l : Literal) : String := l.content

/-- The member of an object under a key that is a constant. -/
def Object.member? {κ ν : Type} (o : Object κ ν) (key : Value κ) : Option ν :=
  key.literal?.bind fun l => o.get? l.key

/-- A length as a number. Lengths are 32-bit words and stop at the largest one. -/
def lengthLiteral (n : Nat) : Literal := .number (Float.ofNat (min n 0xFFFFFFFF))

end DeclCompiler
