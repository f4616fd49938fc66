import DeclCompiler.Number.Numeral

/-!
Constants of the source language and how they convert to numbers, texts and truth values.
-/

namespace DeclCompiler

inductive Literal
  | number (x : Float)
  | string (s : String)
  | bool (b : Bool)
deriving DecidableEq

namespace Literal

def toNumber : Literal → Float
  | .number x => x
  | .string s => Numeral.value s
  | .bool b => if b then 1 else 0

def boolText (b : Bool) : String := if b then "true" else "false"

/-- The text that a constant contributes to a concatenation. -/
def content : Literal → String
  | .number x => Numeral.text x
  | .string s => s
  | .bool b => boolText b

/-- The text that stands for a constant in the program and in messages. Strings are quoted as they
are, without escapes. -/
def text : Literal → String
  | .string s => "\"" ++ s ++ "\""
  | l => l.content

def isTruthy : Literal → Bool
  | .number x => x != 0 && !x.isNaN
  | .string s => s != ""
  | .bool b => b

def isString : Literal → Bool
  | .string _ => true
  | _ => false

def typeName : Literal → String
  | .number _ => "number"
  | .string _ => "string"
  | .bool _ => "boolean"

/-- Equality of the program: zero equals minus zero, and what is not a number equals nothing. -/
def strictEq : Literal → Literal → Bool
  | .number x, .number y => x == y
  | .string s, .string t => s == t
  | .bool b, .bool c => b == c
  | _, _ => false

end Literal

end DeclCompiler
