import DeclCompiler.Literal.Basic
import DeclCompiler.Span

/-!
Declarations of the source language: the patterns on their left sides and the expressions on their
right sides. Expressions that this library does not look into are known by a number.
-/

namespace DeclCompiler

inductive ExprKind
  | identifier (name : String)
  | literal (l : Literal)
  | external (id : Nat)

structure Expr where
  kind : ExprKind
  span : Span

structure Identifier where
  name : String
  span : Span
deriving DecidableEq

mutual

/-- The left side of a declaration. A missing element of an array pattern is a hole. -/
inductive Pattern
  | identifier (id : Identifier)
  | array (elements : List (Option Pattern)) (span : Span)
  | object (properties : List Property) (span : Span)
  | assignment (left : Pattern) (right : Expr) (span : Span)
  | rest (argument : Pattern) (span : Span)
  | member (expr : Expr)

inductive Property
  | keyed (key : Expr) (value : Pattern) (computed : Bool) (span : Span)
  | rest (argument : Pattern) (span : Span)

end

inductive DeclKind
  | var | letDecl | const
deriving DecidableEq

structure Declarator where
  target : Pattern
  init : Option Expr
  span : Span

structure Declaration where
  kind : DeclKind
  declarators : List Declarator
  span : Span

/-! ### Views -/

def Expr.identifier? (e : Expr) : Option String :=
  match e.kind with
  | .identifier name => some name
  | _ => none

namespace DeclKind

/-- The kind of a declarator that stands alone. -/
def standard : DeclKind := .letDecl

def isConst (k : DeclKind) : Bool := k = .const

def text : DeclKind → String
  | .var => "var"
  | .letDecl => "let"
  | .const => "const"

end DeclKind

namespace Pattern

def span : Pattern → Span
  | .identifier id => id.span
  | .array _ span => span
  | .object _ span => span
  | .assignment _ _ span => span
  | .rest _ span => span
  | .member expr => expr.span

def kindName : Pattern → String
  | .identifier _ => "Identifier"
  | .array .. => "ArrayPattern"
  | .object .. => "ObjectPattern"
  | .assignment .. => "AssignmentPattern"
  | .rest .. => "RestElement"
  | .member _ => "MemberExpression"

end Pattern

/-! ### Equality

Two patterns are equal when they have the same shape and equal parts, where numbers are compared as
the program compares them. A pattern that holds something that is not a number differs from itself. -/

def ExprKind.equal : ExprKind → ExprKind → Bool
  | .identifier a, .identifier b => a == b
  | .literal a, .literal b => a.strictEq b
  | .external a, .external b => a == b
  | _, _ => false

def Expr.equal (a b : Expr) : Bool := a.kind.equal b.kind && a.span == b.span

mutual

def Pattern.equal : Pattern → Pattern → Bool
  | .identifier a, .identifier b => a == b
  | .array es s, .array es' s' => Pattern.equalElements es es' && s == s'
  | .object ps s, .object ps' s' => Pattern.equalProperties ps ps' && s == s'
  | .assignment l r s, .assignment l' r' s' => l.equal l' && r.equal r' && s == s'
  | .rest a s, .rest a' s' => a.equal a' && s == s'
  | .member e, .member e' => e.equal e'
  | _, _ => false
termination_by structural p => p

def Pattern.equalElements : List (Option Pattern) → List (Option Pattern) → Bool
  | [], [] => true
  | e :: es, e' :: es' => Pattern.equalElement e e' && Pattern.equalElements es es'
  | _, _ => false
termination_by structural es => es

def Pattern.equalElement : Option Pattern → Option Pattern → Bool
  | none, none => true
  | some p, some p' => p.equal p'
  | _, _ => false
termination_by structural e => e

def Pattern.equalProperties : List Property → List Property → Bool
  | [], [] => true
  | p :: ps, p' :: ps' => p.equal p' && Pattern.equalProperties ps ps'
  | _, _ => false
termination_by structural ps => ps

def Property.equal : Property → Property → Bool
  | .keyed k v c s, .keyed k' v' c' s' => k.equal k' && v.equal v' && c == c' && s == s'
  | .rest a s, .rest a' s' => a.equal a' && s == s'
  | _, _ => false
termination_by structural p => p

end

end DeclCompiler
