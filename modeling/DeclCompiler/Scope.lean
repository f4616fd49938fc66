import DeclCompiler.Value.Basic

/-!
Scopes and the bindings in their name tables.
-/

namespace DeclCompiler

/-- A name of a scope. `scope` is the number of the scope that declares it. -/
structure Binding (κ : Type) where
  identifier : String
  name : String
  scope : Nat
  value : Value κ
  constant : Bool

/-- A scope is known by the place of its name table and by those of the scopes around it, nearest
first. All scopes of one compilation have different numbers. -/
structure Scope where
  table : Nat
  id : Nat
  compilation : Nat
  ancestors : List Nat
deriving DecidableEq

/-- The name tables from a scope out to its root. -/
def Scope.chain (s : Scope) : List Nat := s.table :: s.ancestors

end DeclCompiler
