import DeclCompiler.Pattern
import DeclCompiler.Value.Capability

/-!
Evaluation of the expressions that occur in declarations. It is supplied from outside; the basic
evaluator knows names, constants, and the values it was told for external expressions.
-/

namespace DeclCompiler

variable {κ η : Type}

structure Evaluator (κ η : Type) where
  eval : Scope → Expr → CompileM κ η (Computed κ)
  consume : Scope → Expr → CompileM κ η (Computed κ)

namespace Evaluator

/-- Evaluates with the given function and consumes the result. -/
def consumeAfter (host : Host κ η) (eval : Scope → Expr → CompileM κ η (Computed κ)) (s : Scope) (e : Expr) :
    CompileM κ η (Computed κ) := do
  let (v, code) ← eval s e
  let (consumed, more) ← v.consume host s
  return (consumed, code ++ more)

def evalBasic (externals : List (Nat × Value κ)) (s : Scope) (e : Expr) : CompileM κ η (Computed κ) :=
  locating e.span do
    match e.kind with
    | .identifier name =>
      match (← get).lookup? s name with
      | some b => return (b.value, [])
      | none => throw (.of (.undefinedIdentifier name))
    | .literal l => return (← newLiteral l, [])
    | .external id =>
      match Entries.get? id externals with
      | some v => return (v, [])
      | none => throw (.of (.unknownExpression id))

def basic (host : Host κ η) (externals : List (Nat × Value κ)) : Evaluator κ η where
  eval := evalBasic externals
  consume := consumeAfter host (evalBasic externals)

end Evaluator

end DeclCompiler
