import DeclCompiler.State

/-!
Code that is not part of this library. The host supplies functions that run while compiling; what
running one means is given by a `Host`. One function is built in.
-/

namespace DeclCompiler

variable {κ η : Type}

/-- A value together with the instructions that compute it. -/
abbrev Computed (κ : Type) := Value κ × List (Instruction κ)

/-- What a call yields: perhaps a value, and instructions. -/
abbrev Called (κ : Type) := Option (Value κ) × List (Instruction κ)

structure Host (κ η : Type) where
  invoke : κ → Scope → List (Value κ) → CompileM κ η (Called κ)

/-- Reads the link with the given index, which is a number or a variable of the program. -/
def callGetLink (s : Scope) : List (Value κ) → CompileM κ η (Called κ)
  | [index] => do
    match index with
    | .store .. | .literal _ (.number _) =>
      let output ← s.makeTemporary
      return (some output, [.getLink output index])
    | _ => throw (.of .invalidLinkIndex)
  | arguments => throw (.of (.arityMismatch "getLink" 1 arguments.length))

def MacroFn.invoke (host : Host κ η) (s : Scope) (arguments : List (Value κ)) :
    MacroFn κ → CompileM κ η (Called κ)
  | .getLink => callGetLink s arguments
  | .host _ code => host.invoke code s arguments

/-- Binds the built-in function under its name. -/
def Scope.bindBuiltins (s : Scope) : CompileM κ η Unit := do
  let value ← newFunction MacroFn.getLink
  s.bind { identifier := "getLink", name := "getLink", scope := s.id, value, constant := true }

end DeclCompiler
