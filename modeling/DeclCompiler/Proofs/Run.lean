import DeclCompiler.Proofs.Visit

/-!
Runs of a compilation. What is asked of the compiler is given as data: the capabilities of values, the
three forms of a declaration, and what a caller does in between, which is to make values, to open and
drop scopes, and to bind names. A run asks for one thing after another. The instructions of what
succeeded make up the program, and what failed leaves only the state that it ended in.
-/

namespace DeclCompiler

variable {κ η : Type}

/-- A use of a capability of a value. -/
inductive Request (κ : Type)
  | eval (v : Value κ)
  | consume (v : Value κ)
  | getMember (v key : Value κ)
  | call (v : Value κ) (arguments : List (Value κ))
  | operate (v : Value κ) (op : Operator) (operands : List (Value κ))

namespace Request

def values : Request κ → List (Value κ)
  | .eval v | .consume v => [v]
  | .getMember v key => [v, key]
  | .call v arguments => v :: arguments
  | .operate v _ operands => v :: operands

/-- A computed value as the result of a call. -/
def called (r : Computed κ) : Called κ := (some r.1, r.2)

def run (host : Host κ η) (s : Scope) : Request κ → CompileM κ η (Called κ)
  | .eval v => called <$> v.eval host s
  | .consume v => called <$> v.consume host s
  | .getMember v key => called <$> v.getMember host s key
  | .call v arguments => v.call host s arguments
  | .operate v op operands => called <$> v.operate host s op operands

end Request

/-- The forms of a declaration: a pattern with its value, a declarator, and a declaration of several. -/
inductive DeclarationForm (κ : Type)
  | pattern (kind : DeclKind) (p : Pattern) (init : Option (Value κ))
  | declarator (kind : DeclKind) (d : Declarator)
  | declaration (d : Declaration)

namespace DeclarationForm

def kind : DeclarationForm κ → DeclKind
  | .pattern kind _ _ | .declarator kind _ => kind
  | .declaration d => d.kind

def identifiers : DeclarationForm κ → List Identifier
  | .pattern _ p _ => p.identifiers
  | .declarator _ d => d.target.identifiers
  | .declaration d => d.declarators.flatMap (·.target.identifiers)

/-- The value that is given, where others are still to be evaluated. -/
def init? : DeclarationForm κ → Option (Value κ)
  | .pattern _ _ init => init
  | .declarator .. | .declaration _ => none

def run (c : Compiler κ η) (s : Scope) : DeclarationForm κ → CompileM κ η (List (Instruction κ))
  | .pattern kind p init => c.declare s kind p init
  | .declarator kind d => c.compileDeclarator s kind d
  | .declaration d => c.compileDeclaration s d

end DeclarationForm

/-- What can be asked for in a scope. -/
inductive Operation (κ η : Type)
  | makeValue
  | makeStore (identifier name : String)
  | makeTemporary
  | bind (b : Binding κ)
  | bindBuiltins
  /-- Host code may change its own state at any time. -/
  | note (state : η)
  | request (q : Request κ)
  | declare (options : Options) (evaluator : Evaluator κ η) (d : DeclarationForm κ)

/-- The instructions of an operation. -/
def Operation.run (host : Host κ η) (s : Scope) : Operation κ η → CompileM κ η (List (Instruction κ))
  | .makeValue => (fun _ => []) <$> fresh
  | .makeStore identifier name => (fun _ => []) <$> s.makeStore identifier name
  | .makeTemporary => (fun _ => []) <$> s.makeTemporary
  | .bind b => (fun _ => []) <$> s.bind b
  | .bindBuiltins => (fun _ => []) <$> s.bindBuiltins
  | .note state => (fun _ => []) <$> modify fun w => { w with host := state }
  | .request q => Prod.snd <$> q.run host s
  | .declare options evaluator d => d.run ⟨host, options, evaluator⟩ s

/-- Scopes are opened as roots or in other scopes, are asked for something, and are dropped. -/
inductive Action (κ η : Type)
  | openRoot
  | openChild (parent : Scope)
  | drop (s : Scope)
  | act (s : Scope) (op : Operation κ η)

/-- The instructions of an action. -/
def Action.run (host : Host κ η) : Action κ η → CompileM κ η (List (Instruction κ))
  | .openRoot => (fun _ => []) <$> modify fun w => w.addRoot.2
  | .openChild parent => (fun _ => []) <$> modify fun w => (w.addChild parent).2
  | .drop s => (fun _ => []) <$> modify fun w => w.drop s
  | .act s op => op.run host s

/-- `Run host admits w program w'` says that from `w` a run can lead to `w'` and emit `program`, where
every action is admitted in the state that it is asked for in. -/
inductive Run (host : Host κ η) (admits : CompileState κ η → Action κ η → Prop) (w : CompileState κ η) :
    List (Instruction κ) → CompileState κ η → Prop
  | start : Run host admits w [] w
  | ok {program code : List (Instruction κ)} {w₁ w₂ : CompileState κ η} {a : Action κ η} :
    Run host admits w program w₁ → admits w₁ a → a.run host w₁ = .ok code w₂ →
      Run host admits w (program ++ code) w₂
  | error {program : List (Instruction κ)} {e : CompileError} {w₁ w₂ : CompileState κ η} {a : Action κ η} :
    Run host admits w program w₁ → admits w₁ a → a.run host w₁ = .error e w₂ → Run host admits w program w₂

/-! ### Host code that emits -/

/-- Host code that refuses every call. -/
def Host.inert (κ η : Type) : Host κ η where
  invoke _ _ arguments := throw (.of (.arityMismatch "inert" 0 arguments.length))

/-- Host code that sets a new temporary to its argument. -/
def Host.keeping : Host Unit Unit where
  invoke _ s
    | [v] => do
      let t ← s.makeTemporary
      let (result, code) ← t.operate (.inert Unit Unit) s (.assign .plain) [v]
      return (some result, code)
    | arguments => throw (.of (.arityMismatch "keep" 1 arguments.length))

/-- An object that answers every member by host code. -/
def answering : Value Unit := .object 0 { handlers := [(.get, .host "keep" ())] }

end DeclCompiler
