import DeclCompiler.Evaluator

/-!
Host code as data. A script is a list of steps that make values, apply capabilities to them, and keep
results in named registers. A routine is a script with a name and a result; as a value it becomes a
closure over the registers that it was made under.
-/

namespace DeclCompiler.Script

mutual

/-- How to make a value. Every recipe but that of a register makes a new one. -/
inductive Recipe
  | literal (l : Literal)
  | void
  | store (name : String) (temporary : Bool)
  | register (name : String)
  | object (members : List (String × Recipe)) (handlers : List (Handler × Routine))
  | array (items : List (Option Recipe)) (members : List (String × Recipe)) (handlers : List (Handler × Routine))
  | getLink
  | function (routine : Routine)

inductive Routine
  | mk (name : String) (steps : List Step) (result : Option Recipe)

/-- The register named by `into` receives the value that a step yields. -/
inductive Step
  | make (value : Recipe) (into : Option String)
  | makeTemporary (into : Option String)
  | makeStore (identifier name : String) (into : Option String)
  | bind (identifier name : String) (value : Recipe) (constant : Bool)
  | lookup (identifier : String) (ownOnly : Bool) (into : Option String)
  | scopeInfo
  | bindBuiltins
  | eval (a : Recipe) (into : Option String)
  | consume (a : Recipe) (into : Option String)
  | getMember (a key : Recipe) (into : Option String)
  /-- Makes the receiver before the operands. -/
  | apply (a : Recipe) (op : Operator) (operands : List Recipe) (into : Option String)
  /-- Makes the operands before the receiver. -/
  | operate (a : Recipe) (op : Operator) (operands : List Recipe) (into : Option String)
  | call (a : Recipe) (arguments : List Recipe) (into : Option String)
  | ensureOwned (a : Recipe)
  | same (a b : Recipe)
  | setMutability (a : Recipe) (m : Mutability)
  | members (a : Recipe)
  | emit (opcode : Opcode) (output : Option Recipe) (operands : List Recipe)
  | emitSet (a b : Recipe)
  | emitOp (m : MachineOp) (a : Recipe) (arguments : List Recipe)
  /-- Fails unless the script was called with `n` arguments. -/
  | arity (name : String) (n : Nat)
  | fail (cause : Cause) (span : Option Span)
  | failUnsupported (operation : String) (a : Recipe) (span : Option Span)

end

def Routine.name : Routine → String
  | .mk name _ _ => name

/-- A routine with the registers that it was made under. -/
inductive Closure
  | mk (routine : Routine) (registers : List (String × Value Closure))

def Closure.name : Closure → String
  | .mk routine _ => routine.name

abbrev Registers := List (String × Value Closure)

/-- What scripts leave behind besides values: the calls made so far, and how many expressions an
evaluator was asked for. -/
structure Log where
  /-- The calls made so far, the latest first. -/
  latest : List String
  evals : Nat
  consumes : Nat

namespace Log

def empty : Log := ⟨[], 0, 0⟩

/-- The calls in the order in which they were made. -/
def calls (l : Log) : List String := l.latest.reverse

def record (entry : String) (l : Log) : Log := { l with latest := entry :: l.latest }

def forgetCalls (l : Log) : Log := { l with latest := [] }

@[simp] theorem calls_record (entry : String) (l : Log) : (l.record entry).calls = l.calls ++ [entry] :=
  List.reverse_cons

@[simp] theorem calls_forgetCalls (l : Log) : l.forgetCalls.calls = [] := rfl

end Log

abbrev ScriptM := CompileM Closure Log

/-- What a step yields. A step that does not apply to its value is refused. -/
inductive Outcome
  | nothing
  | value (v : Value Closure)
  | binding (b : Binding Closure)
  | flag (b : Bool)
  | scopeInfo (id size : Nat)
  | members (ms : List (String × Value Closure))
  | scopeAdded (index id : Nat)
  | options (compactNames : Bool) (maxPatternDepth : Nat)
  | counts (evals consumes : Nat)
  | program (code : List (Instruction Closure))
  | refused

end DeclCompiler.Script
