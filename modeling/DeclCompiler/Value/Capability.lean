import DeclCompiler.Host
import DeclCompiler.Literal.Fold

/-!
What can be done with values: evaluate, consume, read a member, call, and apply operators. Constants
are folded, variables emit instructions, and objects leave to their handlers what they have handlers
for. All else fails, and the error names the value that does not support the operation.
-/

namespace DeclCompiler

variable {κ η : Type}

def CompileError.unsupported (operation : String) (v : Value κ) : CompileError :=
  .of (.unsupported operation v.text)

def CompileError.unsupportedOperator (op : Operator) (v : Value κ) : CompileError :=
  .unsupported ("'" ++ op.symbol ++ "' operation") v

namespace Value

/-! ### Instructions for operators -/

/-- Emits a machine operation into a new temporary. -/
def emitOp (s : Scope) (m : MachineOp) (arguments : List (Value κ)) : CompileM κ η (Computed κ) := do
  let output ← s.makeTemporary
  return (output, [.op m output arguments])

/-- A right operand without a place in the program is refused before the operator is looked at. -/
def emitBinary (s : Scope) (op : BinaryOp) (left right : Value κ) : CompileM κ η (Computed κ) :=
  if right.isMacro then throw (.unsupportedOperator (.binary op) right)
  else match MachineOp.ofBinary? op with
    | none => throw (.unsupportedOperator (.binary op) left)
    | some m => emitOp s m [left, right]

/-- Negation, conversion and truth test are operations with zero. -/
def emitUnary (s : Scope) (op : UnaryOp) (v : Value κ) : CompileM κ η (Computed κ) :=
  match op with
  | .neg => do emitOp s .sub [← newLiteral (.number 0), v]
  | .plus => do emitOp s .add [v, ← newLiteral (.number 0)]
  | .not => do emitOp s .equal [v, ← newLiteral (.number 0)]
  | .bitNot => emitOp s .not [v]
  | .typeOf => throw (.unsupportedOperator (.unary op) v)

/-- Assigns to a variable of the program and yields the variable. -/
def emitAssign (op : AssignOp) (name : String) (target value : Value κ) : CompileM κ η (Computed κ) := do
  if (← get).mutability target ≠ .writable then throw (.of (.constantAssignment name))
  else if value.isMacro then throw (.of (.macroStore name))
  else match op.binary? with
    | none => return (target, [.set target value])
    | some binary =>
      match MachineOp.ofBinary? binary with
      | none => throw (.unsupportedOperator (.assign op) target)
      | some m => return (target, [.op m target [target, value]])

/-! ### Capabilities -/

/-- Runs a handler that has to produce a value. -/
def runHandler (host : Host κ η) (s : Scope) (h : Handler) (f : MacroFn κ) (arguments : List (Value κ)) :
    CompileM κ η (Computed κ) := do
  match ← f.invoke host s arguments with
  | (some v, code) => return (v, code)
  | (none, _) => throw (.of (.handlerWithoutValue h))

def eval (host : Host κ η) (s : Scope) (v : Value κ) : CompileM κ η (Computed κ) :=
  match v with
  | .void _ => throw (.unsupported "eval" v)
  | .object _ o =>
    match o.handler? .eval with
    | some f => runHandler host s .eval f []
    | none => return (v, [])
  | .literal .. | .store .. | .function .. => return (v, [])

/-- Whether a value can be kept by what consumes it. -/
def ensureOwned (v : Value κ) : CompileM κ η Unit :=
  match v with
  | .void _ | .literal .. => throw (.unsupported "be owned" v)
  | .store .. | .object .. | .function .. => return

def consume (host : Host κ η) (s : Scope) (v : Value κ) : CompileM κ η (Computed κ) :=
  match v with
  | .void _ => throw (.unsupported "consume" v)
  | .object _ o =>
    match o.handler? .consume with
    | some f => runHandler host s .consume f []
    | none => do
      let (result, code) ← v.eval host s
      result.ensureOwned
      return (result, code)
  | .literal .. | .store .. | .function .. => return (v, [])

/-- Reads a member. A string has a length, counted in UTF-16 units. -/
def getMember (host : Host κ η) (s : Scope) (v key : Value κ) : CompileM κ η (Computed κ) :=
  match v with
  | .object _ o =>
    match o.member? key with
    | some member => return (member, [])
    | none =>
      match o.handler? .get with
      | some f => runHandler host s .get f [key]
      | none => throw (.of .undefinedMember)
  | .literal _ (.string text) =>
    if key.literal? = some (.string "length") then
      return (← newLiteral (lengthLiteral (Text.units text).length), [])
    else throw (.unsupported "get" v)
  | _ => throw (.unsupported "get" v)

def call (host : Host κ η) (s : Scope) (v : Value κ) (arguments : List (Value κ)) : CompileM κ η (Called κ) :=
  match v with
  | .object _ o =>
    match o.handler? .call with
    | some f => f.invoke host s arguments
    | none => throw (.unsupported "call" v)
  | .function _ f => f.invoke host s arguments
  | _ => throw (.unsupported "call" v)

/-- Applies an operator to a value and further operands. Objects and functions tell their type
whatever the operands. -/
def operate (host : Host κ η) (s : Scope) (v : Value κ) (op : Operator) (operands : List (Value κ)) :
    CompileM κ η (Computed κ) :=
  match v with
  | .void _ => throw (.unsupportedOperator op v)
  | .literal _ l =>
    match op, operands with
    | .unary unary, [] => return (← newLiteral (l.foldUnary unary), [])
    | .binary binary, [right] =>
      match right.literal? with
      | none => emitBinary s binary v right
      | some r =>
        match l.foldBinary? binary r with
        | some result => return (← newLiteral result, [])
        | none => throw (.unsupportedOperator op v)
    | _, _ => throw (.unsupportedOperator op v)
  | .store _ name _ =>
    match op, operands with
    | .assign assign, [value] => emitAssign assign name v value
    | .binary binary, [right] => emitBinary s binary v right
    | .unary unary, [] => emitUnary s unary v
    | _, _ => throw (.unsupportedOperator op v)
  | .object _ o =>
    if op = .unary .typeOf then return (← newLiteral (.string "object"), [])
    else
      match o.handler? (.operator op) with
      | some f => runHandler host s (.operator op) f operands
      | none => throw (.unsupportedOperator op v)
  | .function _ _ =>
    if op = .unary .typeOf then return (← newLiteral (.string "function"), [])
    else throw (.unsupportedOperator op v)

end Value

end DeclCompiler
