import DeclCompiler.Script.Build

/-!
Running scripts. A called routine starts from the registers of its closure and its arguments, and
what it writes to registers is not seen outside.
-/

namespace DeclCompiler.Script

/-- What a step yields, the instructions it emits, and the registers after it. -/
structure StepResult where
  outcome : Outcome
  code : List (Instruction Closure)
  registers : Registers

def writeInto (registers : Registers) (into : Option String) (v : Value Closure) : Registers :=
  match into with
  | none => registers
  | some name => Entries.put name v registers

namespace StepResult

def ofOutcome (registers : Registers) (outcome : Outcome) : StepResult := ⟨outcome, [], registers⟩

def ofValue (registers : Registers) (into : Option String) (v : Value Closure) : StepResult :=
  ⟨.value v, [], writeInto registers into v⟩

def ofComputed (registers : Registers) (into : Option String) (r : Computed Closure) : StepResult :=
  ⟨.value r.1, r.2, writeInto registers into r.1⟩

def ofCalled (registers : Registers) (into : Option String) : Called Closure → StepResult
  | (some v, code) => ofComputed registers into (v, code)
  | (none, code) => ⟨.nothing, code, registers⟩

def ofCode (registers : Registers) (code : List (Instruction Closure)) : StepResult := ⟨.nothing, code, registers⟩

end StepResult

/-- How many arguments a script sees: the registers whose names start with a dollar sign. -/
def argumentCount (registers : Registers) : Nat := (registers.filter fun r => r.1.startsWith "$").length

def failWith {α : Type} (e : CompileError) (span : Option Span) : ScriptM α :=
  throw (match span with
    | some s => e.withSpan s
    | none => e)

def Step.run (host : Host Closure Log) (s : Scope) (regs : Registers) (step : Step) : ScriptM StepResult :=
  match step with
  | .make value into => return .ofValue regs into (← value.build regs)
  | .makeTemporary into => return .ofValue regs into (← s.makeTemporary)
  | .makeStore identifier name into => return .ofValue regs into (← s.makeStore identifier name)
  | .bind identifier name value constant => do
    let b : Binding Closure := { identifier, name, scope := s.id, value := ← value.build regs, constant }
    s.bind b
    return .ofOutcome regs (.binding b)
  | .lookup identifier ownOnly into => do
    let w ← get
    match if ownOnly then w.own? s.table identifier else w.lookup? s identifier with
    | some b => return ⟨.binding b, [], writeInto regs into b.value⟩
    | none => return .ofOutcome regs .nothing
  | .scopeInfo => return .ofOutcome regs (.scopeInfo s.id ((← get).table s.table).length)
  | .bindBuiltins => do
    s.bindBuiltins
    return .ofOutcome regs .nothing
  | .eval a into => do
    let v ← a.build regs
    return .ofComputed regs into (← v.eval host s)
  | .consume a into => do
    let v ← a.build regs
    return .ofComputed regs into (← v.consume host s)
  | .getMember a key into => do
    let v ← a.build regs
    let k ← key.build regs
    return .ofComputed regs into (← v.getMember host s k)
  | .apply a op operands into => do
    let v ← a.build regs
    let vs ← buildAll regs operands
    return .ofComputed regs into (← v.operate host s op vs)
  | .operate a op operands into => do
    let vs ← buildAll regs operands
    let v ← a.build regs
    return .ofComputed regs into (← v.operate host s op vs)
  | .call a arguments into => do
    let vs ← buildAll regs arguments
    let v ← a.build regs
    return .ofCalled regs into (← v.call host s vs)
  | .ensureOwned a => do
    let v ← a.build regs
    v.ensureOwned
    return .ofOutcome regs .nothing
  | .same a b => do
    let v ← a.build regs
    let v' ← b.build regs
    return .ofOutcome regs (.flag (v.same v'))
  | .setMutability a m => do
    let v ← a.build regs
    match v with
    | .store .. =>
      modify (·.setMutability v m)
      return .ofValue regs none v
    | _ => return .ofOutcome regs .refused
  | .members a => do
    match ← a.build regs with
    | .object _ o => return .ofOutcome regs (.members o.members)
    | _ => return .ofOutcome regs .refused
  | .emit opcode output operands => do
    let output ← buildItem regs output
    let operands ← buildAll regs operands
    return .ofCode regs [{ opcode, output, operands }]
  | .emitSet a b => do
    let v ← a.build regs
    let v' ← b.build regs
    return .ofCode regs [.set v v']
  | .emitOp m a arguments => do
    let vs ← buildAll regs arguments
    let v ← a.build regs
    return .ofCode regs [.op m v vs]
  | .arity name n =>
    if argumentCount regs = n then return .ofOutcome regs .nothing
    else throw (.of (.arityMismatch name n (argumentCount regs)))
  | .fail cause span => failWith (.of cause) span
  | .failUnsupported operation a span => do
    let v ← a.build regs
    failWith (.unsupported operation v) span

/-- Runs steps in order, and gives their instructions and the registers after them. -/
def runSteps (host : Host Closure Log) (s : Scope) (regs : Registers) :
    List Step → ScriptM (List (Instruction Closure) × Registers)
  | [] => return ([], regs)
  | step :: rest => do
    let r ← step.run host s regs
    let (code, regs') ← runSteps host s r.registers rest
    return (r.code ++ code, regs')

/-- Runs steps and makes their result. -/
def runBody (host : Host Closure Log) (s : Scope) (regs : Registers) (steps : List Step) (result : Option Recipe) :
    ScriptM (Called Closure) := do
  let (code, regs') ← runSteps host s regs steps
  return (← buildItem regs' result, code)

def argumentRegisters (arguments : List (Value Closure)) : Registers :=
  arguments.zipIdx.map fun (v, i) => ("$" ++ i.repr, v)

/-- A call as it is logged. -/
def callText (name : String) (arguments : List (Value Closure)) : String :=
  name ++ "(" ++ String.intercalate ", " (arguments.map (·.text)) ++ ")"

def logCall (entry : String) : ScriptM Unit :=
  modify fun w => { w with host := w.host.record entry }

def Closure.invoke (host : Host Closure Log) (s : Scope) (arguments : List (Value Closure)) :
    Closure → ScriptM (Called Closure)
  | .mk (.mk name steps result) registers => do
    logCall (callText name arguments)
    runBody host s (Entries.putAll (argumentRegisters arguments) registers) steps result

/-- The host whose code are closures. Calls nested deeper than `depth` are refused, so that scripts
which call themselves without end have a meaning too. -/
def hostOfDepth : (depth : Nat) → Host Closure Log
  | 0 => ⟨fun c _ _ => throw (.of (.unsupported "call" (Value.function 0 (.host c.name c)).text))⟩
  | depth + 1 => ⟨fun c s arguments => c.invoke (hostOfDepth depth) s arguments⟩

end DeclCompiler.Script
