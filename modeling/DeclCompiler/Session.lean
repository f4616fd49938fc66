import DeclCompiler.Compiler
import DeclCompiler.Script.Run

/-!
Sessions: commands carried out one after another on registers, scopes, one compiler and the program
emitted so far. A failed command leaves behind what it did before it failed, and the session goes on.
-/

namespace DeclCompiler

open Script

/-- A script that an external expression stands for, with the registers it was made under. -/
structure ScriptedExpr where
  steps : List Step
  result : Option Recipe
  registers : Registers

structure Session where
  state : CompileState Closure Log
  registers : Registers
  /-- The scopes in the order of their creation; dropped ones keep their place. -/
  scopes : List (Option Scope)
  options : Options
  /-- Whether every evaluated expression is also set to a temporary. -/
  counting : Bool
  externals : List (Nat × Value Closure)
  scripted : List (Nat × ScriptedExpr)
  program : List (Instruction Closure)

/-- What a session can be told to do. Scopes are chosen by their place in the session. -/
inductive Command
  | step (scope : Nat) (step : Step)
  | newScope (parent : Option Nat)
  | dropScope (scope : Nat)
  | newCompiler (options : Options) (counting keep : Bool)
  | define (id : Nat) (value : Recipe)
  | defineScript (id : Nat) (steps : List Step) (result : Option Recipe)
  | counts
  | evalExpr (scope : Nat) (expr : Expr) (into : Option String)
  | consumeExpr (scope : Nat) (expr : Expr) (into : Option String)
  | declare (scope : Nat) (kind : DeclKind) (pattern : Pattern) (init : Option Recipe)
  /-- Declares with a new compiler that has the standard options and knows no external expression. -/
  | declareAlone (scope : Nat) (kind : DeclKind) (pattern : Pattern) (init : Option Recipe)
  | declarator (scope : Nat) (kind : DeclKind) (declarator : Declarator)
  | declaration (scope : Nat) (declaration : Declaration)
  | within (span : Span) (commands : List Command)
  | attributeProgram (span : Span)
  | setAlwaysRuns (value : Bool)
  | showProgram

abbrev SessionM := EStateM CompileError Session

namespace Session

def start (options : Options) (counting : Bool) : Session :=
  let (root, state) := (CompileState.initial Log.empty).addRoot
  { state, registers := [], scopes := [some root], options, counting, externals := [], scripted := [],
    program := [] }

/-- Sessions have no bound on how deep calls nest other than memory, which is spent long before calls
nest this deep. -/
def callDepth : Nat := 1000000000000

def host : Host Closure Log := hostOfDepth callDepth

/-! ### The evaluator of a session

Requests are counted before they are answered. A script wins over a value defined for the same
external expression. -/

def countEval : ScriptM Unit := modify fun w => { w with host := { w.host with evals := w.host.evals + 1 } }

def countConsume : ScriptM Unit :=
  modify fun w => { w with host := { w.host with consumes := w.host.consumes + 1 } }

/-- The value of a scripted expression, which is void when the script has no result. -/
def evalScripted (x : ScriptedExpr) (s : Scope) : ScriptM (Computed Closure) := do
  match ← runBody host s x.registers x.steps x.result with
  | (some v, code) => return (v, code)
  | (none, code) => return (← newVoid, code)

def answer (x : Session) (s : Scope) (e : Expr) : ScriptM (Computed Closure) :=
  match e.kind with
  | .external id =>
    match Entries.get? id x.scripted with
    | some script => evalScripted script s
    | none => Evaluator.evalBasic x.externals s e
  | _ => Evaluator.evalBasic x.externals s e

def evalExpr (x : Session) (s : Scope) (e : Expr) : ScriptM (Computed Closure) := do
  countEval
  let (v, code) ← x.answer s e
  if x.counting then
    let t ← s.makeTemporary
    return (v, code ++ [.set t v])
  else return (v, code)

def consumeExpr (x : Session) (s : Scope) (e : Expr) : ScriptM (Computed Closure) := do
  countConsume
  Evaluator.consumeAfter host x.evalExpr s e

def compiler (x : Session) : Compiler Closure Log where
  host := host
  options := x.options
  evaluator := { eval := x.evalExpr, consume := x.consumeExpr }

/-! ### Commands -/

/-- Carries out a step of the compilation within the session. -/
def compiling {α : Type} (action : ScriptM α) : SessionM α := fun x =>
  match action x.state with
  | .ok a w => .ok a { x with state := w }
  | .error e w => .error e { x with state := w }

/-- What a command yields and the instructions it emits. -/
abbrev Answer := Outcome × List (Instruction Closure)

/-- Runs an action in the scope at the given place; without such a scope the command is refused. -/
def inScope (i : Nat) (action : Scope → SessionM Answer) : SessionM Answer := do
  match (← get).scopes[i]? with
  | some (some s) => action s
  | _ => return (.refused, [])

def runStep (s : Scope) (step : Step) : SessionM Answer := do
  let r ← compiling (step.run host s (← get).registers)
  modify fun x => { x with registers := r.registers }
  return (r.outcome, r.code)

/-- Keeps a computed value in a register and yields it. -/
def keepComputed (into : Option String) (r : Computed Closure) : SessionM Answer := do
  modify fun x => { x with registers := writeInto x.registers into r.1 }
  return (.value r.1, r.2)

def addScope (make : CompileState Closure Log → Scope × CompileState Closure Log) : SessionM Answer := do
  let x ← get
  let (s, state) := make x.state
  set { x with state, scopes := x.scopes ++ [some s] }
  return (.scopeAdded x.scopes.length s.id, [])

/-- Replaces the compiler. Without `keep` its evaluator starts anew. -/
def replaceCompiler (options : Options) (counting keep : Bool) (x : Session) : Session :=
  if keep then { x with options, counting }
  else { x with
    options, counting, externals := [], scripted := []
    state := { x.state with host := { x.state.host with evals := 0, consumes := 0 } } }

def emitting (action : SessionM (List (Instruction Closure))) : SessionM Answer := return (.nothing, ← action)

mutual

def run (c : Command) : SessionM Answer :=
  match c with
  | .step scope step => inScope scope (runStep · step)
  | .newScope none => addScope (·.addRoot)
  | .newScope (some parent) => inScope parent fun s => addScope (·.addChild s)
  | .dropScope scope => inScope scope fun s => do
    modify fun x => { x with state := x.state.drop s, scopes := x.scopes.set scope none }
    return (.nothing, [])
  | .newCompiler options counting keep => do
    modify (replaceCompiler options counting keep)
    return (.options options.compactNames options.maxPatternDepth, [])
  | .define id value => do
    let v ← compiling (value.build (← get).registers)
    modify fun x => { x with externals := Entries.put id v x.externals }
    return (.nothing, [])
  | .defineScript id steps result => do
    modify fun x => { x with scripted := Entries.put id ⟨steps, result, x.registers⟩ x.scripted }
    return (.nothing, [])
  | .counts => do
    let log := (← get).state.host
    return (.counts log.evals log.consumes, [])
  | .evalExpr scope e into => inScope scope fun s => do
    keepComputed into (← compiling ((← get).evalExpr s e))
  | .consumeExpr scope e into => inScope scope fun s => do
    keepComputed into (← compiling ((← get).consumeExpr s e))
  | .declare scope kind p init => inScope scope fun s => do
    let v ← compiling (buildItem (← get).registers init)
    emitting do compiling ((← get).compiler.declare s kind p v)
  | .declareAlone scope kind p init => inScope scope fun s => do
    let v ← compiling (buildItem (← get).registers init)
    emitting (compiling ((Compiler.standard host).declare s kind p v))
  | .declarator scope kind d => inScope scope fun s =>
    emitting do compiling ((← get).compiler.compileDeclarator s kind d)
  | .declaration scope d => inScope scope fun s =>
    emitting do compiling ((← get).compiler.compileDeclaration s d)
  | .within span commands => emitting (attributing span (runAll commands))
  | .attributeProgram span => do
    modify fun x => { x with program := x.program.map (·.withSource span) }
    return (.nothing, [])
  | .setAlwaysRuns value => do
    modify fun x => { x with program := x.program.map (·.withAlwaysRuns value) }
    return (.nothing, [])
  | .showProgram => return (.program (← get).program, [])
termination_by structural c

def runAll (commands : List Command) : SessionM (List (Instruction Closure)) :=
  match commands with
  | [] => return []
  | c :: rest => do
    let (_, code) ← run c
    return code ++ (← runAll rest)
termination_by structural commands

end

/-- Carries out a command and appends its instructions to the program. The log of calls starts anew
with every command. -/
def perform (x : Session) (c : Command) : Except CompileError Answer × Session :=
  match run c { x with state := { x.state with host := x.state.host.forgetCalls } } with
  | .ok a x' => (.ok a, { x' with program := x'.program ++ a.2 })
  | .error e x' => (.error e, x')

end Session

end DeclCompiler
