import DeclCompiler.Evaluator

/-!
Lowering of declarations.

A pattern is matched against its initial value while compiling. Each identifier in it becomes a
variable of the program that is set to its part of the value, or, for a constant whose part cannot
change, another name for that part. Instructions and errors are attributed to the innermost node
that they come from.
-/

namespace DeclCompiler

variable {κ η : Type}

structure Options where
  /-- Leaves the identifiers out of the names of variables. -/
  compactNames : Bool
  /-- Patterns nested deeper than this are refused. -/
  maxPatternDepth : Nat
deriving DecidableEq

def Options.standard : Options := ⟨false, 512⟩

structure Compiler (κ η : Type) where
  host : Host κ η
  options : Options
  evaluator : Evaluator κ η

/-- Attributes the instructions of an action, or its error, to a place, where they have none yet. -/
def attributing {σ : Type} (span : Span) (action : EStateM CompileError σ (List (Instruction κ))) :
    EStateM CompileError σ (List (Instruction κ)) :=
  return (← locating span action).map (·.withSource span)

namespace Compiler

/-- A compiler with the standard options that knows no external expression. -/
def standard (host : Host κ η) : Compiler κ η := ⟨host, .standard, .basic host []⟩

/-- The name of the variable that an identifier declares. -/
def variableName (c : Compiler κ η) (id : Identifier) : String :=
  declaredName id.span (if c.options.compactNames then none else some id.name)

/-- Declares a variable and sets it to its initial value. The variable stays declared when the value
turns out to have no place in the program. -/
def declareVariable (c : Compiler κ η) (s : Scope) (kind : DeclKind) (id : Identifier) (init : Option (Value κ)) :
    CompileM κ η (List (Instruction κ)) := do
  let store ← s.makeStore id.name (c.variableName id)
  match init with
  | none => return []
  | some v =>
    if v.isMacro then throw (.of .macroBinding)
    else
      if kind.isConst then modify (·.setMutability store .constantBinding)
      return [.set store v]

/-- A constant with an immutable value is another name for that value. -/
def declareIdentifier (c : Compiler κ η) (s : Scope) (kind : DeclKind) (id : Identifier) (init : Option (Value κ)) :
    CompileM κ η (List (Instruction κ)) := do
  if kind.isConst then
    match init with
    | none => throw (.of .uninitializedConstant)
    | some v =>
      if (← get).mutability v = .immutable then
        s.bind { identifier := id.name, name := c.variableName id, scope := s.id, value := v, constant := true }
        return []
      else c.declareVariable s kind id init
  else c.declareVariable s kind id init

/-- The key of a property: the text of a plain identifier, and the value of any other expression. -/
def propertyKey (c : Compiler κ η) (s : Scope) (key : Expr) (computed : Bool) : CompileM κ η (Computed κ) :=
  match key.kind, computed with
  | .identifier name, false => return (← newLiteral (.string name), [])
  | _, _ => c.evaluator.consume s key

/-- The object that an array pattern takes apart. -/
def arrayObject (init : Option (Value κ)) : CompileM κ η (Object κ (Value κ)) :=
  match init with
  | none => throw (.of (.missingInitializer "array"))
  | some (.object _ o) => return o
  | some v => throw (.of (if v.isMacro then .notObject else .notMacro))

mutual

/-- Declares a pattern that stands under `depth` others. -/
def declareAt (c : Compiler κ η) (s : Scope) (kind : DeclKind) (depth : Nat) (p : Pattern)
    (init : Option (Value κ)) : CompileM κ η (List (Instruction κ)) :=
  if c.options.maxPatternDepth ≤ depth then throw ⟨.patternTooDeep c.options.maxPatternDepth, [p.span]⟩
  else attributing p.span <|
    match p with
    | .identifier id => c.declareIdentifier s kind id init
    | .array elements _ => do
      let o ← arrayObject init
      declareElements c s kind (depth + 1) o 0 elements
    | .object properties _ =>
      match init with
      | none => throw (.of (.missingInitializer "object"))
      | some v => do
        let (consumed, code) ← v.consume c.host s
        return code ++ (← declareProperties c s kind (depth + 1) consumed properties)
    | .assignment .. | .rest .. | .member _ => throw (.of (.unsupportedPattern p.kindName))
termination_by structural p

def declareElements (c : Compiler κ η) (s : Scope) (kind : DeclKind) (depth : Nat) (o : Object κ (Value κ))
    (index : Nat) (elements : List (Option Pattern)) : CompileM κ η (List (Instruction κ)) :=
  match elements with
  | [] => return []
  | element :: rest => do
    let code ← declareElement c s kind depth o index element
    return code ++ (← declareElements c s kind depth o (index + 1) rest)
termination_by structural elements

def declareElement (c : Compiler κ η) (s : Scope) (kind : DeclKind) (depth : Nat) (o : Object κ (Value κ))
    (index : Nat) (element : Option Pattern) : CompileM κ η (List (Instruction κ)) :=
  match element with
  | none => return []
  | some p =>
    match o.get? index.repr with
    | none => throw ⟨.missingIndex index, [p.span]⟩
    | some v => declareAt c s kind depth p (some v)
termination_by structural element

def declareProperties (c : Compiler κ η) (s : Scope) (kind : DeclKind) (depth : Nat) (consumed : Value κ)
    (properties : List Property) : CompileM κ η (List (Instruction κ)) :=
  match properties with
  | [] => return []
  | property :: rest => do
    let code ← declareProperty c s kind depth consumed property
    return code ++ (← declareProperties c s kind depth consumed rest)
termination_by structural properties

def declareProperty (c : Compiler κ η) (s : Scope) (kind : DeclKind) (depth : Nat) (consumed : Value κ)
    (property : Property) : CompileM κ η (List (Instruction κ)) :=
  match property with
  | .rest _ span => throw ⟨.restNotSupported, [span]⟩
  | .keyed key p computed span => attributing span do
    let (k, keyCode) ← c.propertyKey s key computed
    let (v, getCode) ← consumed.getMember c.host s k
    return keyCode ++ getCode ++ (← declareAt c s kind depth p (some v))
termination_by structural property

end

def declare (c : Compiler κ η) (s : Scope) (kind : DeclKind) (p : Pattern) (init : Option (Value κ)) :
    CompileM κ η (List (Instruction κ)) :=
  c.declareAt s kind 0 p init

/-- Evaluates the initial value of a declarator, if it has one, and declares its pattern. -/
def compileDeclarator (c : Compiler κ η) (s : Scope) (kind : DeclKind) (d : Declarator) :
    CompileM κ η (List (Instruction κ)) :=
  attributing d.span do
    match d.init with
    | none => c.declare s kind d.target none
    | some e =>
      let (v, code) ← c.evaluator.eval s e
      return code ++ (← c.declare s kind d.target (some v))

def compileDeclarators (c : Compiler κ η) (s : Scope) (kind : DeclKind) :
    List Declarator → CompileM κ η (List (Instruction κ))
  | [] => return []
  | d :: rest => do
    let code ← c.compileDeclarator s kind d
    return code ++ (← compileDeclarators c s kind rest)

def compileDeclaration (c : Compiler κ η) (s : Scope) (d : Declaration) : CompileM κ η (List (Instruction κ)) :=
  attributing d.span (c.compileDeclarators s d.kind d.declarators)

end Compiler

end DeclCompiler
