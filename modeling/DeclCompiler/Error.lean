import DeclCompiler.Handler
import DeclCompiler.Span

/-!
Why a compilation fails, and where. An error names the places it concerns; places are attached on
the way out of nested nodes, and the first attachment stays.
-/

namespace DeclCompiler

inductive Cause
  | uninitializedConstant
  | macroBinding
  | alreadyDeclared (identifier : String)
  | unsupportedPattern (kind : String)
  | patternTooDeep (limit : Nat)
  | missingInitializer (pattern : String)
  | notMacro
  | notObject
  | missingIndex (index : Nat)
  | restNotSupported
  | unsupported (operation value : String)
  | undefinedMember
  | handlerWithoutValue (handler : Handler)
  | constantAssignment (name : String)
  | macroStore (store : String)
  | arityMismatch (name : String) (expected got : Nat)
  | invalidLinkIndex
  | undefinedIdentifier (identifier : String)
  | unknownExpression (id : Nat)
deriving DecidableEq

def Cause.message : Cause → String
  | .uninitializedConstant => "Constants must be initialized."
  | .macroBinding => "Macro values must be held by constants"
  | .alreadyDeclared identifier => identifier ++ " is already declared."
  | .unsupportedPattern kind => "Unsupported declaration type: " ++ kind
  | .patternTooDeep limit => "The destructuring pattern is nested deeper than " ++ limit.repr ++ " levels"
  | .missingInitializer pattern => "Cannot use " ++ pattern ++ " destructuring without an initializer"
  | .notMacro => "The value being destructured must be a macro value"
  | .notObject => "The value being destructured must be an object value"
  | .missingIndex index => "The target object does not have a value at index " ++ index.repr
  | .restNotSupported => "The rest operator is not supported"
  | .unsupported operation value => value ++ " cannot " ++ operation ++ "."
  | .undefinedMember => "Cannot get undefined member."
  | .handlerWithoutValue handler => "The " ++ handler.text ++ " handler did not produce a value"
  | .constantAssignment name => "Cannot assign to constant " ++ name
  | .macroStore store => "Macro values cannot be stored in " ++ store
  | .arityMismatch name expected got =>
    name ++ " expects " ++ expected.repr ++ " argument(s), got " ++ got.repr
  | .invalidLinkIndex => "The getlink index must be a number literal or a store"
  | .undefinedIdentifier identifier => identifier ++ " is not defined"
  | .unknownExpression id => "Expression #" ++ id.repr ++ " has no value"

structure CompileError where
  cause : Cause
  spans : List Span
deriving DecidableEq

namespace CompileError

/-- An error that is not yet attached to a place. -/
def of (cause : Cause) : CompileError := ⟨cause, []⟩

def message (e : CompileError) : String := e.cause.message

def primary? (e : CompileError) : Option Span := e.spans.head?

def withSpans (e : CompileError) (spans : List Span) : CompileError :=
  if e.spans.isEmpty then { e with spans } else e

def withSpan (e : CompileError) (span : Span) : CompileError := e.withSpans [span]

end CompileError

/-- Attaches a place to the error of an action, unless it has one. -/
def locating {σ α : Type} (span : Span) (action : EStateM CompileError σ α) : EStateM CompileError σ α :=
  fun w =>
    match action w with
    | .ok a w' => .ok a w'
    | .error e w' => .error (e.withSpan span) w'

end DeclCompiler
