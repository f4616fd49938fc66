import DeclCompiler.Error
import DeclCompiler.Instruction
import DeclCompiler.Scope

/-!
The state of compilations: name tables, owners of values, assignability of variables, and counters.
A compilation is a root scope with its descendants, which share the counters. Failing does not undo
what was done before, so a failed step leaves the state as it was when it failed.
-/

namespace DeclCompiler

/-- How many scopes and temporaries a compilation has had, which numbers the next ones. -/
structure Counters where
  scopes : Nat
  temporaries : Nat

/-- How many numbers there are in 32 bits, which is what a counter has. It counts as the numbers here do as long as it
stays below this limit. -/
def Counters.limit : Nat := 0x100000000

/-- Where the binding stands that a value belongs to. -/
structure Owner where
  table : Nat
  identifier : String
deriving DecidableEq

/-- The type `η` is that of the host's own state. -/
structure CompileState (κ η : Type) where
  /-- How many values have been made, which is the identity of the next one. -/
  values : Nat
  /-- The bindings of each scope in the order of declaration; a dropped scope has none. -/
  tables : List (Option (List (Binding κ)))
  counters : List Counters
  owners : List (Nat × Owner)
  mutabilities : List (Nat × Mutability)
  host : η

abbrev CompileM (κ η : Type) := EStateM CompileError (CompileState κ η)

variable {κ η : Type}

namespace CompileState

/-- The state before anything was made. -/
def initial (host : η) : CompileState κ η :=
  { values := 0, tables := [], counters := [], owners := [], mutabilities := [], host }

/-! ### Views -/

def table (w : CompileState κ η) (i : Nat) : List (Binding κ) :=
  match w.tables[i]? with
  | some (some bindings) => bindings
  | _ => []

def countersOf (w : CompileState κ η) (s : Scope) : Counters := w.counters[s.compilation]?.getD ⟨0, 0⟩

def own? (w : CompileState κ η) (i : Nat) (identifier : String) : Option (Binding κ) :=
  (w.table i).find? (·.identifier == identifier)

/-- The binding of an identifier in the nearest scope that has one. -/
def lookup? (w : CompileState κ η) (s : Scope) (identifier : String) : Option (Binding κ) :=
  s.chain.findSome? (w.own? · identifier)

/-- The binding that a value belongs to, as long as the scope of that binding exists. -/
def owner? (w : CompileState κ η) (v : Value κ) : Option (Binding κ) :=
  (Entries.get? v.id w.owners).bind fun o => w.own? o.table o.identifier

def mutability (w : CompileState κ η) : Value κ → Mutability
  | .void _ => .writable
  | .store id _ _ => (Entries.get? id w.mutabilities).getD .writable
  | .literal .. | .object .. | .function .. => .immutable

/-- A binding is constant by declaration or because its value cannot be assigned. -/
def isConstant (w : CompileState κ η) (b : Binding κ) : Bool :=
  b.constant || w.mutability b.value != .writable

/-! ### Changes -/

/-- Enters a binding. Its value belongs to it unless it belongs to another binding already. -/
def enter (w : CompileState κ η) (s : Scope) (b : Binding κ) : CompileState κ η :=
  { w with
    tables := w.tables.modify s.table (Option.map (· ++ [b]))
    owners :=
      if (w.owner? b.value).isSome then w.owners
      else Entries.put b.value.id ⟨s.table, b.identifier⟩ w.owners }

def addRoot (w : CompileState κ η) : Scope × CompileState κ η :=
  ({ table := w.tables.length, id := 0, compilation := w.counters.length, ancestors := [] },
    { w with tables := w.tables ++ [some []], counters := w.counters ++ [⟨1, 0⟩] })

def addChild (w : CompileState κ η) (parent : Scope) : Scope × CompileState κ η :=
  ({ table := w.tables.length, id := (w.countersOf parent).scopes, compilation := parent.compilation,
     ancestors := parent.chain },
    { w with
      tables := w.tables ++ [some []]
      counters := w.counters.modify parent.compilation fun c => { c with scopes := c.scopes + 1 } })

/-- Takes the next number for a temporary variable. -/
def addTemporary (w : CompileState κ η) (s : Scope) : Nat × CompileState κ η :=
  ((w.countersOf s).temporaries,
    { w with counters := w.counters.modify s.compilation fun c => { c with temporaries := c.temporaries + 1 } })

/-- Forgets a scope together with its bindings. -/
def drop (w : CompileState κ η) (s : Scope) : CompileState κ η := { w with tables := w.tables.set s.table none }

def setMutability (w : CompileState κ η) (v : Value κ) (m : Mutability) : CompileState κ η :=
  { w with mutabilities := Entries.put v.id m w.mutabilities }

end CompileState

/-! ### Steps of a compilation -/

/-- The identity of a new value. -/
def fresh : CompileM κ η Nat := modifyGet fun w => (w.values, { w with values := w.values + 1 })

def newVoid : CompileM κ η (Value κ) := return .void (← fresh)

def newLiteral (l : Literal) : CompileM κ η (Value κ) := return .literal (← fresh) l

def newStore (name : String) (temporary : Bool) : CompileM κ η (Value κ) :=
  return .store (← fresh) name temporary

def newObject (o : Object κ (Value κ)) : CompileM κ η (Value κ) := return .object (← fresh) o

def newFunction (f : MacroFn κ) : CompileM κ η (Value κ) := return .function (← fresh) f

/-- Makes the array of the given items, with the members and handlers of `extra`. -/
def newArray (items : List (Option (Value κ))) (extra : Object κ (Value κ)) : CompileM κ η (Value κ) := do
  let length ← newLiteral (lengthLiteral items.length)
  newObject (Object.ofItems length items extra)

namespace Scope

/-- Binds a name in a scope, which fails if the scope itself has it already. -/
def bind (s : Scope) (b : Binding κ) : CompileM κ η Unit := do
  let w ← get
  if (w.own? s.table b.identifier).isSome then throw (.of (.alreadyDeclared b.identifier))
  else set (w.enter s b)

/-- Declares a variable of the program. -/
def makeStore (s : Scope) (identifier name : String) : CompileM κ η (Value κ) := do
  let store ← newStore name false
  s.bind { identifier, name, scope := s.id, value := store, constant := false }
  return store

def makeTemporary (s : Scope) : CompileM κ η (Value κ) := do
  let n ← modifyGet (·.addTemporary s)
  newStore (temporaryName n) true

end Scope

end DeclCompiler
