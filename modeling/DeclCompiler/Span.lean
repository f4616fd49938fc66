/-!
Positions in the source text, and the names of program variables that are made from them.
-/

namespace DeclCompiler

/-- Lines count from one and columns from zero. -/
structure Position where
  line : Nat
  column : Nat
deriving DecidableEq

structure Span where
  start : Position
  stop : Position
deriving DecidableEq

namespace Position

def compare (a b : Position) : Ordering :=
  (Ord.compare a.line b.line).then (Ord.compare a.column b.column)

def earlier (a b : Position) : Position := if a.compare b = .gt then b else a

def later (a b : Position) : Position := if a.compare b = .gt then a else b

def text (p : Position) : String := p.line.repr ++ ":" ++ p.column.repr

end Position

namespace Span

/-- The span of a node that stands nowhere in the source text. -/
def dummy : Span := ⟨⟨0, 0⟩, ⟨0, 0⟩⟩

def isDummy (s : Span) : Bool := s = dummy

def onLine (line startColumn stopColumn : Nat) : Span := ⟨⟨line, startColumn⟩, ⟨line, stopColumn⟩⟩

/-- The least span that covers both. -/
def merge (a b : Span) : Span := ⟨a.start.earlier b.start, a.stop.later b.stop⟩

def text (s : Span) : String := s.start.text ++ "-" ++ s.stop.text

end Span

/-! ### Names of program variables -/

/-- The name of a declared variable: its identifier, unless it is left out, and its position. -/
def declaredName (span : Span) : Option String → String
  | some identifier => identifier ++ ":" ++ span.start.text
  | none => span.start.text

/-- The name of the temporary variable with the given number. Source identifiers do not contain `&`. -/
def temporaryName (index : Nat) : String := "&t" ++ index.repr

end DeclCompiler
