import DeclCompiler.Compiler
import DeclCompiler.Entries
import DeclCompiler.Error
import DeclCompiler.Evaluator
import DeclCompiler.Handler
import DeclCompiler.Host
import DeclCompiler.Instruction
import DeclCompiler.Literal.Basic
import DeclCompiler.Literal.Fold
import DeclCompiler.Number.Binary64
import DeclCompiler.Number.Decimal
import DeclCompiler.Number.Numeral
import DeclCompiler.Number.Power
import DeclCompiler.Number.Word
import DeclCompiler.Object
import DeclCompiler.Operator
import DeclCompiler.Pattern
import DeclCompiler.Proofs.Outcome
import DeclCompiler.Scope
import DeclCompiler.Script.Basic
import DeclCompiler.Script.Build
import DeclCompiler.Script.Run
import DeclCompiler.Session
import DeclCompiler.Span
import DeclCompiler.State
import DeclCompiler.Text.Blank
import DeclCompiler.Text.Units
import DeclCompiler.Value.Basic
import DeclCompiler.Value.Capability
import DeclCompiler.Proofs.Visit
import DeclCompiler.Proofs.Contract
import DeclCompiler.Proofs.Declaration
import DeclCompiler.Proofs.Clean
import DeclCompiler.Proofs.Identifier
import DeclCompiler.Proofs.Leaves
import DeclCompiler.Proofs.Discipline
import DeclCompiler.Proofs.Constancy
import DeclCompiler.Proofs.Names
import DeclCompiler.Proofs.Course
import DeclCompiler.Proofs.Attribution
import DeclCompiler.Proofs.Queries
import DeclCompiler.Proofs.Correspondence
import DeclCompiler.Proofs.Likeness
import DeclCompiler.Proofs.WholeNumber
import DeclCompiler.Proofs.Positional
import DeclCompiler.Proofs.Nesting
import DeclCompiler.Proofs.Locality
import DeclCompiler.Proofs.Account
import DeclCompiler.Proofs.History
import DeclCompiler.Proofs.ScopeChain
import DeclCompiler.Proofs.Ownership
import DeclCompiler.Proofs.StoreNames
import DeclCompiler.Proofs.BuiltIn
import DeclCompiler.Proofs.DeclaredLeaves
import DeclCompiler.Proofs.Reordering
import DeclCompiler.Proofs.Renaming
import DeclCompiler.Proofs.Rounding
import DeclCompiler.Proofs.ShortestDigits
import DeclCompiler.Proofs.Doubles
import DeclCompiler.Proofs.ExactIntegers
import DeclCompiler.Proofs.MemberKeys
import DeclCompiler.Proofs.Words
import DeclCompiler.Proofs.Comparison
import DeclCompiler.Proofs.Accumulation
import DeclCompiler.Proofs.Grammar
import DeclCompiler.Proofs.RoundTrip
import DeclCompiler.Proofs.Insertions
import DeclCompiler.Proofs.Arithmetic
import DeclCompiler.Proofs.RadixStrings
import DeclCompiler.Proofs.VoidOperands
import DeclCompiler.Proofs.Remainders
