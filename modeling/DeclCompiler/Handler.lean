import DeclCompiler.Operator

/-!
The operations of an object that a function attached to it can take over.
-/

namespace DeclCompiler

inductive Handler
  | get
  | eval
  | consume
  | call
  | operator (op : Operator)
deriving DecidableEq

def Handler.text : Handler → String
  | .get => "$get"
  | .eval => "$eval"
  | .consume => "$consume"
  | .call => "$call"
  | .operator op => "$" ++ op.symbol

end DeclCompiler
