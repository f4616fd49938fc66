/-!
Powers of two and of ten, the units of binary and decimal numbers.
-/

namespace DeclCompiler

def twoPow (n : Nat) : Nat := Nat.pow 2 n

def tenPow (n : Nat) : Nat := Nat.pow 10 n

end DeclCompiler
