import DeclCompiler.Number.Binary64

/-!
Numbers as 32-bit words. A number loses its fraction and is reduced modulo `2 ^ 32`, both as a
double, and what is left is converted; numbers that are not finite become zero. Results are read as
signed words except by the unsigned shift.
-/

namespace DeclCompiler.Word

def ofFloat (x : Float) : BitVec 32 :=
  if Binary64.isFinite x then (Binary64.euclideanRemainder (Binary64.trunc x) 4294967296).toUInt32.toBitVec
  else 0

def signed (w : BitVec 32) : Float := Float.ofInt w.toInt

def unsigned (w : BitVec 32) : Float := Float.ofNat w.toNat

/-- Shift counts use the low five bits. -/
def shiftCount (x : Float) : Nat := (ofFloat x &&& 31).toNat

end DeclCompiler.Word
