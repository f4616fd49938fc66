/-!
UTF-16 code units. A character above `0xFFFF` is written as a pair of surrogates, so the order by
units is not the order by code points.
-/

namespace DeclCompiler.Text

def charUnits (c : Char) : List Nat :=
  if c.toNat < 0x10000 then [c.toNat]
  else [0xD800 + (c.toNat - 0x10000) / 0x400, 0xDC00 + (c.toNat - 0x10000) % 0x400]

def units (s : String) : List Nat := s.toList.flatMap charUnits

/-- Lexicographic order: the first difference decides, and a list comes after its beginnings. -/
def compareLists : List Nat → List Nat → Ordering
  | [], [] => .eq
  | [], _ :: _ => .lt
  | _ :: _, [] => .gt
  | a :: as, b :: bs => if a < b then .lt else if a = b then compareLists as bs else .gt

/-- Compares two texts by their code units. -/
def compareUnits (s t : String) : Ordering := compareLists (units s) (units t)

end DeclCompiler.Text
