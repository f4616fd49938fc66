import DeclCompiler.Number.Binary64

/-!
Decimal numbers and the doubles they stand for.

A decimal reads as the nearest double. The other way, a double is written by the fewest digits that
read back as it: grids of multiples of powers of ten are tried from coarse to fine, and on each grid
only the two neighbours of the double can be the first to read back.
-/

namespace DeclCompiler

/-- The number `digits * 10 ^ exponent`. -/
structure Decimal where
  digits : Nat
  exponent : Int
deriving DecidableEq

namespace Decimal

def numerator (d : Decimal) : Nat := d.digits * tenPow d.exponent.toNat

def denominator (d : Decimal) : Nat := tenPow (-d.exponent).toNat

/-! ### Reading -/

/-- The magnitude nearest to a decimal. Powers of ten far outside the range of doubles are not
computed. -/
def magnitude (d : Decimal) : Nat :=
  if d.digits = 0 then 0
  else if 400 < d.exponent then Binary64.infinity
  else if d.exponent < -(401 + d.digits.log2 : Int) then 0
  else Binary64.nearest d.numerator d.denominator

/-! ### Writing -/

def readsBackAs (b : Nat) (d : Decimal) : Bool := Binary64.readsBack b d.numerator d.denominator

/-- The multiple of `10 ^ exponent` just below or at the magnitude `b`. -/
def below (b : Nat) (exponent : Int) : Decimal :=
  ⟨Binary64.units b * tenPow (-exponent).toNat / (twoPow 1075 * tenPow exponent.toNat), exponent⟩

def next (d : Decimal) : Decimal := ⟨d.digits + 1, d.exponent⟩

/-- Whether `b` is at least as near to the successor of `d` on its grid as to `d`. -/
def nearerNext (b : Nat) (d : Decimal) : Bool :=
  (2 * d.digits + 1) * tenPow d.exponent.toNat * twoPow 1075 ≤ 2 * Binary64.units b * d.denominator

/-- The multiple of `10 ^ exponent` that reads back as `b`. Of two the nearer is taken, and the
larger when both are equally near. -/
def onGrid? (b : Nat) (exponent : Int) : Option Decimal :=
  let d := below b exponent
  match readsBackAs b d, readsBackAs b d.next with
  | true, true => some (if nearerNext b d then d.next else d)
  | true, false => some d
  | false, true => some d.next
  | false, false => none

/-- Searches the grids from `10 ^ (n - 1074)` downwards. The finest one holds every double. -/
def search (b : Nat) : Nat → Decimal
  | 0 => below b (-1074)
  | n + 1 => (onGrid? b ((n + 1 : Nat) - 1074)).getD (search b n)

/-- No grid above this one has a decimal that reads back as `b`: such a decimal is at most twice `b`,
and `2 ^ 93` is less than `10 ^ 28`. -/
def coarsest (b : Nat) : Nat :=
  28 * ((Binary64.units b * tenPow 1074 / twoPow 1075).log2 + 2) / 93

/-- The fewest digits that read back as the magnitude `b`. -/
def shortest (b : Nat) : Decimal := search b (coarsest b)

end Decimal

end DeclCompiler
