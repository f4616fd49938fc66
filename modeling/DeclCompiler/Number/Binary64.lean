import DeclCompiler.Number.Power

/-!
Binary64 magnitudes as natural numbers.

A magnitude is the bit pattern of a non-negative double, read as a natural number. Magnitudes are
ordered as the doubles are, so the next double is the successor, and the pattern of infinity stands
for the power of two at which the finite doubles end. Values are counted in units of `2 ^ (-1075)`:
there every finite double and every midpoint between two neighbours is a whole number.
-/

namespace DeclCompiler.Binary64

/-- The pattern of positive infinity; larger patterns are not numbers. -/
def infinity : Nat := 2047 * twoPow 52

def significand (b : Nat) : Nat := if b < twoPow 52 then b else twoPow 52 + b % twoPow 52

/-- The exponent of two by which the significand is scaled. Subnormal numbers share the scale of the
least normal ones. -/
def scale (b : Nat) : Nat := max 1 (b / twoPow 52)

/-- The value of a magnitude in units of `2 ^ (-1075)`. -/
def units (b : Nat) : Nat := significand b * twoPow (scale b)

/-! ### Rounding -/

/-- The whole number nearest to `n / d`; a half goes to the even neighbour. -/
def roundHalfEven (n d : Nat) : Nat :=
  if 2 * (n % d) < d ∨ (2 * (n % d) = d ∧ n / d % 2 = 0) then n / d else n / d + 1

/-- The magnitude nearest to `p / r`; a half goes to the even neighbour. A significand that rounds
up to `2 ^ 53` carries into the exponent, which is the least magnitude of the next binade. -/
def nearest (p r : Nat) : Nat :=
  let s := max 1 ((p * twoPow 1075 / r).log2 - 52)
  min infinity ((s - 1) * twoPow 52 + roundHalfEven (p * twoPow 1075) (r * twoPow s))

/-- Whether `p / r` is among the numbers that round to `b`: those between the midpoints to its two
neighbours. A midpoint itself belongs to the even neighbour. -/
def readsBack (b p r : Nat) : Bool :=
  let lower := (units (b - 1) + units b) * r
  let upper := (units b + units (b + 1)) * r
  let twice := p * twoPow 1076
  if b % 2 = 0 then lower ≤ twice && twice ≤ upper else lower < twice && twice < upper

/-! ### Doubles -/

def nan : Float := Float.ofBits 0x7FF8000000000000

def isNegative (x : Float) : Bool := twoPow 63 ≤ x.toBits.toNat

def magnitude (x : Float) : Nat := x.toBits.toNat % twoPow 63

def isFinite (x : Float) : Bool := magnitude x < infinity

def ofMagnitude (negative : Bool) (b : Nat) : Float :=
  Float.ofBits (UInt64.ofNat (if negative then b + twoPow 63 else b))

/-- The number without its fraction. The bits that count less than one are cleared. -/
def trunc (x : Float) : Float :=
  let b := magnitude x
  ofMagnitude (isNegative x) (if scale b < 1023 then 0 else b - b % twoPow (1075 - scale b))

/-- What is left of `x` after taking away whole multiples of `y`, with the sign of `x`. The result is
exact. -/
def remainder (x y : Float) : Float :=
  if !isFinite x || infinity < magnitude y || magnitude y = 0 then nan
  else if magnitude y = infinity then x
  else ofMagnitude (isNegative x) (nearest (units (magnitude x) % units (magnitude y)) (twoPow 1075))

/-- The remainder that is not negative: a negative one is raised by the size of `y`. -/
def euclideanRemainder (x y : Float) : Float :=
  let r := remainder x y
  if r < 0 then r + y.abs else r

end DeclCompiler.Binary64
