import DeclCompiler.Number.Decimal
import DeclCompiler.Text.Blank

/-!
Numbers as text.

A number is written by its fewest digits, positionally while the exponent of its leading digit lies
from -6 to 20 and with an exponent otherwise. A text is read as a decimal, as an integer with one of
the marks `0x`, `0o`, `0b`, or as a signed `Infinity`; blanks around it are ignored, nothing at all
is zero, and any other text is not a number.
-/

namespace DeclCompiler.Numeral

/-! ### Writing -/

/-- Lays out the digits of a number whose leading digit counts `10 ^ exponent`. -/
def layout (digits : List Char) (exponent : Int) : List Char :=
  let point := exponent + 1
  if digits.length ≤ point ∧ point ≤ 21 then
    digits ++ List.replicate (point - digits.length).toNat '0'
  else if 0 < point ∧ point ≤ 21 then
    digits.take point.toNat ++ '.' :: digits.drop point.toNat
  else if -6 < point ∧ point ≤ 0 then
    '0' :: '.' :: List.replicate (-point).toNat '0' ++ digits
  else
    let mantissa := match digits with
      | first :: next :: rest => first :: '.' :: next :: rest
      | short => short
    mantissa ++ 'e' :: (if exponent < 0 then '-' else '+') :: Nat.toDigits 10 exponent.natAbs

/-- The text of a positive finite magnitude. -/
def magnitudeText (b : Nat) : List Char :=
  let d := Decimal.shortest b
  let digits := Nat.toDigits 10 d.digits
  layout digits (d.exponent + digits.length - 1)

/-- The text of a number. Both zeros are written alike. -/
def text (x : Float) : String :=
  let b := Binary64.magnitude x
  if Binary64.infinity < b then "NaN"
  else if b = Binary64.infinity then if Binary64.isNegative x then "-Infinity" else "Infinity"
  else if b = 0 then "0"
  else if Binary64.isNegative x then String.ofList ('-' :: magnitudeText b)
  else String.ofList (magnitudeText b)

/-! ### Reading -/

/-- A leading sign, and whether it is a minus. -/
def takeSign : List Char → Bool × List Char
  | '-' :: cs => (true, cs)
  | '+' :: cs => (false, cs)
  | cs => (false, cs)

/-- The fraction after the whole digits, and what follows it. -/
def takeFraction : List Char → List Char × List Char
  | '.' :: cs => cs.span Char.isDigit
  | cs => ([], cs)

/-- The exponent at the end of a decimal; a mark needs at least one digit after it. -/
def readExponent? : List Char → Option Int
  | [] => some 0
  | c :: cs =>
    if c = 'e' ∨ c = 'E' then
      let (negative, digits) := takeSign cs
      if digits.isEmpty || !digits.all Char.isDigit then none
      else some (if negative then -(Nat.ofDigitChars 10 digits 0 : Int) else Nat.ofDigitChars 10 digits 0)
    else none

/-- An unsigned decimal: digits with at most one point, at least one digit, and an exponent. -/
def readDecimal? (cs : List Char) : Option Decimal :=
  let (whole, afterWhole) := cs.span Char.isDigit
  let (fraction, afterFraction) := takeFraction afterWhole
  if whole.isEmpty && fraction.isEmpty then none
  else (readExponent? afterFraction).map fun e =>
    ⟨Nat.ofDigitChars 10 (whole ++ fraction) 0, e - fraction.length⟩

/-- The magnitudes of the words that a parser of doubles knows. It reads them in any case. -/
def wordMagnitude? (cs : List Char) : Option Nat :=
  let word := cs.map Char.toLower
  if word = "inf".toList ∨ word = "infinity".toList then some Binary64.infinity
  else if word = "nan".toList then some (Binary64.magnitude Binary64.nan)
  else none

/-- A double as a general parser takes it: a decimal or else a word, after a sign. -/
def parse? (cs : List Char) : Option Float :=
  let (negative, rest) := takeSign cs
  (((readDecimal? rest).map Decimal.magnitude).or (wordMagnitude? rest)).map (Binary64.ofMagnitude negative)

/-- The characters that signed decimals are written with. -/
def isDecimalChar (c : Char) : Bool := c.isDigit || c == '.' || c == 'e' || c == 'E' || c == '+' || c == '-'

/-- Parsing without the words, which the characters keep out. -/
def readSigned? (cs : List Char) : Option Float := if cs.all isDecimalChar then parse? cs else none

/-- The value of a digit in the given radix, letters counting from ten in either case. -/
def digitValue? (radix : Nat) (c : Char) : Option Nat :=
  let v? :=
    if c.isDigit then some (c.toNat - '0'.toNat)
    else if 'a' ≤ c ∧ c ≤ 'z' then some (c.toNat - 'a'.toNat + 10)
    else if 'A' ≤ c ∧ c ≤ 'Z' then some (c.toNat - 'A'.toNat + 10)
    else none
  v?.filter (· < radix)

/-- The radix that a mark announces. -/
def markRadix? : Char → Option Nat
  | 'x' | 'X' => some 16
  | 'o' | 'O' => some 8
  | 'b' | 'B' => some 2
  | _ => none

/-- The number that digits denote, taken in from the left; every step rounds to a double. -/
def accumulate (radix : Nat) (digits : List Nat) : Float :=
  digits.foldl (fun x d => x * Float.ofNat radix + Float.ofNat d) 0

def readRadix? (radix : Nat) (cs : List Char) : Option Float :=
  if cs.isEmpty then none else (cs.mapM (digitValue? radix)).map (accumulate radix)

/-- The radix that a text announces, and its digits. -/
def takeMark? : List Char → Option (Nat × List Char)
  | '0' :: mark :: digits => (markRadix? mark).map fun radix => (radix, digits)
  | _ => none

/-- The number that a text without outer blanks denotes. -/
def read? (cs : List Char) : Option Float :=
  if cs = [] then some 0
  else if cs = "Infinity".toList ∨ cs = "+Infinity".toList then some (Binary64.ofMagnitude false Binary64.infinity)
  else if cs = "-Infinity".toList then some (Binary64.ofMagnitude true Binary64.infinity)
  else
    match takeMark? cs with
    | some (radix, digits) => readRadix? radix digits
    | none => readSigned? cs

/-- The number that a text denotes; a text that denotes none gives the one that is not a number. -/
def value (s : String) : Float := (read? (Text.trim s.toList)).getD Binary64.nan

end DeclCompiler.Numeral
