import GaussianProgram.Decimal.Binary
import GaussianProgram.Decimal.Rounding

/-! Decimal texts of numbers, with a fixed count of places after the point, positional or with an
exponent. Positive exponents are written without sign, and a negative zero keeps its sign. -/
namespace GaussianProgram

/-- Puts the point before the last `places` of a string of digits. -/
def Decimal.withPoint (digits : String) (places : Nat) : String :=
  if places = 0 then digits else
    let cs := digits.toList
    let whole := cs.length - places
    String.ofList (cs.take whole) ++ "." ++ String.ofList (cs.drop whole)

namespace Decimal.BinaryValue

private def signed (negative : Bool) (text : String) : String :=
  if negative then "-" ++ text else text

private def render (magnitude : Nat → Nat → String) : BinaryValue → String
  | notANumber => "NaN"
  | infinite negative => signed negative "inf"
  | finite negative num den => signed negative (magnitude num den)

/-- Positional text with `places` digits after the point. -/
def fixed (places : Nat) : BinaryValue → String :=
  render fun num den =>
    let digits := toString (roundPlaces num den places)
    withPoint ("".pushn '0' (places + 1 - digits.length) ++ digits) places

/-- Text with one digit before the point, `places` after it, and an exponent. -/
def scientific (places : Nat) : BinaryValue → String :=
  render fun num den =>
    let (n, k) := roundSignificant num den (places + 1)
    let digits := toString n
    withPoint (digits ++ "".pushn '0' (places + 1 - digits.length)) places ++ "e" ++ toString k

end Decimal.BinaryValue

/-- Scalars with decimal texts. -/
class DecimalText (α : Type) where
  /-- Positional text with the given count of places. -/
  fixed (places : Nat) (x : α) : String
  /-- Text with exponent and the given count of places. -/
  scientific (places : Nat) (x : α) : String

instance : DecimalText Float where
  fixed places x := (Decimal.BinaryValue.ofFloat x).fixed places
  scientific places x := (Decimal.BinaryValue.ofFloat x).scientific places

def padLeft (width : Nat) (text : String) : String :=
  "".pushn ' ' (width - text.length) ++ text

end GaussianProgram
