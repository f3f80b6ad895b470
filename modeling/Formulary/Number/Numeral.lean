/-
Numerals of the formula language: digits, optionally with a minus sign before them and a fraction
behind them. The value of a numeral is the double nearest to the number it writes, a tie going to
the even mantissa, and an infinity beyond the largest double.
-/
namespace Formulary.Number

/-- The digits of a numeral read as one natural number. -/
def digitsValue (digits : List Char) : Nat :=
  digits.foldl (fun n d => n * 10 + (d.toNat - '0'.toNat)) 0

/-- The value of a numeral without its sign. -/
def magnitude (numeral : List Char) : Float :=
  let whole := numeral.takeWhile (· ≠ '.')
  let fraction := (numeral.dropWhile (· ≠ '.')).drop 1
  Float.ofScientific (digitsValue (whole ++ fraction)) true fraction.length

/-- The value of a numeral; a minus sign before zero gives the negative zero. -/
def ofNumeral (numeral : String) : Float :=
  match numeral.toList with
  | '-' :: rest => -(magnitude rest)
  | cs => magnitude cs

end Formulary.Number
