/-
Doubles in decimal. The digits of a double are the fewest that read back as the same double, and
of the candidates with that many digits the nearest; they are written out positionally, never with
an exponent. The search compares decimals with the ends of the rounding interval in natural
numbers, so no step of it rounds.
-/
import Formulary.Number.Parts

namespace Formulary.Number

/-- The number `digits * 10 ^ exponent`. -/
structure Decimal where
  digits : Nat
  exponent : Int
  deriving DecidableEq, Repr

/-! ## The fewest digits that read back -/

/-- Whether the next smaller double is only half as far away as the next larger one: at a power of
two, where the exponent changes. -/
def narrowBelow (mantissa : Nat) (exponent : Int) : Bool :=
  mantissa = hiddenBit && decide (-1074 < exponent)

/-- The point that stands for `mantissa * 2 ^ exponent` on the grid of multiples of
`10 ^ place`, if one of the two grid points beside the value lies in the interval of reals that
round to it. The ends belong to the interval when the mantissa is even. Of two such points the
nearer is taken, and the upper one at equal distance.

Everything is measured in units in which a grid step is `step`, the value `4 * scale * mantissa`
and the distance to the end above `2 * scale`. -/
def onGrid? (mantissa : Nat) (exponent place : Int) : Option Decimal :=
  let scale := Nat.pow 10 (-place).toNat <<< (exponent - 2).toNat
  let step := Nat.pow 10 place.toNat <<< (2 - exponent).toNat
  let value := 4 * mantissa * scale
  let low := value - (if narrowBelow mantissa exponent then 1 else 2) * scale
  let high := value + 2 * scale
  let inside (point : Nat) : Bool :=
    if mantissa % 2 = 0 then decide (low ≤ point) && decide (point ≤ high)
    else decide (low < point) && decide (point < high)
  let below := value / step
  let above := below + 1
  match inside (below * step), inside (above * step) with
  | true, true =>
    some ⟨if value - below * step < above * step - value then below else above, place⟩
  | true, false => some ⟨below, place⟩
  | false, true => some ⟨above, place⟩
  | false, false => none

/-- A place at or above the leading digit of `mantissa * 2 ^ exponent`; `30103 / 100000` is the
logarithm of two, rounded up. -/
def topPlace (mantissa : Nat) (exponent : Int) : Int :=
  (exponent + mantissa.log2 + 1) * 30103 / 100000 + 1

/-- The decimal with the fewest digits that reads back as `mantissa * 2 ^ exponent`: the point on
the coarsest grid that has one. Seventeen digits always suffice, and the leading one lies at most
two places under `topPlace`, so twenty grids are enough. -/
def shortest (mantissa : Nat) (exponent : Int) : Decimal :=
  ((List.range 20).findSome? fun (finer : Nat) =>
    onGrid? mantissa exponent (topPlace mantissa exponent - Int.ofNat finer)).getD ⟨0, 0⟩

/-! ## Positional layout -/

/-- The decimal written out: zeros fill the places up to the units, and a point with at least one
digit before it stands where the places turn negative. -/
def Decimal.layout (d : Decimal) : List Char :=
  let digits := Nat.toDigits 10 d.digits
  if 0 ≤ d.exponent then
    digits ++ List.replicate d.exponent.toNat '0'
  else
    let places := (-d.exponent).toNat
    if places < digits.length then
      digits.take (digits.length - places) ++ '.' :: digits.drop (digits.length - places)
    else
      '0' :: '.' :: List.replicate (places - digits.length) '0' ++ digits

/-- The text of a double. Zero keeps its sign. -/
def text (x : Float) : String :=
  let signed (negative : Bool) (body : String) : String := if negative then "-" ++ body else body
  match parts x with
  | .undefined => "NaN"
  | .infinite negative => signed negative "inf"
  | .finite negative 0 _ => signed negative "0"
  | .finite negative mantissa exponent =>
    signed negative (String.ofList (shortest mantissa exponent).layout)

end Formulary.Number
