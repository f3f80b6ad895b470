/-
The remainder of a division that is cut off towards zero, computed exactly: both magnitudes are
brought to one power of two, where the remainder is that of natural numbers and a double again.
-/
import Formulary.Number.Parts

namespace Formulary.Number

/-- What is left of `x` after taking `y` away as often as it fits; it has the sign of `x`. There is
no remainder of an infinity or by zero, and an infinite divisor leaves `x` as it is. -/
def remainder (x y : Float) : Float :=
  match parts x, parts y with
  | .finite negative a p, .finite _ b q =>
    if b = 0 then undefined
    else
      let unit := min p q
      ofParts negative ((a <<< (p - unit).toNat) % (b <<< (q - unit).toNat)) unit
  | .finite _ _ _, .infinite _ => x
  | _, _ => undefined

end Formulary.Number
