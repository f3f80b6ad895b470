/-
A double taken apart: not a number, an infinity, or a sign with a natural mantissa and a power of
two. `ofParts` goes the other way for every value that a double holds exactly. Exact arithmetic on
doubles (their decimal digits, their remainder) is done on the parts, in natural numbers.
-/
namespace Formulary.Number

/-- What a double stands for; a finite one is `± mantissa * 2 ^ exponent`. -/
inductive Parts where
  | undefined
  | infinite (negative : Bool)
  | finite (negative : Bool) (mantissa : Nat) (exponent : Int)
  deriving DecidableEq, Repr

/-- The weight of the sign in a bit pattern, `2 ^ 63`. -/
def signBit : Nat := 0x8000000000000000

/-- The weight of the least exponent bit, `2 ^ 52`. Every mantissa but those of the least exponent
has a bit of this weight, which the bit pattern leaves out. -/
def hiddenBit : Nat := 0x10000000000000

/-- Reads the sign, the eleven exponent bits and the fifty-two fraction bits. -/
def parts (x : Float) : Parts :=
  let bits := x.toBits.toNat
  let negative := decide (signBit ≤ bits)
  let field := bits / hiddenBit % 2048
  let fraction := bits % hiddenBit
  if field = 2047 then
    if fraction = 0 then .infinite negative else .undefined
  else if field = 0 then
    .finite negative fraction (-1074)
  else
    .finite negative (hiddenBit + fraction) (Int.ofNat field - 1075)

/-- The double `± mantissa * 2 ^ exponent`, for a mantissa below `2 ^ 53` and an exponent from
`-1074` to `971`: the mantissa moves up until it fills its fifty-three bits or the exponent is the
least one, and both then stand in the bit pattern as they are. -/
def ofParts (negative : Bool) (mantissa : Nat) (exponent : Int) : Float :=
  let room := (exponent + 1074).toNat
  let shift := if mantissa = 0 then room else min (52 - mantissa.log2) room
  let magnitude := (room - shift) * hiddenBit + mantissa <<< shift
  Float.ofBits (UInt64.ofNat (magnitude + if negative then signBit else 0))

/-- The result of an operation that has no value. -/
def undefined : Float := 0.0 / 0.0

end Formulary.Number
