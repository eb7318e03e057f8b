import RevisedSimplex.Decimal.Basic

/-! # Binary floating-point numbers

The value that a bit pattern stands for, with the interval of the numbers that
round to it.
-/

namespace RevisedSimplex

/-- Widths of the fraction and exponent fields. -/
structure BinaryFormat where
  fractionBits : Nat
  exponentBits : Nat

structure Neighbourhood where
  value : Rat
  lower : Rat
  upper : Rat
  /-- Whether the ends belong to the interval. -/
  closed : Bool

def Neighbourhood.contains (x : Neighbourhood) (y : Rat) : Bool :=
  if x.closed then x.lower ≤ y ∧ y ≤ x.upper else x.lower < y ∧ y < x.upper

inductive BinaryNumber
  | undefined
  | infinite (negative : Bool)
  | finite (negative : Bool) (magnitude : Neighbourhood)

namespace BinaryFormat

def single : BinaryFormat := ⟨23, 8⟩

def double : BinaryFormat := ⟨52, 11⟩

/-- The finite number with the given fields. A number halfway to a neighbour rounds to the even
fraction; at a power of two the lower neighbour is nearer by half. -/
def neighbourhood (f : BinaryFormat) (exponent fraction : Nat) : Neighbourhood :=
  let count := if exponent = 0 then fraction else fraction + Nat.pow 2 f.fractionBits
  let bias : Int := Nat.pow 2 (f.exponentBits - 1) - 1
  let unit : Rat := integerPower 2 ((max exponent 1 : Nat) - bias - f.fractionBits)
  let below := if fraction = 0 ∧ 1 < exponent then unit / 4 else unit / 2
  { value := count * unit
    lower := count * unit - below
    upper := count * unit + unit / 2
    closed := fraction % 2 = 0 }

def read (f : BinaryFormat) (bits : Nat) : BinaryNumber :=
  let fraction := bits % Nat.pow 2 f.fractionBits
  let exponent := bits / Nat.pow 2 f.fractionBits % Nat.pow 2 f.exponentBits
  let negative := bits / Nat.pow 2 (f.fractionBits + f.exponentBits) = 1
  if exponent + 1 < Nat.pow 2 f.exponentBits then .finite negative (f.neighbourhood exponent fraction)
  else if fraction = 0 then .infinite negative
  else .undefined

end BinaryFormat
end RevisedSimplex
