import RevisedSimplex.Decimal.Binary

/-! # Shortest decimals

The decimal with the fewest digits among those that round to a binary number, and
the nearest of these.
-/

namespace RevisedSimplex.Decimal

def leadingExponent (x : Rat) : Int :=
  if 1 ≤ x then digitCount x.floor.toNat - 1 else -digitCount ((1 / x).ceil.toNat - 1)

/-- The multiple of `10 ^ exponent` in the interval that is nearest to its value. Only the two
multiples next to the value can be; of two equally near ones the larger is taken. -/
def onGrid? (x : Neighbourhood) (exponent : Int) : Option Decimal :=
  let scaled := x.value / integerPower 10 exponent
  let below := scaled.floor.toNat
  let inside (k : Nat) : Bool := x.contains (k * integerPower 10 exponent)
  if inside below ∧ (scaled - below < 1 / 2 ∨ !inside (below + 1)) then some ⟨below, exponent⟩
  else if inside (below + 1) then some ⟨below + 1, exponent⟩
  else none

/-- Seventeen digits tell any two binary numbers of at most 64 bits apart. -/
def maxDigits : Nat := 17

def shortest (x : Neighbourhood) : Decimal :=
  if x.value = 0 then ⟨0, 0⟩
  else
    let first := leadingExponent x.value + 1
    ((List.range (maxDigits + 1)).findSome? fun (k : Nat) => onGrid? x (first - k)).getD
      (rounded maxDigits x.value)

end RevisedSimplex.Decimal
