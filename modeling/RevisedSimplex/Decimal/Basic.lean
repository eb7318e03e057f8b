/-! # Decimal numbers

A decimal is a count of a power of ten. It is written positionally, or with one
digit before the point and an exponent.
-/

namespace RevisedSimplex

def integerPower (base : Nat) : Int → Rat
  | .ofNat k => Nat.pow base k
  | .negSucc k => 1 / Nat.pow base (k + 1)

/-- The number `digits * 10 ^ exponent`. -/
structure Decimal where
  digits : Nat
  exponent : Int

namespace Decimal

def digitCount (n : Nat) : Nat := (Nat.repr n).length

def zeroPadded (width n : Nat) : String :=
  let text := Nat.repr n
  String.ofList (List.replicate (width - text.length) '0') ++ text

/-- All digits before the point, at least `places` after it, and no point if none follow. -/
def positional (places : Nat) (d : Decimal) : String :=
  let scale := (-d.exponent).toNat
  let units := d.digits * Nat.pow 10 d.exponent.toNat
  let width := max scale places
  let whole := Nat.repr (units / Nat.pow 10 scale)
  if width = 0 then whole
  else whole ++ "." ++ zeroPadded width (units % Nat.pow 10 scale * Nat.pow 10 (width - scale))

/-- The power of ten of the first digit. -/
def order (d : Decimal) : Int := d.exponent + digitCount d.digits - 1

/-- One digit before the point, and no point if no digit follows. -/
def scientific (d : Decimal) : String :=
  let mantissa := match (Nat.repr d.digits).toList with
    | first :: second :: rest => String.ofList (first :: '.' :: second :: rest)
    | text => String.ofList text
  mantissa ++ "e" ++ Int.repr d.order

/-- Positional with at least one place for orders from `-4` to `15` and for zero, otherwise
scientific. -/
def general (d : Decimal) : String :=
  if d.digits = 0 ∨ (-4 ≤ d.order ∧ d.order < 16) then d.positional 1 else d.scientific

/-- The nearest integer to a nonnegative number, the even one if two are equally near. -/
def roundHalfEven (x : Rat) : Nat :=
  let below := x.floor.toNat
  let excess := x - below
  if excess < 1 / 2 ∨ (excess = 1 / 2 ∧ below % 2 = 0) then below else below + 1

def rounded (places : Nat) (x : Rat) : Decimal :=
  ⟨roundHalfEven (x * integerPower 10 places), -places⟩

end Decimal
end RevisedSimplex
