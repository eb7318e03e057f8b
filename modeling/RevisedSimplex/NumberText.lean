import RevisedSimplex.Decimal.Shortest

/-! # Number text

The three ways in which a number is written: in a sentence, in a list, and in a
table of fixed precision.
-/

namespace RevisedSimplex

class NumberText (F : Type) where
  /-- The shortest digits, without an exponent and without a needless point. -/
  plain : F → String
  /-- The shortest digits, with a point or an exponent. -/
  general : F → String
  /-- The exact value rounded to the given number of places. -/
  fixed : Nat → F → String

def BinaryNumber.text (write : Neighbourhood → String) : BinaryNumber → String
  | .undefined => "NaN"
  | .infinite negative => (if negative then "-" else "") ++ "inf"
  | .finite negative magnitude => (if negative then "-" else "") ++ write magnitude

@[reducible] def BinaryFormat.numberText {F : Type} (f : BinaryFormat) (bits : F → Nat) : NumberText F where
  plain x := (f.read (bits x)).text fun v => (Decimal.shortest v).positional 0
  general x := (f.read (bits x)).text fun v => (Decimal.shortest v).general
  fixed places x := (f.read (bits x)).text fun v => (Decimal.rounded places v.value).positional places

instance : NumberText Float := BinaryFormat.double.numberText (·.toBits.toNat)

instance : NumberText Float32 := BinaryFormat.single.numberText (·.toBits.toNat)

end RevisedSimplex
