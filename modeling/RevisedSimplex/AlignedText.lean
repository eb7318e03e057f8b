import RevisedSimplex.NumberText
import RevisedSimplex.RowMatrix.Basic

/-! # Aligned text

Texts padded to a width, lists in brackets, and the rows of a matrix in columns.
-/

namespace RevisedSimplex

def spaces (n : Nat) : String := String.ofList (List.replicate n ' ')

def alignRight (width : Nat) (text : String) : String := spaces (width - text.length) ++ text

/-- An odd space goes to the right. -/
def centred (width : Nat) (text : String) : String :=
  let gap := width - text.length
  spaces (gap / 2) ++ text ++ spaces (gap - gap / 2)

def bracketed (texts : List String) : String := "[" ++ String.intercalate ", " texts ++ "]"

def indexList (indices : List Nat) : String := bracketed (indices.map Nat.repr)

/-- A line for each row, every entry with four places in ten characters or more. -/
def RowMatrix.text {F : Type} [NumberText F] {m n : Nat} (M : RowMatrix F m n) : String :=
  String.join <| M.toLists.map fun row =>
    "[" ++ String.intercalate " " (row.map fun x => alignRight 10 (NumberText.fixed 4 x)) ++ "]\n"

end RevisedSimplex
