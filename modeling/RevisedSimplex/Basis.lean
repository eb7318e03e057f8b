import RevisedSimplex.Failure

/-! # Bases

A basis names the column that is basic in each row.
-/

namespace RevisedSimplex

abbrev Basis (m n : Nat) := Vector (Fin n) m

namespace Basis

variable {m n : Nat}

def indices (basis : Basis m n) : List Nat := basis.toList.map Fin.val

/-- The basis with the given indices. Of several faults the first in this order is reported: a
wrong number of indices, the first index out of range, an index that occurs twice. -/
def ofIndices (indices : List Nat) : Except BasisFault (Basis m n) :=
  if hm : indices.length = m then
    match hn : indices.find? (n ≤ ·) with
    | some j => .error (.outOfRange j n)
    | none =>
      if indices.Nodup then
        .ok (.ofFn fun i => ⟨indices[i], by
          have := List.find?_eq_none.mp hn indices[i] (List.getElem_mem _)
          simpa using this⟩)
      else .error (.duplicates indices)
  else .error (.size indices.length m)

end Basis
end RevisedSimplex
