import GaussianProgram.Vec

/-! Rows with places that hold no entry. Such a place takes no part in sums, while an entry that is
zero does: what is not a finite number spreads along entries alone. -/
namespace GaussianProgram

abbrev SparseRow (α : Type) := List (Option α)

namespace SparseRow
variable {α : Type} [Scalar α]

def entryAt (r : SparseRow α) (i : Nat) : Option α := r.getD i none

/-- Entry `i`, zero where there is none. -/
def get (r : SparseRow α) (i : Nat) : α := (r.entryAt i).getD 0

/-- Products at the places where both rows have an entry. -/
def products (r s : SparseRow α) : Vec α :=
  (r.zip s).filterMap fun (a?, b?) => a?.bind fun a => b?.map (a * ·)

end SparseRow

end GaussianProgram
