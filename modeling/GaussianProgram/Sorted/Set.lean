import GaussianProgram.Sorted.Map

/-! Finite sets in ascending order, as maps that hold nothing under their keys. -/
namespace GaussianProgram

abbrev SortedSet (κ : Type) [Ord κ] := SortedMap κ Unit

namespace SortedSet
variable {κ : Type} [Ord κ] [Std.TransOrd κ] [Std.LawfulEqOrd κ]

def add (s : SortedSet κ) (k : κ) : SortedSet κ := s.insert k ()

def ofKeys (ks : List κ) : SortedSet κ := SortedMap.ofList (ks.map (·, ()))

end SortedSet

end GaussianProgram
