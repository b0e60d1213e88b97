import GaussianProgram.Dimension

/-! Unknowns that are eliminated together because they meet the same others. An order of elimination
takes the cheapest bundle first and joins bundles that have become alike. -/
namespace GaussianProgram

/-- Unknowns known by one of them. The cost bounds how many others they meet, and `links` says by
what they meet them. -/
structure Bundle (β : Type) where
  leader : Nat
  followers : List Nat
  cost : Nat
  links : β

namespace Bundle
variable {β : Type}

def size (b : Bundle β) : Nat := b.followers.length + 1

def totalSize (bs : List (Bundle β)) : Nat := sumDims (bs.map size)

/-- The unknowns of a bundle and of those that are finished with it, in the order of their
elimination. The leader comes last. -/
def unknowns (b : Bundle β) (finished : List (Bundle β)) : List Nat :=
  (b.followers ++ finished.flatMap fun f => f.leader :: f.followers).mergeSort ++ [b.leader]

def named (bs : List (Bundle β)) (leaders : List Nat) : List (Bundle β) :=
  leaders.eraseDups.filterMap fun k => bs.find? (·.leader == k)

def without (bs taken : List (Bundle β)) : List (Bundle β) :=
  bs.filter fun b => !(taken.any (·.leader == b.leader))

def cheapest? (bs : List (Bundle β)) : Option (Bundle β) :=
  bs.foldl (fun best b => if best.all fun c => decide (b.cost < c.cost) then some b else best) none

/-- Joins bundles with the same links. The last of them leads. -/
def joinAlike (same : β → β → Bool) : List (Bundle β) → List (Bundle β)
  | [] => []
  | b :: bs =>
    let joined := joinAlike same bs
    if joined.any fun c => same b.links c.links then
      joined.map fun c =>
        if same b.links c.links then
          { c with followers := b.leader :: (b.followers ++ c.followers) }
        else c
    else b :: joined

end Bundle

end GaussianProgram
