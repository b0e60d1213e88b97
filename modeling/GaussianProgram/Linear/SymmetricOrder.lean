import GaussianProgram.Linear.Bundle
import GaussianProgram.Linear.Sparse

/-! Order in which the unknowns of a symmetric system are eliminated. To eliminate an unknown makes
all that it meets meet each other, so unknowns that meet few others come first. Those that meet in
this way form a clique, which swallows the cliques that lie inside of it. How many others an unknown
meets is bounded by its cliques one by one. Unknowns that meet the same others are taken together,
and unknowns that meet a great many others are left for the end. -/
namespace GaussianProgram.SymmetricOrder

/-- Cliques by name, and leaders of the bundles that are met outside of them. -/
structure Links where
  cliques : List Nat
  neighbours : List Nat

namespace Links

def isEmpty (l : Links) : Bool := l.cliques.isEmpty && l.neighbours.isEmpty

def same (l k : Links) : Bool :=
  l.cliques.length == k.cliques.length && l.neighbours.length == k.neighbours.length &&
    l.cliques.all k.cliques.contains && l.neighbours.all k.neighbours.contains

end Links

/-- Bundles that all meet each other, given by their leaders. The clique has the name of the bundle
that was eliminated. -/
structure Clique where
  name : Nat
  leaders : List Nat

/-- Unknowns that are eliminated, and the bundles and cliques that are left. Bundles whose cost was
found later stand before the others. -/
structure State where
  done : List Nat
  bundles : List (Bundle Links)
  cliques : List Clique

/-- Whether `degree` others are a great many among `n` unknowns: more than sixteen, and more than
ten times the square root of `n`. -/
def isDense (n degree : Nat) : Bool := decide (16 < degree ∧ 100 * n < degree * degree)

/-- Each unknown by itself, without those that meet a great many others. -/
def start {α : Type} (m : SparseMatrix α) : State :=
  let places := m.entries.keys
  let bundles := (List.range m.cols).map fun i =>
    let met := places.filterMap fun (a, b) =>
      if a = b then none else if a = i then some b else if b = i then some a else none
    let neighbours := met.mergeSort.eraseDups
    Bundle.mk i [] neighbours.length ⟨[], neighbours⟩
  ⟨[], (bundles.filter fun b => !isDense m.cols b.cost).reverse, []⟩

/-- Eliminates a bundle of a system with `n` unknowns. What it meets becomes a clique. Bundles that
meet nothing else are finished with it, and the others are given a new cost. -/
def eliminate (n : Nat) (s : State) (pivot : Bundle Links) : State :=
  let rest := Bundle.without s.bundles [pivot]
  let own := pivot.links.cliques.flatMap fun name =>
    (s.cliques.filter (·.name == name)).flatMap (·.leaders)
  let touched := Bundle.named rest (own ++ pivot.links.neighbours)
  let untouched := Bundle.without rest touched
  let outside := (s.cliques.filter fun c => !pivot.links.cliques.contains c.name).filterMap fun c =>
    let size := Bundle.totalSize (Bundle.named untouched c.leaders)
    if size = 0 then none else some (c, size)
  let reduced := touched.map fun b =>
    let cliques := b.links.cliques.filter fun name => outside.any (·.1.name == name)
    let neighbours := b.links.neighbours.filter fun k => untouched.any (·.leader == k)
    let met := outside.filter fun (c, _) => cliques.contains c.name
    let bound := sumDims (met.map (·.2)) + Bundle.totalSize (Bundle.named untouched neighbours)
    { b with links := ⟨cliques, neighbours⟩, cost := min b.cost bound }
  let (finished, left) := reduced.partition (·.links.isEmpty)
  let done := s.done ++ pivot.unknowns finished
  let width := Bundle.totalSize left
  let priced := (Bundle.joinAlike Links.same left).map fun b =>
    { b with
      links := ⟨pivot.leader :: b.links.cliques.rotateLeft, b.links.neighbours.rotateLeft⟩
      cost := min (b.cost + width - b.size) (n - done.length - b.size) }
  ⟨done, priced.reverse ++ untouched,
    ⟨pivot.leader, priced.map (·.leader)⟩ :: outside.map (·.1)⟩

/-- Eliminates bundles until none is left, at most `fuel` of them. -/
def run (n : Nat) : Nat → State → State
  | 0, s => s
  | fuel + 1, s =>
    match Bundle.cheapest? s.bundles with
    | none => s
    | some pivot => run n fuel (eliminate n s pivot)

end SymmetricOrder

/-- Every unknown once, in the order of its elimination. -/
def SparseMatrix.symmetricOrder {α : Type} (m : SparseMatrix α) : List Nat :=
  let start := SymmetricOrder.start m
  let ordered := (SymmetricOrder.run start.bundles.length m.cols start).done
  ordered ++ (List.range m.cols).filter fun i => !ordered.contains i

end GaussianProgram
