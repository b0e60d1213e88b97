/-! Finite maps kept as lists that ascend strictly by key. Two maps with the same lookups are equal,
which is what lets maps be compared and recorded. -/
namespace GaussianProgram

/-- Pairs of a key and a value, strictly ascending by key. -/
structure SortedMap (κ β : Type) [Ord κ] where
  toList : List (κ × β)
  ascending : toList.Pairwise fun a b => compare a.1 b.1 = .lt

namespace SortedMap
variable {κ β γ : Type}

section Entries
variable [Ord κ]

def lookup (k : κ) : List (κ × β) → Option β
  | [] => none
  | (k', v) :: rest => match compare k k' with
    | .eq => some v
    | _ => lookup k rest

/-- Puts a pair at its place, over a pair under the same key. -/
def put (k : κ) (v : β) : List (κ × β) → List (κ × β)
  | [] => [(k, v)]
  | (k', v') :: rest => match compare k k' with
    | .lt => (k, v) :: (k', v') :: rest
    | .eq => (k, v) :: rest
    | .gt => (k', v') :: put k v rest

theorem mem_put {k : κ} {v : β} {e : κ × β} {l : List (κ × β)} (h : e ∈ put k v l) :
    e = (k, v) ∨ e ∈ l := by
  induction l with
  | nil => simpa [put] using h
  | cons head rest ih => grind [put]

end Entries

variable [Ord κ] [Std.TransOrd κ] [Std.LawfulEqOrd κ]

theorem pairwise_put (k : κ) (v : β) {l : List (κ × β)}
    (h : l.Pairwise fun a b => compare a.1 b.1 = .lt) :
    (put k v l).Pairwise fun a b => compare a.1 b.1 = .lt := by
  induction l with
  | nil => simp [put]
  | cons head rest ih =>
    obtain ⟨k', v'⟩ := head
    rw [put]
    obtain ⟨hlt, hrest⟩ := List.pairwise_cons.1 h
    split
    next hk =>
      refine List.pairwise_cons.2 ⟨fun e he => ?_, h⟩
      rcases List.mem_cons.1 he with rfl | he
      · exact hk
      · exact Std.TransCmp.lt_trans hk (hlt e he)
    next hk =>
      cases Std.LawfulEqCmp.eq_of_compare hk
      exact List.pairwise_cons.2 ⟨fun e he => hlt e he, hrest⟩
    next hk =>
      refine List.pairwise_cons.2 ⟨fun e he => ?_, ih hrest⟩
      rcases mem_put he with rfl | he
      · exact Std.OrientedCmp.lt_of_gt hk
      · exact hlt e he

def empty : SortedMap κ β := ⟨[], .nil⟩

def get? (m : SortedMap κ β) (k : κ) : Option β := lookup k m.toList

def insert (m : SortedMap κ β) (k : κ) (v : β) : SortedMap κ β :=
  ⟨put k v m.toList, pairwise_put k v m.ascending⟩

def erase (m : SortedMap κ β) (k : κ) : SortedMap κ β :=
  ⟨m.toList.filter fun e => compare k e.1 != .eq, m.ascending.filter _⟩

def filterKeys (m : SortedMap κ β) (keep : κ → Bool) : SortedMap κ β :=
  ⟨m.toList.filter fun e => keep e.1, m.ascending.filter _⟩

def mapValues (f : β → γ) (m : SortedMap κ β) : SortedMap κ γ :=
  ⟨m.toList.map fun e => (e.1, f e.2), by
    rw [List.pairwise_map]; exact m.ascending⟩

/-- Inserts every pair in order, so a later pair wins over an earlier one under its key. -/
def insertAll (m : SortedMap κ β) (pairs : List (κ × β)) : SortedMap κ β :=
  pairs.foldl (fun m e => m.insert e.1 e.2) m

def ofList (pairs : List (κ × β)) : SortedMap κ β := empty.insertAll pairs

def keys (m : SortedMap κ β) : List κ := m.toList.map (·.1)

def values (m : SortedMap κ β) : List β := m.toList.map (·.2)

def size (m : SortedMap κ β) : Nat := m.toList.length

def contains (m : SortedMap κ β) (k : κ) : Bool := (m.get? k).isSome

instance : Inhabited (SortedMap κ β) := ⟨empty⟩

instance [DecidableEq κ] [DecidableEq β] : DecidableEq (SortedMap κ β) := fun a b =>
  decidable_of_iff (a.toList = b.toList) (by cases a; cases b; simp)

instance [BEq κ] [BEq β] : BEq (SortedMap κ β) := ⟨fun a b => a.toList == b.toList⟩

end SortedMap

end GaussianProgram
